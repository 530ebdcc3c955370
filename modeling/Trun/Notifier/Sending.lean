import Mathlib.Algebra.BigOperators.Group.Finset.Basic
import Mathlib.Algebra.Order.BigOperators.Group.List
import Trun.Notifier.Batch
import Trun.Program.Runs

/-!
# What the owners are told

The counts of the notifier agree with the calls since mails were last sent.  So
a mail counts each of them once for its owner; and since the counts are dropped
however far the sending got, no mail counts any of them again.
-/

namespace Trun.Notification

def StepCounts.count (step : StepCounts) : Kind → ℕ
  | .failure => step.failures
  | .disable => step.disables
  | .schedulingFail => step.schedulingFails

def recorded (config : Config) (calls : List Call) (kind : Kind) (owner key : String) : ℕ :=
  calls.countP fun call =>
    decide (call.kind = kind ∧ owner ∈ call.audience config ∧ call.key config = key)

def Concerns (config : Config) (calls : List Call) (owner key : String) : Prop :=
  ∃ call ∈ calls, owner ∈ call.audience config ∧ call.key config = key

namespace BatchNotifier

def counts (n : BatchNotifier) : Kind → Dict String Counter
  | .failure => n.failCounts
  | .disable => n.disabledCounts
  | .schedulingFail => n.schedulingFailCounts

def count (n : BatchNotifier) (kind : Kind) (owner key : String) : ℕ :=
  ((n.counts kind).getD owner ∅).getD key 0

/-- The owner would be told about the key. -/
def Named (n : BatchNotifier) (owner key : String) : Prop :=
  (n.failCounts.getD owner ∅).contains key = true

variable {n n' n'' : BatchNotifier} {config : Config} {kind : Kind} {owner key : String}

/-- What one event is for some owners. -/
structure Notes (kind : Kind) (key : String) (owners : List String) (n n' : BatchNotifier) :
    Prop where
  count : ∀ kind' owner' key', n'.count kind' owner' key' =
    n.count kind' owner' key' + if kind' = kind ∧ owner' ∈ owners ∧ key' = key then 1 else 0
  named : ∀ owner' key', n'.Named owner' key' ↔
    n.Named owner' key' ∨ owner' ∈ owners ∧ key' = key
  listed : ∀ owner', n'.failCounts.contains owner' = true ↔
    n.failCounts.contains owner' = true ∨ owner' ∈ owners

theorem count_bump (n : BatchNotifier) (kind kind' : Kind) (owner owner' key key' : String) :
    (n.bump kind owner key).count kind' owner' key' =
      n.count kind' owner' key' +
        if kind' = kind ∧ owner' = owner ∧ key' = key then 1 else 0 := by
  by_cases howner : owner' = owner
  · by_cases hkey : key' = key
    · cases kind <;> cases kind' <;> simp [count, counts, bump, howner, hkey]
    · cases kind <;> cases kind' <;> simp [count, counts, bump, howner, hkey]
  · cases kind <;> cases kind' <;> simp [count, counts, bump, howner]

theorem count_ensure (n : BatchNotifier) (kind : Kind) (owner owner' key key' : String) :
    (n.ensure owner key).count kind owner' key' = n.count kind owner' key' := by
  cases kind with
  | disable => rfl
  | schedulingFail => rfl
  | failure =>
      by_cases howner : owner' = owner
      · subst howner
        simp only [count, counts, ensure, Dict.getD_modify, if_true]
        split
        next => rfl
        next habsent =>
          rw [Dict.getD_set]
          split
          next hkey =>
            subst hkey
            rw [Dict.contains, Bool.not_eq_true, Option.isSome_eq_false_iff,
              Option.isNone_iff_eq_none] at habsent
            rw [Dict.getD, habsent]
            rfl
          next => rfl
      · simp [count, counts, ensure, howner]

theorem named_bump_failure (n : BatchNotifier) (owner owner' key key' : String) :
    (n.bump .failure owner key).Named owner' key' ↔
      n.Named owner' key' ∨ owner' = owner ∧ key' = key := by
  by_cases howner : owner' = owner
  · simp only [Named, bump, howner, Dict.getD_modify, if_true, Dict.contains_modify, true_and]
    exact or_comm
  · simp [Named, bump, howner]

theorem named_ensure (n : BatchNotifier) (owner owner' key key' : String) :
    (n.ensure owner key).Named owner' key' ↔
      n.Named owner' key' ∨ owner' = owner ∧ key' = key := by
  by_cases howner : owner' = owner
  · simp only [Named, ensure, howner, Dict.getD_modify, if_true, true_and]
    split
    next hthere =>
      constructor
      · exact .inl
      · rintro (h | rfl)
        · exact h
        · exact hthere
    next =>
      rw [Dict.contains_set]
      exact or_comm
  · simp [Named, ensure, howner]

theorem notes_failure (n : BatchNotifier) (config : Config) (owner key expl : String) :
    Notes .failure key [owner] n ((n.bump .failure owner key).enqueue config owner key expl) where
  count kind' owner' key' := by
    simp only [List.mem_singleton]
    exact count_bump n .failure kind' owner owner' key key'
  named owner' key' := by
    rw [List.mem_singleton]
    exact named_bump_failure n owner owner' key key'
  listed owner' := by
    rw [List.mem_singleton]
    exact (Dict.contains_modify ..).trans or_comm

theorem notes_disable (n : BatchNotifier) (owner key : String) :
    Notes .disable key [owner] n ((n.bump .disable owner key).ensure owner key) where
  count kind' owner' key' := by
    simp only [List.mem_singleton, count_ensure]
    exact count_bump n .disable kind' owner owner' key key'
  named owner' key' := by
    rw [List.mem_singleton]
    exact named_ensure (n.bump .disable owner key) owner owner' key key'
  listed owner' := by
    rw [List.mem_singleton]
    exact (Dict.contains_modify ..).trans or_comm

theorem notes_schedulingFail (n : BatchNotifier) (config : Config) (owner key expl : String) :
    Notes .schedulingFail key [owner] n
      (((n.bump .schedulingFail owner key).enqueue config owner key expl).ensure owner key) where
  count kind' owner' key' := by
    simp only [List.mem_singleton, count_ensure]
    exact count_bump n .schedulingFail kind' owner owner' key key'
  named owner' key' := by
    rw [List.mem_singleton]
    exact named_ensure ((n.bump .schedulingFail owner key).enqueue config owner key expl) owner
      owner' key key'
  listed owner' := by
    rw [List.mem_singleton]
    exact (Dict.contains_modify ..).trans or_comm

/-- A loop over owners notes the event for each of them. -/
theorem notes_foldl {step : BatchNotifier → String → BatchNotifier}
    (hstep : ∀ n owner, Notes kind key [owner] n (step n owner)) {owners : List String}
    (hnodup : owners.Nodup) (n : BatchNotifier) :
    Notes kind key owners n (owners.foldl step n) := by
  induction owners generalizing n with
  | nil =>
      exact ⟨fun _ _ _ => by simp, fun _ _ => by simp, fun _ => by simp⟩
  | cons owner rest ih =>
      obtain ⟨howner, hrest⟩ := List.nodup_cons.mp hnodup
      have hfirst := hstep n owner
      have hlast := ih hrest (step n owner)
      constructor
      · intro kind' owner' key'
        rw [List.foldl_cons, hlast.count, hfirst.count]
        by_cases hkind : kind' = kind ∧ key' = key
        · obtain ⟨rfl, rfl⟩ := hkind
          by_cases hother : owner' = owner
          · subst hother
            simp [howner]
          · simp [hother]
        · have hnot : ∀ p : Prop, ¬(kind' = kind ∧ p ∧ key' = key) :=
            fun p h => hkind ⟨h.1, h.2.2⟩
          simp [hnot]
      · intro owner' key'
        rw [List.foldl_cons, hlast.named, hfirst.named, List.mem_singleton, List.mem_cons]
        tauto
      · intro owner'
        rw [List.foldl_cons, hlast.listed, hfirst.listed, List.mem_singleton, List.mem_cons]
        tauto

/-- The counts are those of the calls. -/
structure Tracks (config : Config) (n : BatchNotifier) (calls : List Call) : Prop where
  count : ∀ kind owner key, n.count kind owner key = recorded config calls kind owner key
  named : ∀ owner key, n.Named owner key ↔ Concerns config calls owner key
  listed : ∀ owner, n.failCounts.contains owner = true ↔
    ∃ call ∈ calls, owner ∈ call.audience config

theorem tracks_blank (config : Config) (nextSend : Time) :
    Tracks config { nextSend := nextSend } [] where
  count kind _ _ := by cases kind <;> rfl
  named _ _ := by
    constructor
    · exact nofun
    · rintro ⟨_, h, -⟩
      cases h
  listed _ := by
    constructor
    · exact nofun
    · rintro ⟨_, h, -⟩
      cases h

end BatchNotifier

open BatchNotifier

variable {config : Config} {n : BatchNotifier}

namespace Call

theorem nodup_audience (config : Config) (call : Call) : (call.audience config).Nodup :=
  (call.order.perm _).nodup_iff.mpr (OrderedSet.nodup _)

/-- A call is noted for the default owners and its own. -/
theorem notes (config : Config) (call : Call) (n : BatchNotifier) :
    Notes call.kind (call.key config) (call.audience config) n (call.record config n) := by
  have hnodup := call.nodup_audience config
  unfold record
  cases hkind : call.kind with
  | failure =>
      exact notes_foldl (fun n owner => notes_failure n config owner _ call.expl) hnodup n
  | disable => exact notes_foldl (fun n owner => notes_disable n owner _) hnodup n
  | schedulingFail =>
      exact notes_foldl (fun n owner => notes_schedulingFail n config owner _ call.expl) hnodup n

theorem tracks_record {calls : List Call} (htracks : Tracks config n calls) (call : Call) :
    Tracks config (call.record config n) (calls ++ [call]) := by
  have hnotes := call.notes config n
  constructor
  · intro kind owner key
    rw [hnotes.count, htracks.count, recorded, recorded, List.countP_append,
      List.countP_singleton]
    congr 1
    by_cases hcall : call.kind = kind ∧ owner ∈ call.audience config ∧ call.key config = key
    · obtain ⟨rfl, howner, rfl⟩ := hcall
      simp [howner]
    · rw [if_neg, if_neg]
      · simpa using hcall
      · rintro ⟨hkind, howner, hkey⟩
        exact hcall ⟨hkind.symm, howner, hkey.symm⟩
  · intro owner key
    rw [hnotes.named, htracks.named]
    simp only [Concerns, List.mem_append, List.mem_singleton]
    constructor
    · rintro (⟨other, hmem, hother⟩ | ⟨howner, hkey⟩)
      · exact ⟨other, .inl hmem, hother⟩
      · exact ⟨call, .inr rfl, howner, hkey.symm⟩
    · rintro ⟨other, hmem | rfl, howner, hkey⟩
      · exact .inl ⟨other, hmem, howner, hkey⟩
      · exact .inr ⟨howner, hkey.symm⟩
  · intro owner
    rw [hnotes.listed, htracks.listed]
    simp only [List.mem_append, List.mem_singleton]
    constructor
    · rintro (⟨other, hmem, hother⟩ | howner)
      · exact ⟨other, .inl hmem, hother⟩
      · exact ⟨call, .inr rfl, howner⟩
    · rintro ⟨other, hmem | rfl, howner⟩
      · exact .inl ⟨other, hmem, howner⟩
      · exact .inr howner

end Call

/-! ## The mails -/

/-- The sum of a counter, over all keys for which it could count anything. -/
theorem sum_values (counter : Counter) {keys : List String} (hnodup : keys.Nodup)
    (hzero : ∀ key, key ∉ keys → counter.getD key 0 = 0) :
    counter.values.sum = (keys.map fun key => counter.getD key 0).sum := by
  have hvalues : counter.values = counter.keys.map fun key => counter.getD key 0 := by
    unfold Dict.values Dict.keys
    rw [List.map_map]
    apply List.map_congr_left
    intro entry hentry
    have hget := (Dict.mem_entries_iff counter entry.1 entry.2).mp hentry
    simp [Dict.getD, hget]
  have habsent : ∀ key, key ∉ counter.keys → counter.getD key 0 = 0 := by
    intro key hkey
    rw [Dict.mem_keys_iff_contains, Dict.contains, Bool.not_eq_true,
      Option.isSome_eq_false_iff, Option.isNone_iff_eq_none] at hkey
    rw [Dict.getD, hkey]
    rfl
  have hkeys : counter.keys.Nodup := counter.nodup_keys
  rw [hvalues, ← List.sum_toFinset _ hkeys, ← List.sum_toFinset _ hnodup]
  calc ∑ key ∈ counter.keys.toFinset, counter.getD key 0
      = ∑ key ∈ counter.keys.toFinset ∪ keys.toFinset, counter.getD key 0 := by
        apply Finset.sum_subset Finset.subset_union_left
        exact fun key _ hkey => habsent key fun h => hkey (List.mem_toFinset.mpr h)
    _ = ∑ key ∈ keys.toFinset, counter.getD key 0 := by
        symm
        apply Finset.sum_subset Finset.subset_union_right
        exact fun key _ hkey => hzero key fun h => hkey (List.mem_toFinset.mpr h)

theorem pluralFormat_eq_empty {noun : String} {number : ℕ} :
    pluralFormat noun number = "" ↔ number = 0 := by
  unfold pluralFormat
  dsimp only
  by_cases hnumber : number = 0
  · simp [hnumber]
  · simp [hnumber]

theorem eq_nil_of_intercalate {separator : String} {texts : List String}
    (hfull : ∀ text ∈ texts, text ≠ "") (hempty : separator.intercalate texts = "") :
    texts = [] := by
  cases texts with
  | nil => rfl
  | cons text rest =>
      have htext := hfull text (List.mem_cons_self ..)
      cases rest with
      | nil => exact absurd (String.intercalate_singleton.symm.trans hempty) htext
      | cons other rest =>
          rw [String.intercalate_cons_cons, String.append_assoc, String.append_eq_empty_iff]
            at hempty
          exact absurd hempty.1 htext

/-- Nothing is written only where there is nothing to report. -/
theorem countText_eq_empty {failures disables schedulingFails : ℕ} :
    countText failures disables schedulingFails = "" ↔
      failures = 0 ∧ disables = 0 ∧ schedulingFails = 0 := by
  unfold countText
  constructor
  · intro hempty
    have hnil := eq_nil_of_intercalate (by simp) hempty
    simp only [List.filter_eq_nil_iff, List.forall_mem_cons, decide_eq_true_eq, Decidable.not_not,
      pluralFormat_eq_empty] at hnil
    exact ⟨hnil.1, hnil.2.1, hnil.2.2.1⟩
  · rintro ⟨rfl, rfl, rfl⟩
    rfl

section Mails

variable {calls : List Call} {owner : String} {failCounts : Counter}

/-- The mail counts the calls that concern the owner, each under its key. -/
structure Mail.Counts (config : Config) (calls : List Call) (mail : Mail) : Prop where
  nodup : (mail.steps.map StepCounts.name).Nodup
  keys : ∀ key, key ∈ mail.steps.map StepCounts.name ↔ Concerns config calls mail.owner key
  counts : ∀ step ∈ mail.steps, ∀ kind,
    step.count kind = recorded config calls kind mail.owner step.name
  /-- The subject gives the sums. -/
  totals : ∃ greeting, mail.subject = greeting ++
    countText (mail.steps.map StepCounts.failures).sum
      (mail.steps.map StepCounts.disables).sum (mail.steps.map StepCounts.schedulingFails).sum ++
    s!" in the last {config.emailInterval} minutes"

/-- A key that no call concerns has no count. -/
theorem BatchNotifier.Tracks.count_eq_zero (htracks : Tracks config n calls) {key : String}
    (hkey : ¬n.Named owner key) (kind : Kind) : n.count kind owner key = 0 := by
  rw [htracks.count, recorded, List.countP_eq_zero]
  intro call hcall
  rw [decide_eq_true_iff]
  rintro ⟨-, howner, rfl⟩
  exact hkey ((htracks.named owner _).mpr ⟨call, hcall, howner, rfl⟩)

/-- Every owner in the counts gets a mail, which counts what concerns the owner. -/
theorem BatchNotifier.Tracks.mail (htracks : Tracks config n calls)
    (hget : n.failCounts.get? owner = some failCounts) :
    ∃ mail, n.mail config owner failCounts = some mail ∧ mail.owner = owner ∧
      mail.Counts config calls := by
  have hcounts : n.failCounts.getD owner ∅ = failCounts := by simp [Dict.getD, hget]
  have hnamed : ∀ key, key ∈ failCounts.keys ↔ n.Named owner key := by
    intro key
    rw [Dict.mem_keys_iff_contains, Named, hcounts]
  have hsum : ∀ kind, ((n.counts kind).getD owner ∅).values.sum =
      (failCounts.keys.map fun key => n.count kind owner key).sum := fun kind =>
    sum_values _ failCounts.nodup_keys fun key hkey =>
      htracks.count_eq_zero (fun h => hkey ((hnamed key).mpr h)) kind
  have hvalue : ∀ entry ∈ failCounts.entries, entry.2 = n.count .failure owner entry.1 := by
    intro entry hentry
    have hentry := (Dict.mem_entries_iff failCounts entry.1 entry.2).mp hentry
    rw [BatchNotifier.count, BatchNotifier.counts, hcounts, Dict.getD, hentry]
    rfl
  have hfailures : failCounts.values.sum =
      (failCounts.keys.map fun key => n.count .failure owner key).sum := by
    have h := hsum .failure
    simp only [BatchNotifier.counts, hcounts] at h
    exact h
  -- some call concerns the owner, so that there is something to report
  have hfull : countText failCounts.values.sum (n.disabledCounts.getD owner ∅).values.sum
      (n.schedulingFailCounts.getD owner ∅).values.sum ≠ "" := by
    intro hempty
    obtain ⟨hfail, hdisable, hscheduling⟩ := countText_eq_empty.mp hempty
    obtain ⟨call, hcall, howner⟩ := (htracks.listed owner).mp
      ((Dict.contains_iff ..).mpr ⟨failCounts, hget⟩)
    have hkey : call.key config ∈ failCounts.keys :=
      (hnamed _).mpr ((htracks.named owner _).mpr ⟨call, hcall, howner, rfl⟩)
    have hpos : 0 < n.count call.kind owner (call.key config) := by
      rw [htracks.count, recorded, List.countP_pos_iff]
      exact ⟨call, hcall, by simp [howner]⟩
    have hle : n.count call.kind owner (call.key config) ≤
        ((n.counts call.kind).getD owner ∅).values.sum := by
      rw [hsum]
      exact List.single_le_sum (fun _ _ => Nat.zero_le _) _ (List.mem_map_of_mem hkey)
    have hnone : ((n.counts call.kind).getD owner ∅).values.sum = 0 := by
      cases call.kind with
      | failure => rw [BatchNotifier.counts, hcounts, hfail]
      | disable => exact hdisable
      | schedulingFail => exact hscheduling
    omega
  unfold BatchNotifier.mail
  dsimp only
  rw [if_neg hfull]
  refine ⟨_, rfl, rfl, ?_⟩
  have hnames : ((n.expls config owner failCounts).map Prod.fst).map StepCounts.name =
      failCounts.keys := by
    unfold expls Dict.keys
    rw [List.map_map, List.map_map]
    rfl
  have hsums : ∀ kind, ((n.expls config owner failCounts).map Prod.fst).map
      (StepCounts.count · kind) = failCounts.keys.map fun key => n.count kind owner key := by
    intro kind
    unfold expls Dict.keys
    rw [List.map_map, List.map_map, List.map_map]
    apply List.map_congr_left
    intro entry hentry
    cases kind with
    | failure => exact hvalue entry hentry
    | disable => rfl
    | schedulingFail => rfl
  constructor
  · rw [hnames]
    exact failCounts.nodup_keys
  · intro key
    rw [hnames, hnamed, htracks.named]
  · intro step hstep kind
    unfold expls at hstep
    rw [List.map_map] at hstep
    obtain ⟨entry, hentry, rfl⟩ := List.mem_map.mp hstep
    rw [← htracks.count]
    cases kind with
    | failure => exact hvalue entry hentry
    | disable => rfl
    | schedulingFail => rfl
  · refine ⟨"Trun: " ++ if owner ∈ config.defaultOwner then "" else "Your steps have ", ?_⟩
    have hfail := congrArg List.sum (hsums .failure)
    have hdisable := congrArg List.sum (hsums .disable)
    have hscheduling := congrArg List.sum (hsums .schedulingFail)
    rw [← hsum] at hdisable hscheduling
    rw [← hfailures] at hfail
    simp only [StepCounts.count, BatchNotifier.counts] at hfail hdisable hscheduling
    rw [hfail, hdisable, hscheduling]
    simp only [String.append_assoc]
    rfl

end Mails

/-- The owners get their mails in turn, until a delivery raises. -/
theorem BatchNotifier.deliver_spec {calls : List Call} (raises : String → Bool)
    {entries : List (String × Counter)}
    (hmails : ∀ entry ∈ entries, ∃ mail, n.mail config entry.1 entry.2 = some mail ∧
      mail.owner = entry.1 ∧ mail.Counts config calls) :
    (n.deliver config raises entries).1.map Mail.owner =
        (entries.map Prod.fst).takeWhile (!raises ·) ∧
      (∀ mail ∈ (n.deliver config raises entries).1, mail.Counts config calls) ∧
      (n.deliver config raises entries).2 = (entries.map Prod.fst).any raises := by
  induction entries with
  | nil => exact ⟨rfl, nofun, rfl⟩
  | cons entry rest ih =>
      obtain ⟨mail, hmail, howner, hcounts⟩ := hmails entry (List.mem_cons_self ..)
      obtain ⟨howners, hall, hraised⟩ := ih fun other h => hmails other (List.mem_cons_of_mem _ h)
      unfold deliver
      simp only [hmail]
      cases hraises : raises entry.1 with
      | true => simp [hraises]
      | false =>
          refine ⟨?_, ?_, ?_⟩
          · simp [hraises, howner, howners]
          · intro other hother
            rcases List.mem_cons.mp hother with rfl | hrest
            · exact hcounts
            · exact hall other hrest
          · simpa [hraises] using hraised

/-! ## Runs -/

namespace Event

/-- The owners to whom the delivery raises. -/
def raises : Event → String → Bool
  | .add _ => fun _ => false
  | .sendEmail _ raises | .update _ raises => raises

def call : Event → Option Call
  | .add call => some call
  | _ => none

end Event

namespace State

/-- The calls since the last sending are mailed: owner by owner, each of them gets one mail that
counts what concerns the owner, until a delivery raises, which ends the sending.  No call is left
to be sent again. -/
structure SendsOnce (config : Config) (s : State) (event : Event) (t : State) : Prop where
  mails : ∃ owners : List String, owners.Nodup ∧
    (∀ owner, owner ∈ owners ↔ ∃ call ∈ s.pending, owner ∈ call.audience config) ∧
    ∃ mails, t.mails = s.mails ++ mails ∧
      mails.map Mail.owner = owners.takeWhile (!event.raises ·) ∧
      ∀ mail ∈ mails, mail.Counts config s.pending
  pending : t.pending = []
  blank : ∀ kind, t.notifier.counts kind = ∅

/-- What an event does for the calls that are recorded. -/
def Accounts (config : Config) (s : State) (event : Event) : Prop :=
  if s.sends event then s.SendsOnce config event (s.after config event)
  else (s.after config event).mails = s.mails ∧
    (s.after config event).pending = s.pending ++ event.call.toList

variable {s : State} {event : Event}

theorem sendsOnce_send (htracks : Tracks config s.notifier s.pending) (now : Time)
    (hevent : s.after config event = s.send config now event.raises) :
    s.SendsOnce config event (s.after config event) := by
  obtain ⟨howners, hcounts, -⟩ := @BatchNotifier.deliver_spec config s.notifier s.pending
    event.raises s.notifier.failCounts.entries fun entry hentry =>
      htracks.mail ((Dict.mem_entries_iff _ entry.1 entry.2).mp hentry)
  rw [hevent]
  refine ⟨⟨s.notifier.failCounts.keys, s.notifier.failCounts.nodup_keys, fun owner => ?_, _,
    rfl, howners, hcounts⟩, rfl, fun kind => ?_⟩
  · rw [Dict.mem_keys_iff_contains, htracks.listed]
  · cases kind <;> rfl

theorem tracks_send (s : State) (now : Time) (raises : String → Bool) :
    Tracks config (s.send config now raises).notifier (s.send config now raises).pending :=
  tracks_blank config _

/-- The counts agree with the calls after every event. -/
theorem tracks_after (htracks : Tracks config s.notifier s.pending) (event : Event) :
    Tracks config (s.after config event).notifier (s.after config event).pending := by
  cases event with
  | add call => exact Call.tracks_record htracks call
  | sendEmail now raises => exact tracks_send s now raises
  | update now raises =>
      unfold after
      dsimp only
      split
      · exact tracks_send s now raises
      · exact htracks

theorem accounts_of_tracks (htracks : Tracks config s.notifier s.pending) (event : Event) :
    s.Accounts config event := by
  unfold Accounts
  cases event with
  | add call => exact ⟨rfl, rfl⟩
  | sendEmail now raises =>
      have hsends : s.sends (.sendEmail now raises) = true := rfl
      rw [if_pos hsends]
      exact sendsOnce_send htracks now rfl
  | update now raises =>
      by_cases hdue : s.notifier.nextSend ≤ now
      · have hsends : s.sends (.update now raises) = true := decide_eq_true hdue
        rw [if_pos hsends]
        exact sendsOnce_send htracks now (if_pos hdue)
      · have hstays : s.after config (.update now raises) = s := if_neg hdue
        rw [if_neg (by simpa [sends] using hdue), hstays]
        exact ⟨rfl, (List.append_nil _).symm⟩

/-- In every run, the calls between two sendings are counted once for each of their owners and the
default owners in the mails of the second one, as far as it gets, and in no others. -/
theorem accounts_along (config : Config) (now : Time) (events : List Event) :
    Along (after config) (Accounts config) (initial config now) events := by
  have hstart : Tracks config (initial config now).notifier (initial config now).pending :=
    tracks_blank config _
  have halong := along_invariant (after config) (fun _ _ => True)
    (fun s => Tracks config s.notifier s.pending)
    (fun s event htracks _ => tracks_after htracks event) hstart
    (along_of_forall (fun _ _ => trivial) events)
  exact halong.mono fun s event h => accounts_of_tracks h.1 event

/-- What the mails told an owner. -/
def told (s : State) (kind : Kind) (owner key : String) : ℕ :=
  (s.mails.map fun mail =>
    if mail.owner = owner then
      (mail.steps.map fun step => if step.name = key then step.count kind else 0).sum
    else 0).sum

/-- A call for two owners, where the delivery to the first raises: the second is never told. -/
theorem raising_owner_loses_others :
    ¬∀ (config : Config) (now : Time) (events : List Event) (owner : String),
      (∀ event ∈ events, event.raises owner = false) → ∀ kind key,
        (runAll (after config) (initial config now) events).told kind owner key +
            (runAll (after config) (initial config now) events).notifier.count kind owner key =
          recorded config (events.filterMap Event.call) kind owner key := by
  intro hclaim
  have h := hclaim { batchMode := .all } 0
    [.add ⟨.failure, "Step", "Step", ∅, "error", ["a", "b"], .insertion⟩,
      .sendEmail 60 (· = "a"), .sendEmail 120 fun _ => false] "b" (by decide) .failure "Step"
  revert h
  decide +kernel

end State

end Trun.Notification
