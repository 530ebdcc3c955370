import Trun.Program.Exploring
import Trun.Scheduler.Answering

/-!
# What `_upstream_status` answers

The table holds finished ids and unfinished ones, both maybe with `''`.  On a
graph without cycles an id that comes up again is finished, and to finish it
once more does no harm, unless its step is `UNKNOWN`: then the second time
looks at its dependencies, which the first one did not.
-/

namespace Trun

namespace UpstreamStatus

theorem severity_injective {a b : UpstreamStatus} (h : a.severity = b.severity) : a = b := by
  cases a <;> cases b <;> first | rfl | cases h

theorem severity_eq_zero {status : UpstreamStatus} : status.severity = 0 ↔ status = .none := by
  constructor
  · exact fun h => severity_injective (h.trans rfl)
  · rintro rfl
    rfl

theorem severity_foldl (statuses : List UpstreamStatus) (first : UpstreamStatus) :
    first.severity ≤ (statuses.foldl (fun current next =>
        if current.severity < next.severity then next else current) first).severity ∧
      ∀ status ∈ statuses, status.severity ≤ (statuses.foldl (fun current next =>
        if current.severity < next.severity then next else current) first).severity := by
  induction statuses generalizing first with
  | nil => exact ⟨le_refl _, nofun⟩
  | cons status statuses ih =>
      obtain ⟨hfirst, hrest⟩ := ih (if first.severity < status.severity then status else first)
      rw [List.foldl_cons]
      by_cases hlt : first.severity < status.severity
      · rw [if_pos hlt] at hfirst hrest ⊢
        exact ⟨hlt.le.trans hfirst, List.forall_mem_cons.mpr ⟨hfirst, hrest⟩⟩
      · rw [if_neg hlt] at hfirst hrest ⊢
        exact ⟨hfirst, List.forall_mem_cons.mpr ⟨(Nat.le_of_not_lt hlt).trans hfirst, hrest⟩⟩

/-- The worst of nothing is nothing. -/
theorem worst_eq_none {statuses : List UpstreamStatus} :
    worst statuses = .none ↔ ∀ status ∈ statuses, status = .none := by
  constructor
  · intro hworst status hstatus
    have hle := (severity_foldl statuses .none).2 status hstatus
    rw [← worst, hworst] at hle
    exact severity_eq_zero.mp (Nat.le_zero.mp hle)
  · intro hall
    induction statuses with
    | nil => rfl
    | cons status statuses ih =>
        obtain ⟨hhead, hrest⟩ := List.forall_mem_cons.mp hall
        subst hhead
        exact ih hrest

end UpstreamStatus

namespace Scheduler

/-! ## The recursive definition -/

def depsOf (s : Scheduler) (id : StepId) : List StepId :=
  match s.getStep id with
  | none => []
  | some ref => (s.stepAt ref).deps.elems

/-- `STATUS_TO_UPSTREAM_MAP.get(step.status, '')`, and `''` without a step. -/
def ownUpstream (s : Scheduler) (id : StepId) : UpstreamStatus :=
  match s.getStep id with
  | none => .none
  | some ref => .ofStatus (s.stepAt ref).status

/-- The step is `PENDING` and has dependencies. -/
def Waits (s : Scheduler) (id : StepId) : Prop :=
  ∃ ref, s.getStep id = some ref ∧ (s.stepAt ref).status = .pending ∧
    (s.stepAt ref).deps.elems ≠ []

instance (s : Scheduler) (id : StepId) : Decidable (s.Waits id) :=
  match hget : s.getStep id with
  | none => isFalse fun ⟨_, h, _⟩ => by rw [hget] at h; cases h
  | some ref =>
      if hwaits : (s.stepAt ref).status = .pending ∧ (s.stepAt ref).deps.elems ≠ [] then
        isTrue ⟨ref, hget, hwaits⟩
      else isFalse fun ⟨_, h, hother⟩ => hwaits (Option.some.inj (hget.symm.trans h) ▸ hother)

/-- A step that is not `DONE` has this id. -/
def Unfinished (s : Scheduler) (id : StepId) : Prop :=
  ∃ ref, s.getStep id = some ref ∧ (s.stepAt ref).status ≠ .done

/-- The recursion: the worst of the dependencies where the step waits for them. -/
def IsUpstream (s : Scheduler) (value : StepId → UpstreamStatus) : Prop :=
  ∀ id, value id =
    if s.Waits id then .worst ((s.depsOf id).map value) else s.ownUpstream id

/-- A path of waiting steps leads to one with an upstream status of its own. -/
def Blocked (s : Scheduler) (id : StepId) : Prop :=
  ∃ last, Relation.ReflTransGen (fun x y => s.Waits x ∧ y ∈ s.depsOf x) id last ∧
    ¬s.Waits last ∧ s.ownUpstream last ≠ .none

/-- The step is `UNKNOWN`: it is not `DONE`, and its status is not in the map. -/
def Silent (s : Scheduler) (id : StepId) : Prop := s.Unfinished id ∧ s.ownUpstream id = .none

section Values

variable {s : Scheduler} {id : StepId} {ref : Ref} {value : StepId → UpstreamStatus}

theorem depsOf_eq (hget : s.getStep id = some ref) : s.depsOf id = (s.stepAt ref).deps.elems := by
  rw [depsOf, hget]

theorem ownUpstream_eq (hget : s.getStep id = some ref) :
    s.ownUpstream id = .ofStatus (s.stepAt ref).status := by
  rw [ownUpstream, hget]

theorem waits_iff (hget : s.getStep id = some ref) :
    s.Waits id ↔ (s.stepAt ref).status = .pending ∧ (s.stepAt ref).deps.elems ≠ [] := by
  constructor
  · rintro ⟨other, hother, hwaits⟩
    obtain rfl := Option.some.inj (hget.symm.trans hother)
    exact hwaits
  · exact fun hwaits => ⟨ref, hget, hwaits⟩

theorem Waits.unfinished (hwaits : s.Waits id) : s.Unfinished id := by
  obtain ⟨ref, hget, hstatus, -⟩ := hwaits
  exact ⟨ref, hget, by rw [hstatus]; decide⟩

theorem IsUpstream.of_waits (hvalue : s.IsUpstream value) (hwaits : s.Waits id) :
    value id = .worst ((s.depsOf id).map value) := (hvalue id).trans (if_pos hwaits)

theorem IsUpstream.of_not_waits (hvalue : s.IsUpstream value) (hwaits : ¬s.Waits id) :
    value id = s.ownUpstream id := (hvalue id).trans (if_neg hwaits)

/-- What is missing or `DONE` has no upstream status. -/
theorem IsUpstream.eq_none (hvalue : s.IsUpstream value) (hfinished : ¬s.Unfinished id) :
    value id = .none := by
  rw [hvalue.of_not_waits fun hwaits => hfinished hwaits.unfinished]
  cases hget : s.getStep id with
  | none => rw [ownUpstream, hget]
  | some ref =>
      have hdone : (s.stepAt ref).status = .done := by
        by_contra hne
        exact hfinished ⟨ref, hget, hne⟩
      rw [ownUpstream_eq hget, hdone]
      rfl

theorem Silent.not_waits (hsilent : s.Silent id) : ¬s.Waits id := by
  rintro ⟨ref, hget, hstatus, -⟩
  have hown := hsilent.2
  rw [ownUpstream_eq hget, hstatus] at hown
  cases hown

theorem IsUpstream.eq_none_of_silent (hvalue : s.IsUpstream value) (hsilent : s.Silent id) :
    value id = .none :=
  (hvalue.of_not_waits hsilent.not_waits).trans hsilent.2

/-- On a graph without cycles the ids are grounded. -/
theorem grounded_depsOf (hacyclic : Acyclic s.depsOf) (id : StepId) : Grounded s.depsOf id := by
  have hlive : ∀ {x y}, y ∈ s.depsOf x → x ∈ s.steps.keys := by
    intro x y hy
    rw [s.steps.mem_keys_iff]
    cases hget : s.getStep x with
    | none =>
        rw [depsOf, hget] at hy
        cases hy
    | some ref => exact ⟨ref, hget⟩
  by_cases hid : id ∈ (s.steps.keys ++ s.steps.keys.flatMap s.depsOf).toFinset
  · refine hacyclic.grounded (fun x _ y hy => ?_) hid
    rw [List.mem_toFinset]
    exact List.mem_append_right _ (List.mem_flatMap.mpr ⟨x, hlive hy, hy⟩)
  · constructor
    intro y hy
    refine absurd ?_ hid
    rw [List.mem_toFinset]
    exact List.mem_append_left _ (hlive hy)

/-- The recursion has a solution. -/
theorem exists_isUpstream (hacyclic : Acyclic s.depsOf) : ∃ value, s.IsUpstream value := by
  let below : StepId → StepId → Prop := fun y x => y ∈ s.depsOf x
  have hwf : WellFounded below := ⟨grounded_depsOf hacyclic⟩
  let rule : (id : StepId) → ((y : StepId) → below y id → UpstreamStatus) → UpstreamStatus :=
    fun id values =>
      if s.Waits id then .worst ((s.depsOf id).attach.map fun dep => values dep.1 dep.2)
      else s.ownUpstream id
  refine ⟨hwf.fix rule, fun id => ?_⟩
  rw [hwf.fix_eq]
  dsimp only [rule]
  rw [List.attach_map_val]

/-- A step has an upstream status where it is blocked. -/
theorem IsUpstream.ne_none_iff (hvalue : s.IsUpstream value) (hgrounded : Grounded s.depsOf id) :
    value id ≠ .none ↔ s.Blocked id := by
  induction hgrounded with
  | intro id _ ih =>
      by_cases hwaits : s.Waits id
      · rw [hvalue.of_waits hwaits, Ne, UpstreamStatus.worst_eq_none]
        simp only [List.forall_mem_map, not_forall]
        constructor
        · rintro ⟨dep, hdep, hne⟩
          obtain ⟨last, hpath, hlast⟩ := (ih dep hdep).mp hne
          exact ⟨last, hpath.head ⟨hwaits, hdep⟩, hlast⟩
        · rintro ⟨last, hpath, hlast⟩
          cases Relation.ReflTransGen.cases_head hpath with
          | inl heq => exact absurd (heq ▸ hwaits) hlast.1
          | inr hfirst =>
              obtain ⟨dep, ⟨-, hdep⟩, hrest⟩ := hfirst
              exact ⟨dep, hdep, (ih dep hdep).mpr ⟨last, hrest, hlast⟩⟩
      · rw [hvalue.of_not_waits hwaits]
        constructor
        · exact fun hown => ⟨id, .refl, hwaits, hown⟩
        · rintro ⟨last, hpath, hlast⟩
          cases Relation.ReflTransGen.cases_head hpath with
          | inl heq => exact heq ▸ hlast.2
          | inr hfirst =>
              obtain ⟨dep, ⟨hother, -⟩, -⟩ := hfirst
              exact absurd hother hwaits

end Values

/-! ## The loop -/

section Loop

variable {s : Scheduler} {id : StepId} {value : StepId → UpstreamStatus} {current : List StepId}
  {table table' table'' : UpstreamTable} {stack stack' stack'' : List StepId}

theorem upstreamVisit_finished (hfinished : ¬s.Unfinished id) :
    s.upstreamVisit id table = ([], table) := by
  rw [upstreamVisit]
  cases hget : s.getStep id with
  | none => rfl
  | some ref =>
      have hdone : (s.stepAt ref).status = .done := by
        by_contra hne
        exact hfinished ⟨ref, hget, hne⟩
      dsimp only
      rw [if_pos hdone]

theorem upstreamVisit_new (hunfinished : s.Unfinished id) (hnew : table.get? id = none) :
    s.upstreamVisit id table =
      if s.Waits id then (id :: s.depsOf id, table.set id .none)
      else ([], table.set id (s.ownUpstream id)) := by
  obtain ⟨ref, hget, hstatus⟩ := hunfinished
  rw [upstreamVisit, hget]
  dsimp only
  rw [if_neg hstatus, hnew, depsOf_eq hget, ownUpstream_eq hget]
  simp only [waits_iff hget]

theorem upstreamVisit_again (hunfinished : s.Unfinished id) {known : UpstreamStatus}
    (hknown : table.get? id = some known) :
    s.upstreamVisit id table =
      if known = .none ∧ s.depsOf id ≠ [] then
        ([], table.set id (.worst ((s.depsOf id).map fun dep => table.getD dep .none)))
      else ([], table) := by
  obtain ⟨ref, hget, hstatus⟩ := hunfinished
  rw [upstreamVisit, hget]
  dsimp only
  rw [if_neg hstatus, hknown, depsOf_eq hget]

/-- After some rounds the loop has come from one stack and table to others. -/
def Loops (s : Scheduler) (stack : List StepId) (table : UpstreamTable) (stack' : List StepId)
    (table' : UpstreamTable) : Prop :=
  ∃ rounds, ∀ fuel, s.upstreamLoop (fuel + rounds) stack table = s.upstreamLoop fuel stack' table'

theorem Loops.refl : s.Loops stack table stack table := ⟨0, fun _ => rfl⟩

theorem Loops.trans (h : s.Loops stack table stack' table')
    (h' : s.Loops stack' table' stack'' table'') : s.Loops stack table stack'' table'' := by
  obtain ⟨rounds, hrounds⟩ := h
  obtain ⟨rounds', hrounds'⟩ := h'
  refine ⟨rounds' + rounds, fun fuel => ?_⟩
  rw [← Nat.add_assoc, hrounds, hrounds']

theorem Loops.visit (s : Scheduler) (id : StepId) (stack : List StepId) (table : UpstreamTable) :
    s.Loops (id :: stack) table ((s.upstreamVisit id table).1.reverse ++ stack)
      (s.upstreamVisit id table).2 :=
  ⟨1, fun fuel => by rw [upstreamLoop]⟩

theorem upstreamLoop_nil (fuel : ℕ) : s.upstreamLoop fuel [] table = .ok table := by
  cases fuel <;> rw [upstreamLoop]

/-- More fuel than enough changes nothing. -/
theorem upstreamLoop_add {fuel : ℕ} {last : UpstreamTable}
    (hloop : s.upstreamLoop fuel stack table = .ok last) (more : ℕ) :
    s.upstreamLoop (fuel + more) stack table = .ok last := by
  induction fuel generalizing stack table with
  | zero =>
      cases stack with
      | nil =>
          rw [upstreamLoop_nil] at hloop ⊢
          exact hloop
      | cons id stack =>
          rw [upstreamLoop] at hloop
          cases hloop
  | succ fuel ih =>
      cases stack with
      | nil =>
          rw [upstreamLoop_nil] at hloop ⊢
          exact hloop
      | cons id stack =>
          rw [Nat.succ_add, upstreamLoop]
          rw [upstreamLoop] at hloop
          exact ih hloop

/-- The loop has used up its stack. -/
theorem Loops.finish (h : s.Loops stack table [] table') {fuel : ℕ} {last : UpstreamTable}
    (hloop : s.upstreamLoop fuel stack table = .ok last) : last = table' := by
  obtain ⟨rounds, hrounds⟩ := h
  have hlast := upstreamLoop_add hloop rounds
  rw [hrounds, upstreamLoop_nil] at hlast
  exact (Except.ok.inj hlast).symm

/-- Finished ids have their value, and the ones that the search is at have none yet. -/
structure Faithful (value : StepId → UpstreamStatus) (current : List StepId)
    (table : UpstreamTable) : Prop where
  known : ∀ {id status}, table.get? id = some status → id ∉ current → status = value id
  waiting : ∀ {id}, id ∈ current → table.get? id = some .none

/-- The loop has dealt with the ids. -/
structure Entered (s : Scheduler) (value : StepId → UpstreamStatus) (current ids : List StepId)
    (table table' : UpstreamTable) : Prop where
  faithful : Faithful value current table'
  tabulates : Tabulates table table'
  entered : ∀ id ∈ ids, s.Unfinished id → table'.contains id = true

theorem Faithful.getD_eq (h : Faithful value current table) (hvalue : s.IsUpstream value)
    (hcurrent : id ∉ current) (hentered : s.Unfinished id → table.contains id = true) :
    table.getD id .none = value id := by
  rw [Dict.getD]
  cases hget : table.get? id with
  | some status => exact h.known hget hcurrent
  | none =>
      refine (hvalue.eq_none fun hunfinished => ?_).symm
      have hcontains := hentered hunfinished
      rw [Dict.contains, hget] at hcontains
      cases hcontains

theorem Faithful.getD_eq_none (h : Faithful value current table) (hnone : value id = .none) :
    table.getD id .none = .none := by
  rw [Dict.getD]
  cases hget : table.get? id with
  | none => rfl
  | some status =>
      by_cases hcurrent : id ∈ current
      · exact Option.some.inj (hget.symm.trans (h.waiting hcurrent))
      · exact (h.known hget hcurrent).trans hnone

/-- The value of an id is written, which is not one that the search is at. -/
theorem Faithful.set (h : Faithful value current table) (hcurrent : id ∉ current) :
    Faithful value current (table.set id (value id)) := by
  constructor
  · intro other status hget hother
    rw [Dict.get?_set] at hget
    by_cases heq : other = id
    · rw [if_pos heq] at hget
      rw [heq]
      exact (Option.some.inj hget).symm
    · rw [if_neg heq] at hget
      exact h.known hget hother
  · intro other hother
    rw [Dict.get?_set, if_neg (ne_of_mem_of_not_mem hother hcurrent)]
    exact h.waiting hother

/-- The search descends below an id. -/
theorem Faithful.descend (h : Faithful value current table) (id : StepId) :
    Faithful value (id :: current) (table.set id .none) := by
  constructor
  · intro other status hget hother
    rw [List.mem_cons, not_or] at hother
    rw [Dict.get?_set, if_neg hother.1] at hget
    exact h.known hget hother.2
  · intro other hother
    rw [Dict.get?_set]
    by_cases heq : other = id
    · rw [if_pos heq]
    · rw [if_neg heq]
      exact h.waiting ((List.mem_cons.mp hother).resolve_left heq)

/-- The search comes back to an id. -/
theorem Faithful.ascend (h : Faithful value (id :: current) table) (hcurrent : id ∉ current) :
    Faithful value current (table.set id (value id)) := by
  constructor
  · intro other status hget hother
    rw [Dict.get?_set] at hget
    by_cases heq : other = id
    · rw [if_pos heq] at hget
      rw [heq]
      exact (Option.some.inj hget).symm
    · rw [if_neg heq] at hget
      exact h.known hget fun hmem => (List.mem_cons.mp hmem).elim heq hother
  · intro other hother
    rw [Dict.get?_set, if_neg (ne_of_mem_of_not_mem hother hcurrent)]
    exact h.waiting (List.mem_cons_of_mem _ hother)

/-- Ids on the stack are dealt with one after the other. -/
theorem loops_all {ids : List StepId}
    (hmeets : ∀ id ∈ ids, ∀ table stack, Faithful value current table →
      ∃ table', s.Loops (id :: stack) table stack table' ∧
        s.Entered value current [id] table table')
    (hfaithful : Faithful value current table) (stack : List StepId) :
    ∃ table', s.Loops (ids ++ stack) table stack table' ∧
      s.Entered value current ids table table' := by
  induction ids generalizing table with
  | nil => exact ⟨table, .refl, hfaithful, fun _ h => h, nofun⟩
  | cons id ids ih =>
      obtain ⟨hhead, hrest⟩ := List.forall_mem_cons.mp hmeets
      obtain ⟨middle, hmiddle, hentered⟩ := hhead table (ids ++ stack) hfaithful
      obtain ⟨last, hlast, hlater⟩ := ih hrest hentered.faithful
      refine ⟨last, hmiddle.trans hlast, hlater.faithful,
        fun other h => hlater.tabulates other (hentered.tabulates other h), ?_⟩
      apply List.forall_mem_cons.mpr ⟨fun hunfinished => ?_, hlater.entered⟩
      exact hlater.tabulates id (hentered.entered id (List.mem_singleton_self id) hunfinished)

/-- No waiting step depends on an `UNKNOWN` one with a blocked dependency. -/
def NoDetour (s : Scheduler) : Prop :=
  ∀ id, s.Waits id → ∀ dep ∈ s.depsOf id, s.Silent dep → ∀ other ∈ s.depsOf dep, ¬s.Blocked other

/-- The dependencies of an `UNKNOWN` step that is looked at again have nothing to say. -/
abbrev Quiet (s : Scheduler) (value : StepId → UpstreamStatus) (id : StepId) : Prop :=
  s.Silent id → ∀ dep ∈ s.depsOf id, value dep = .none

/-- An id that comes up again is left as it is. -/
theorem Faithful.visit_again (h : Faithful value current table) (hvalue : s.IsUpstream value)
    (hunfinished : s.Unfinished id) (hcurrent : id ∉ current) (hquiet : s.Quiet value id)
    {known : UpstreamStatus} (hknown : table.get? id = some known) :
    (s.upstreamVisit id table).1 = [] ∧
      s.Entered value current [id] table (s.upstreamVisit id table).2 := by
  have hcontains : table.contains id = true := by rw [Dict.contains, hknown, Option.isSome_some]
  rw [upstreamVisit_again hunfinished hknown]
  split
  · next hagain =>
      obtain ⟨rfl, -⟩ := hagain
      have hnone : value id = .none := (h.known hknown hcurrent).symm
      have hdeps : ∀ dep ∈ s.depsOf id, value dep = .none := by
        by_cases hwaits : s.Waits id
        · rw [hvalue.of_waits hwaits, UpstreamStatus.worst_eq_none] at hnone
          exact List.forall_mem_map.mp hnone
        · rw [hvalue.of_not_waits hwaits] at hnone
          exact hquiet ⟨hunfinished, hnone⟩
      have hworst : UpstreamStatus.worst ((s.depsOf id).map fun dep => table.getD dep .none) =
          value id := by
        rw [hnone, UpstreamStatus.worst_eq_none, List.forall_mem_map]
        exact fun dep hdep => h.getD_eq_none (hdeps dep hdep)
      rw [hworst]
      exact ⟨rfl, h.set hcurrent, tabulates_set table id _,
        fun other hother _ => List.mem_singleton.mp hother ▸ contains_set ..⟩
  · exact ⟨rfl, h, fun _ h => h, fun other hother _ => List.mem_singleton.mp hother ▸ hcontains⟩

/-- Without detours the loop gives an id its value, by induction on what is below it. -/
theorem Faithful.loops (h : Faithful value current table) (hvalue : s.IsUpstream value)
    (hquiet : ∀ id, s.Waits id → ∀ dep ∈ s.depsOf id, s.Quiet value dep)
    (hgrounded : Grounded s.depsOf id) (hself : table.contains id = true → s.Quiet value id)
    (hclear : ∀ other, Leads s.depsOf id other → other ∉ current) (stack : List StepId) :
    ∃ table', s.Loops (id :: stack) table stack table' ∧
      s.Entered value current [id] table table' := by
  induction hgrounded generalizing current table stack with
  | intro id hbelow ih =>
  have hcurrent : id ∉ current := hclear id .refl
  have hvisit := Loops.visit s id stack table
  by_cases hunfinished : s.Unfinished id
  · cases hget : table.get? id with
    | some known =>
        have hcontains : table.contains id = true := by rw [Dict.contains, hget, Option.isSome_some]
        obtain ⟨hpushed, hentered⟩ :=
          h.visit_again hvalue hunfinished hcurrent (hself hcontains) hget
        rw [hpushed] at hvisit
        exact ⟨_, hvisit, hentered⟩
    | none =>
        rw [upstreamVisit_new hunfinished hget] at hvisit
        by_cases hwaits : s.Waits id
        · -- the dependencies come first, and then the id once more
          rw [if_pos hwaits, List.reverse_cons, List.append_assoc, List.singleton_append] at hvisit
          have hmeets : ∀ dep ∈ (s.depsOf id).reverse, ∀ table stack,
              Faithful value (id :: current) table →
              ∃ table', s.Loops (dep :: stack) table stack table' ∧
                s.Entered value (id :: current) [dep] table table' := by
            intro dep hdep table stack hfaithful
            have hdep := List.mem_reverse.mp hdep
            refine ih dep hdep hfaithful (fun _ => hquiet id hwaits dep hdep) ?_ stack
            intro other hleads hmem
            rcases List.mem_cons.mp hmem with rfl | hold
            · exact Grounded.not_leads (.intro other hbelow) hdep hleads
            · exact hclear other (hleads.head hdep) hold
          obtain ⟨middle, hmiddle, hentered⟩ := loops_all hmeets (h.descend id) (id :: stack)
          have hfaithful := hentered.faithful
          have hwaiting := hfaithful.waiting (List.mem_cons_self ..)
          have hne : s.depsOf id ≠ [] := by
            obtain ⟨ref, href, -, hne⟩ := hwaits
            rw [depsOf_eq href]
            exact hne
          have hworst : UpstreamStatus.worst
              ((s.depsOf id).map fun dep => middle.getD dep .none) = value id := by
            rw [hvalue.of_waits hwaits]
            congr 1
            apply List.map_congr_left
            intro dep hdep
            refine hfaithful.getD_eq hvalue (fun hmem => ?_)
              (hentered.entered dep (List.mem_reverse.mpr hdep))
            rcases List.mem_cons.mp hmem with rfl | hold
            · exact Grounded.not_leads (.intro dep hbelow) hdep .refl
            · exact hclear dep (.single hdep) hold
          have hlast := Loops.visit s id stack middle
          rw [upstreamVisit_again hunfinished hwaiting, if_pos ⟨rfl, hne⟩, hworst] at hlast
          refine ⟨middle.set id (value id), (hvisit.trans hmiddle).trans hlast,
            hfaithful.ascend hcurrent, fun other hother => ?_,
            fun other hother _ => List.mem_singleton.mp hother ▸ contains_set ..⟩
          exact tabulates_set middle id _ other
            (hentered.tabulates other (tabulates_set table id _ other hother))
        · rw [if_neg hwaits, ← hvalue.of_not_waits hwaits] at hvisit
          exact ⟨_, hvisit, h.set hcurrent, tabulates_set table id _,
            fun other hother _ => List.mem_singleton.mp hother ▸ contains_set ..⟩
  · rw [upstreamVisit_finished hunfinished] at hvisit
    exact ⟨table, hvisit, h, fun _ h => h,
      fun other hother h => absurd (List.mem_singleton.mp hother ▸ h) hunfinished⟩

/-! ## What any loop does -/

/-- A visit writes no other entry, and none that has a status already. -/
theorem upstreamVisit_get? (s : Scheduler) (id : StepId) (table : UpstreamTable) {other : StepId}
    (hother : other ≠ id ∨ ∃ status, table.get? other = some status ∧ status ≠ .none) :
    (s.upstreamVisit id table).2.get? other = table.get? other := by
  have hset : ∀ {status}, other ≠ id → (table.set id status).get? other = table.get? other :=
    fun hne => by rw [Dict.get?_set, if_neg hne]
  by_cases hunfinished : s.Unfinished id
  · cases hget : table.get? id with
    | none =>
        have hne : other ≠ id := by
          rcases hother with hne | ⟨status, hstatus, -⟩
          · exact hne
          · rintro rfl
            cases hget.symm.trans hstatus
        rw [upstreamVisit_new hunfinished hget]
        split <;> exact hset hne
    | some known =>
        rw [upstreamVisit_again hunfinished hget]
        split
        · next hagain =>
            obtain ⟨rfl, -⟩ := hagain
            refine hset ?_
            rcases hother with hne | ⟨status, hstatus, hnonempty⟩
            · exact hne
            · rintro rfl
              exact hnonempty (Option.some.inj (hstatus.symm.trans hget))
        · rfl
  · rw [upstreamVisit_finished hunfinished]

/-- The ids that a visit pushes lie below it. -/
theorem leads_of_mem_pushed {other : StepId} (hother : other ∈ (s.upstreamVisit id table).1) :
    Leads s.depsOf id other := by
  rcases (s.upstreamVisit_cases id table).2.2 with hnothing | ⟨ref, hget, -, hvisit⟩
  · rw [hnothing] at hother
    cases hother
  · rw [hvisit] at hother
    rcases List.mem_cons.mp hother with rfl | hdep
    · exact .refl
    · exact .single (depsOf_eq hget ▸ hdep)

/-- What every visit keeps holds when the loop ends. -/
theorem upstreamLoop_invariant (inv : List StepId → UpstreamTable → Prop)
    (hvisit : ∀ id stack table, inv (id :: stack) table →
      inv ((s.upstreamVisit id table).1.reverse ++ stack) (s.upstreamVisit id table).2)
    {fuel : ℕ} {last : UpstreamTable} (hloop : s.upstreamLoop fuel stack table = .ok last)
    (hinv : inv stack table) : inv [] last := by
  induction fuel generalizing stack table with
  | zero =>
      cases stack with
      | nil =>
          rw [upstreamLoop_nil] at hloop
          exact Except.ok.inj hloop ▸ hinv
      | cons id stack =>
          rw [upstreamLoop] at hloop
          cases hloop
  | succ fuel ih =>
      cases stack with
      | nil =>
          rw [upstreamLoop_nil] at hloop
          exact Except.ok.inj hloop ▸ hinv
      | cons id stack => exact ih hloop (hvisit id stack table hinv)

/-- A loop keeps the entries that have a status. -/
theorem upstreamLoop_keeps {fuel : ℕ} {last : UpstreamTable}
    (hloop : s.upstreamLoop fuel stack table = .ok last) {status : UpstreamStatus}
    (hget : table.get? id = some status) (hstatus : status ≠ .none) :
    last.get? id = some status :=
  upstreamLoop_invariant (fun _ table => table.get? id = some status)
    (fun first _ table hget =>
      (s.upstreamVisit_get? first table (.inr ⟨status, hget, hstatus⟩)).trans hget) hloop hget

/-- A loop enters only ids below its stack. -/
theorem upstreamLoop_enters {fuel : ℕ} {last : UpstreamTable}
    (hloop : s.upstreamLoop fuel stack table = .ok last) (hlast : last.contains id = true) :
    table.contains id = true ∨ ∃ root ∈ stack, Leads s.depsOf root id := by
  let below : StepId → Prop := fun other => ∃ root ∈ stack, Leads s.depsOf root other
  have hinv := upstreamLoop_invariant
    (fun now found => (∀ other ∈ now, below other) ∧
      ∀ other, found.contains other = true → table.contains other = true ∨ below other)
    (fun first rest found hinv => ?_) hloop
    ⟨fun other hother => ⟨other, hother, .refl⟩, fun other hother => .inl hother⟩
  · exact hinv.2 id hlast
  · obtain ⟨hstack, hfound⟩ := hinv
    obtain ⟨root, hroot, hfirst⟩ := hstack first (List.mem_cons_self ..)
    constructor
    · intro other hother
      rcases List.mem_append.mp hother with hpushed | hrest
      · exact ⟨root, hroot, hfirst.trans (leads_of_mem_pushed (List.mem_reverse.mp hpushed))⟩
      · exact hstack other (List.mem_cons_of_mem _ hrest)
    · intro other hother
      by_cases heq : other = first
      · exact .inr ⟨root, hroot, heq ▸ hfirst⟩
      · rw [Dict.contains, upstreamVisit_get? s first found (.inl heq)] at hother
        exact hfound other hother

/-- An entry that comes up again while a dependency has a status gets one too. -/
theorem upstreamLoop_again {fuel : ℕ} {last : UpstreamTable} {dep : StepId}
    {status : UpstreamStatus} (hloop : s.upstreamLoop fuel stack table = .ok last)
    (hid : id ∈ stack) (hunfinished : s.Unfinished id) (hcontains : table.contains id = true)
    (hdep : dep ∈ s.depsOf id) (hget : table.get? dep = some status) (hstatus : status ≠ .none) :
    ∃ now, last.get? id = some now ∧ now ≠ .none := by
  have hinv := upstreamLoop_invariant
    (fun stack found => found.get? dep = some status ∧
      ((id ∈ stack ∧ found.contains id = true) ∨ ∃ now, found.get? id = some now ∧ now ≠ .none))
    (fun first rest found hinv => ?_) hloop ⟨hget, .inl ⟨hid, hcontains⟩⟩
  · rcases hinv.2 with ⟨hnil, -⟩ | hnow
    · cases hnil
    · exact hnow
  · obtain ⟨hdepGet, hnow⟩ := hinv
    refine ⟨(s.upstreamVisit_get? first found (.inr ⟨status, hdepGet, hstatus⟩)).trans hdepGet, ?_⟩
    rcases hnow with ⟨hmem, hcontains⟩ | ⟨now, hnow, hne⟩
    · by_cases heq : id = first
      · right
        subst heq
        obtain ⟨known, hknown⟩ := (found.contains_iff id).mp hcontains
        rw [upstreamVisit_again hunfinished hknown]
        split
        · refine ⟨_, by rw [Dict.get?_set, if_pos rfl], fun hworst => hstatus ?_⟩
          have hvalue := UpstreamStatus.worst_eq_none.mp hworst _ (List.mem_map_of_mem hdep)
          rwa [Dict.getD, hdepGet] at hvalue
        · next hagain =>
            exact ⟨known, hknown, fun hnone => hagain ⟨hnone, List.ne_nil_of_mem hdep⟩⟩
      · left
        refine ⟨List.mem_append_right _ ((List.mem_cons.mp hmem).resolve_left heq), ?_⟩
        rw [Dict.contains, upstreamVisit_get? s first found (.inl heq)]
        exact hcontains
    · right
      exact ⟨now, (s.upstreamVisit_get? first found (.inr ⟨now, hnow, hne⟩)).trans hnow, hne⟩

end Loop

/-! ## Queries -/

/-- Queries that share one table. -/
def upstreamAnswers (s : Scheduler) :
    List StepId → UpstreamTable → Except Raised (List (Option UpstreamStatus))
  | [], _ => .ok []
  | id :: queries, table =>
    match s.upstreamStatus id table with
    | .error raised => .error raised
    | .ok (answer, table) => (s.upstreamAnswers queries table).map (answer :: ·)

section Queries

variable {s : Scheduler} {id : StepId} {value : StepId → UpstreamStatus}
  {queries : List StepId} {table last : UpstreamTable} {answer : Option UpstreamStatus}

theorem Unfinished.isDone (hunfinished : s.Unfinished id) : s.isDone id = false := by
  obtain ⟨ref, hget, hstatus⟩ := hunfinished
  rw [Scheduler.isDone, hget]
  exact beq_eq_false_iff_ne.mpr hstatus

/-- Every query ends, on graphs with cycles too. -/
theorem upstreamAnswers_ok (hqueries : ∀ id ∈ queries, s.Unfinished id) (table : UpstreamTable) :
    ∃ answers, s.upstreamAnswers queries table = .ok answers := by
  induction queries generalizing table with
  | nil => exact ⟨[], rfl⟩
  | cons id queries ih =>
      obtain ⟨hid, hqueries⟩ := List.forall_mem_cons.mp hqueries
      obtain ⟨⟨answer, last⟩, hanswer⟩ := s.upstreamStatus_spec table hid.isDone
      obtain ⟨answers, hanswers⟩ := ih hqueries last
      refine ⟨answer :: answers, ?_⟩
      rw [upstreamAnswers, hanswer]
      dsimp only
      rw [hanswers]
      rfl

/-- The answer is read from the table, after a loop where the id was not in it. -/
theorem upstreamStatus_cases (hunfinished : s.Unfinished id)
    (hanswer : s.upstreamStatus id table = .ok (answer, last)) :
    answer = last.get? id ∧ answer.isSome = true ∧
      ((last = table ∧ table.contains id = true) ∨
        (table.get? id = none ∧ s.upstreamLoop s.upstreamBound [id] table = .ok last)) := by
  obtain ⟨ref, hget, -⟩ := hunfinished
  rw [upstreamStatus] at hanswer
  cases hknown : table.get? id with
  | some status =>
      rw [hknown] at hanswer
      obtain ⟨rfl, rfl⟩ := Prod.mk.inj (Except.ok.inj hanswer)
      exact ⟨hknown.symm, rfl, .inl ⟨rfl, by rw [Dict.contains, hknown, Option.isSome_some]⟩⟩
  | none =>
      rw [hknown, hget] at hanswer
      dsimp only at hanswer
      cases hloop : s.upstreamLoop s.upstreamBound [id] table with
      | error raised =>
          rw [hloop] at hanswer
          cases hanswer
      | ok found =>
          rw [hloop] at hanswer
          dsimp only at hanswer
          cases hfound : found.get? id with
          | none =>
              rw [hfound] at hanswer
              cases hanswer
          | some status =>
              rw [hfound] at hanswer
              obtain ⟨rfl, rfl⟩ := Prod.mk.inj (Except.ok.inj hanswer)
              exact ⟨hfound.symm, rfl, .inr ⟨rfl, rfl⟩⟩

/-- A query is answered with the value. -/
theorem Faithful.query (h : Faithful value [] table) (hvalue : s.IsUpstream value)
    (hquiet : ∀ id, s.Waits id → ∀ dep ∈ s.depsOf id, s.Quiet value dep)
    (hgrounded : Grounded s.depsOf id) (hunfinished : s.Unfinished id)
    (hanswer : s.upstreamStatus id table = .ok (answer, last)) :
    answer = some (value id) ∧ Faithful value [] last := by
  obtain ⟨hread, hsome, hlast⟩ := upstreamStatus_cases hunfinished hanswer
  have hfaithful : Faithful value [] last := by
    rcases hlast with ⟨rfl, -⟩ | ⟨hnew, hloop⟩
    · exact h
    · have hself : table.contains id = true → s.Quiet value id := by
        intro hcontains
        rw [Dict.contains, hnew] at hcontains
        cases hcontains
      obtain ⟨found, hfound, hentered⟩ := h.loops hvalue hquiet hgrounded hself
        (fun _ _ => List.not_mem_nil) []
      rw [hfound.finish hloop]
      exact hentered.faithful
  obtain ⟨status, rfl⟩ := Option.isSome_iff_exists.mp hsome
  exact ⟨congrArg some (hfaithful.known hread.symm List.not_mem_nil), hfaithful⟩

theorem Faithful.query_all (h : Faithful value [] table) (hvalue : s.IsUpstream value)
    (hquiet : ∀ id, s.Waits id → ∀ dep ∈ s.depsOf id, s.Quiet value dep)
    (hacyclic : Acyclic s.depsOf) (hqueries : ∀ id ∈ queries, s.Unfinished id) :
    s.upstreamAnswers queries table = .ok (queries.map fun id => some (value id)) := by
  induction queries generalizing table with
  | nil => rfl
  | cons id queries ih =>
      obtain ⟨hid, hqueries⟩ := List.forall_mem_cons.mp hqueries
      obtain ⟨⟨answer, last⟩, hanswer⟩ := s.upstreamStatus_spec table hid.isDone
      obtain ⟨rfl, hlast⟩ := h.query hvalue hquiet (grounded_depsOf hacyclic id) hid hanswer
      rw [upstreamAnswers, hanswer]
      dsimp only
      rw [ih hlast hqueries]
      rfl

/-- The first of the answers, and the others from the table that it leaves. -/
theorem upstreamAnswers_cons {answers : List (Option UpstreamStatus)}
    (hanswers : s.upstreamAnswers (id :: queries) table = .ok (answer :: answers)) :
    ∃ last, s.upstreamStatus id table = .ok (answer, last) ∧
      s.upstreamAnswers queries last = .ok answers := by
  rw [upstreamAnswers] at hanswers
  cases hanswer : s.upstreamStatus id table with
  | error raised =>
      rw [hanswer] at hanswers
      cases hanswers
  | ok found =>
      obtain ⟨first, last⟩ := found
      rw [hanswer] at hanswers
      dsimp only at hanswers
      cases hrest : s.upstreamAnswers queries last with
      | error raised =>
          rw [hrest] at hanswers
          cases hanswers
      | ok rest =>
          rw [hrest] at hanswers
          obtain ⟨rfl, rfl⟩ := List.cons.inj (Except.ok.inj hanswers)
          exact ⟨last, rfl, hrest⟩

/-- A query keeps the entries that have a status, and enters only what is below it. -/
theorem upstreamStatus_frame {other : StepId} (hunfinished : s.Unfinished id)
    (hanswer : s.upstreamStatus id table = .ok (answer, last)) :
    (∀ status, table.get? other = some status → status ≠ .none →
      last.get? other = some status) ∧
    (last.contains other = true → table.contains other = true ∨ Leads s.depsOf id other) := by
  obtain ⟨-, -, ⟨rfl, -⟩ | ⟨-, hloop⟩⟩ := upstreamStatus_cases hunfinished hanswer
  · exact ⟨fun _ h _ => h, .inl⟩
  · refine ⟨fun status hget hne => upstreamLoop_keeps hloop hget hne, fun hlast => ?_⟩
    rcases upstreamLoop_enters hloop hlast with hold | ⟨root, hroot, hleads⟩
    · exact .inl hold
    · exact .inr (List.mem_singleton.mp hroot ▸ hleads)

/-- Behind a detour the `UNKNOWN` step is answered in two ways. -/
theorem NoDetour.of_answers (hvalue : s.IsUpstream value) (hacyclic : Acyclic s.depsOf)
    (hanswers : ∀ queries, (∀ id ∈ queries, s.Unfinished id) →
      s.upstreamAnswers queries ∅ = .ok (queries.map fun id => some (value id))) :
    s.NoDetour := by
  intro id hwaits dep hdep hsilent other hother hblocked
  have hstatus := (hvalue.ne_none_iff (grounded_depsOf hacyclic other)).mpr hblocked
  have hunfinished : s.Unfinished other := by
    by_contra hfinished
    exact hstatus (hvalue.eq_none hfinished)
  -- the dependency of the `UNKNOWN` step first, then the step, what waits for it, and it again
  have hrun := hanswers [other, dep, id, dep] (by
    simp only [List.forall_mem_cons, List.not_mem_nil, false_implies, implies_true, and_true]
    exact ⟨hunfinished, hsilent.1, hwaits.unfinished, hsilent.1⟩)
  obtain ⟨first, hfirst, hrun⟩ := upstreamAnswers_cons hrun
  obtain ⟨second, hsecond, hrun⟩ := upstreamAnswers_cons hrun
  obtain ⟨third, hthird, hrun⟩ := upstreamAnswers_cons hrun
  obtain ⟨fourth, hfourth, -⟩ := upstreamAnswers_cons hrun
  have hother₁ : first.get? other = some (value other) :=
    (upstreamStatus_cases hunfinished hfirst).1.symm
  have hother₂ : second.get? other = some (value other) :=
    (upstreamStatus_frame hsilent.1 hsecond).1 _ hother₁ hstatus
  have hdep₂ : second.get? dep = some (value dep) :=
    (upstreamStatus_cases hsilent.1 hsecond).1.symm
  -- nothing below the two leads back to what waits
  have hnew : second.contains id ≠ true := by
    intro hcontains
    rcases (upstreamStatus_frame hsilent.1 hsecond).2 hcontains with hold | hleads
    · rcases (upstreamStatus_frame hunfinished hfirst).2 hold with hempty | hleads
      · cases hempty
      · exact hacyclic id (.head' hdep (.head hother hleads))
    · exact hacyclic id (.head' hdep hleads)
  obtain ⟨-, -, ⟨-, hcontains⟩ | ⟨hget, hloop⟩⟩ := upstreamStatus_cases hwaits.unfinished hthird
  · exact hnew hcontains
  · have hne : other ≠ id := by
      rintro rfl
      exact hacyclic other (.head' hdep (.single hother))
    have hneDep : dep ≠ id := by
      rintro rfl
      exact hacyclic dep (.single hdep)
    obtain ⟨fuel, hfuel⟩ : ∃ fuel, s.upstreamBound = fuel + 1 :=
      ⟨_, Nat.add_comm ..⟩
    rw [hfuel] at hloop
    have hvisit := upstreamVisit_new hwaits.unfinished hget
    rw [if_pos hwaits] at hvisit
    have hrest : s.upstreamLoop fuel ((s.upstreamVisit id second).1.reverse ++ [])
        (s.upstreamVisit id second).2 = .ok third := hloop
    rw [hvisit] at hrest
    obtain ⟨now, hnow, hnowNe⟩ := upstreamLoop_again hrest
      (List.mem_append_left _ (List.mem_reverse.mpr (List.mem_cons_of_mem _ hdep))) hsilent.1
      (by rw [Dict.contains, Dict.get?_set, if_neg hneDep, hdep₂, Option.isSome_some]) hother
      (by rw [Dict.get?_set, if_neg hne]; exact hother₂) hstatus
    have hlast := (upstreamStatus_frame hsilent.1 hfourth).1 now hnow hnowNe
    rw [← (upstreamStatus_cases hsilent.1 hfourth).1] at hlast
    exact hnowNe ((Option.some.inj hlast).symm.trans (hvalue.eq_none_of_silent hsilent))

/-- Every query ends.  On a graph without cycles the answers follow the recursive definition,
whatever was asked before, where no step waits for an `UNKNOWN` one with a blocked dependency. -/
theorem upstreamAnswers_agree_iff (s : Scheduler) :
    (∀ queries, (∀ id ∈ queries, s.Unfinished id) →
      ∃ answers, s.upstreamAnswers queries ∅ = .ok answers) ∧
    (Acyclic s.depsOf →
      ((∃ value, s.IsUpstream value ∧ ∀ queries, (∀ id ∈ queries, s.Unfinished id) →
        s.upstreamAnswers queries ∅ = .ok (queries.map fun id => some (value id))) ↔
      s.NoDetour)) := by
  refine ⟨fun queries hqueries => upstreamAnswers_ok hqueries ∅, fun hacyclic => ⟨?_, ?_⟩⟩
  · rintro ⟨value, hvalue, hanswers⟩
    exact .of_answers hvalue hacyclic hanswers
  · intro hdetour
    obtain ⟨value, hvalue⟩ := exists_isUpstream hacyclic
    have hquiet : ∀ id, s.Waits id → ∀ dep ∈ s.depsOf id, s.Quiet value dep := by
      intro id hwaits dep hdep hsilent other hother
      by_contra hne
      exact hdetour id hwaits dep hdep hsilent other hother
        ((hvalue.ne_none_iff (grounded_depsOf hacyclic other)).mp hne)
    have hempty : Faithful value [] ∅ := ⟨fun hget => (by cases hget), fun hmem => (by cases hmem)⟩
    exact ⟨value, hvalue, fun queries hqueries =>
      hempty.query_all hvalue hquiet hacyclic hqueries⟩

end Queries

/-- Only keys have dependencies. -/
theorem acyclic_of_rank {s : Scheduler} (rank : StepId → ℕ)
    (hrank : ∀ x ∈ s.steps.keys, ∀ y ∈ s.depsOf x, rank y < rank x) : Acyclic s.depsOf := by
  apply Acyclic.of_rank rank
  intro x y hy
  refine hrank x ?_ y hy
  rw [s.steps.mem_keys_iff]
  cases hget : s.getStep x with
  | none =>
      rw [depsOf, hget] at hy
      cases hy
  | some ref => exact ⟨ref, hget⟩

end Scheduler

open Scheduler

/-- A step waits for another one. -/
def waitingRun : List Event :=
  [ requestAt 1 (schedules firstWorker "b"),
    requestAt 2 (.addStep { worker := firstWorker, stepId := "a", deps := some ["b"] }) ]

theorem waiting_run_agrees :
    ∃ value, (defaultEnv.run (.initial ∅) waitingRun).IsUpstream value ∧
      ∀ queries, (∀ id ∈ queries, (defaultEnv.run (.initial ∅) waitingRun).Unfinished id) →
        (defaultEnv.run (.initial ∅) waitingRun).upstreamAnswers queries ∅ =
          .ok (queries.map fun id => some (value id)) := by
  refine ((defaultEnv.run (.initial ∅) waitingRun).upstreamAnswers_agree_iff.2
    (acyclic_of_rank (fun id => if id = "a" then 1 else 0) (by decide +kernel))).mpr ?_
  have hown : ∀ id ∈ (defaultEnv.run (.initial ∅) waitingRun).steps.keys,
      (defaultEnv.run (.initial ∅) waitingRun).ownUpstream id ≠ .none := by decide +kernel
  rintro id - dep - ⟨⟨ref, hget, -⟩, hsilent⟩
  exact absurd hsilent (hown dep ((Dict.mem_keys_iff ..).mpr ⟨ref, hget⟩))

/-- The scheduling of a step fails after it was told its dependency. -/
def detourRun : List Event :=
  [ requestAt 1 (schedules firstWorker "d"),
    requestAt 2 (.addStep { worker := firstWorker, stepId := "s", deps := some ["d"] }),
    requestAt 3 (.addStep { worker := secondWorker, stepId := "s", status := .unknown }),
    requestAt 4 (.addStep { worker := firstWorker, stepId := "a", deps := some ["s"] }) ]

/-- The same query has two answers. -/
theorem detour_answers_twice :
    Timely detourRun ∧ Acyclic (defaultEnv.run (.initial ∅) detourRun).depsOf ∧
      ¬∃ value, (defaultEnv.run (.initial ∅) detourRun).IsUpstream value ∧
        ∀ queries, (∀ id ∈ queries, (defaultEnv.run (.initial ∅) detourRun).Unfinished id) →
          (defaultEnv.run (.initial ∅) detourRun).upstreamAnswers queries ∅ =
            .ok (queries.map fun id => some (value id)) := by
  have hacyclic : Acyclic (defaultEnv.run (.initial ∅) detourRun).depsOf :=
    acyclic_of_rank (fun id => if id = "a" then 2 else if id = "s" then 1 else 0)
      (by decide +kernel)
  refine ⟨by decide, hacyclic, ?_⟩
  rintro ⟨value, -, hanswers⟩
  have hunfinished : ∀ id ∈ ["d", "s", "a", "s"],
      (defaultEnv.run (.initial ∅) detourRun).isDone id = false ∧
        ((defaultEnv.run (.initial ∅) detourRun).getStep id).isSome = true := by decide +kernel
  have hrun : (defaultEnv.run (.initial ∅) detourRun).upstreamAnswers ["d", "s", "a", "s"] ∅ =
      .ok [some .missingInput, some .none, some .missingInput, some .missingInput] := by
    decide +kernel
  have hlist := hrun.symm.trans (hanswers ["d", "s", "a", "s"] fun id hid => by
    obtain ⟨hdone, hlive⟩ := hunfinished id hid
    obtain ⟨ref, hget⟩ := Option.isSome_iff_exists.mp hlive
    rw [isDone, hget] at hdone
    exact ⟨ref, hget, beq_eq_false_iff_ne.mp hdone⟩)
  simp only [List.map_cons, List.map_nil, Except.ok.injEq, List.cons.injEq,
    Option.some.injEq] at hlist
  obtain ⟨-, hfirst, -, hsecond, -⟩ := hlist
  cases hfirst.trans hsecond.symm

end Trun
