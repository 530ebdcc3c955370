import Trun.Scheduler.Crew

/-!
# Lost replies

A reply that gets lost leaves a step that runs for a worker without its knowledge.  Since
`get_work` looks for such a step first, as many later answers as replies were lost make the
worker's knowledge complete again.
-/

namespace Trun

open Program Scheduler

/-- A reply to the worker's `get_work` gets lost. -/
def Turn.loses (worker : WorkerId) (turn : Turn) : Bool :=
  match turn.event.request with
  | .getWork args => !turn.answered && args.worker == worker
  | _ => false

def lostReplies (worker : WorkerId) (turns : List Turn) : ℕ := turns.countP (Turn.loses worker)

namespace Crew

/-- The worker, which is not disabled, asks for work, names just the steps that it holds, and
gets an answer. -/
def AsksAgain (env : Env) (worker : WorkerId) (crew : Crew) (turn : Turn) : Prop :=
  match turn.event.request with
  | .getWork args =>
      args.worker = worker ∧ turn.answered = true ∧
        (∃ ids ∈ args.currentSteps, ∀ id ∈ ids, (worker, id) ∈ crew.held) ∧
        ((env.received crew.scheduler turn.event.moment args).workerAt worker).enabled = true ∧
        (env.outcome crew.scheduler turn.event).isOk = true
  | _ => False

instance (env : Env) (worker : WorkerId) (crew : Crew) (turn : Turn) :
    Decidable (AsksAgain env worker crew turn) := by
  obtain ⟨⟨moment, request⟩, answered⟩ := turn
  induction request using Request.casesOn <;> dsimp only [AsksAgain] <;> infer_instance

/-- How often the worker does so. -/
def timesAsked (env : Env) (worker : WorkerId) : Crew → List Turn → ℕ
  | _, [] => 0
  | crew, turn :: rest =>
      (if AsksAgain env worker crew turn then 1 else 0) +
        timesAsked env worker (crew.after env turn) rest

/-- Everything that runs for the worker is held or missing. -/
def Misses (worker : WorkerId) (missing : Finset StepId) (crew : Crew) : Prop :=
  ∀ id, crew.scheduler.RunsFor id worker → (worker, id) ∈ crew.held ∨ id ∈ missing

variable {env : Env} {assistants : WorkerId → Bool} {crew : Crew} {turn : Turn}
variable {worker : WorkerId} {id : StepId} {missing : Finset StepId}

/-- One request hands out one step. -/
theorem HandsTo.unique {s : Scheduler} {event : Event} {other : StepId}
    (hhanded : HandsTo env s event worker id) (hother : HandsTo env s event worker other) :
    id = other := by
  revert hhanded hother
  unfold HandsTo
  split
  · rintro ⟨hid, -⟩ ⟨hother, -⟩
    exact Option.some.inj (hid.symm.trans hother)
  · exact fun h => h.elim

/-- What is held stays held if it runs on without a report. -/
theorem held_after (hheld : (worker, id) ∈ crew.held)
    (hends : ¬Ends turn.event.request worker id) : (worker, id) ∈ (crew.after env turn).held :=
  mem_holdings.mpr (.inl ⟨hheld, hends⟩)

theorem handed_held (hanswered : turn.answered = true)
    (hhanded : HandsTo env crew.scheduler turn.event worker id) :
    (worker, id) ∈ (crew.after env turn).held :=
  mem_holdings.mpr (.inr ⟨hanswered, hhanded⟩)

/-- A step is missed only where a reply gets lost. -/
theorem loses_of_handsTo (hhanded : HandsTo env crew.scheduler turn.event worker id)
    (hlost : turn.answered = false) : turn.loses worker = true := by
  obtain ⟨⟨moment, request⟩, answered⟩ := turn
  cases request with
  | getWork args =>
      obtain ⟨-, hworker⟩ := hhanded
      dsimp only at hlost
      simp only [Turn.loses, hlost, hworker, beq_self_eq_true, Bool.not_false, Bool.and_self]
  | _ => exact hhanded.elim

section Turns

variable (horderly : crew.Orderly assistants) (hfollows : crew.Follows env assistants turn)
variable (hmisses : crew.Misses worker missing)
include horderly hfollows hmisses

/-- What runs after a turn ran before, and was held or missing, or the turn hands it out. -/
theorem Misses.held_or_handed (hruns : (crew.after env turn).scheduler.RunsFor id worker) :
    ((worker, id) ∈ (crew.after env turn).held ∨ id ∈ missing) ∨
      HandsTo env crew.scheduler turn.event worker id := by
  rcases (horderly.course hfollows).started hruns with ⟨hran, hends⟩ | hhanded
  · exact .inl ((hmisses id hran).imp_left fun hheld => held_after hheld hends)
  · exact .inr hhanded

theorem Misses.kept (hloses : turn.loses worker = false) :
    (crew.after env turn).Misses worker missing := by
  intro id hruns
  rcases hmisses.held_or_handed horderly hfollows hruns with hstill | hhanded
  · exact hstill
  · cases hanswered : turn.answered with
    | true => exact .inl (handed_held hanswered hhanded)
    | false =>
        rw [loses_of_handsTo hhanded hanswered] at hloses
        cases hloses

/-- A reply that gets lost adds one step at most. -/
theorem Misses.grows : ∃ later : Finset StepId, later.card ≤ missing.card + 1 ∧
    (crew.after env turn).Misses worker later := by
  by_cases hhands : ∃ id, HandsTo env crew.scheduler turn.event worker id
  · obtain ⟨handed, hhanded⟩ := hhands
    refine ⟨insert handed missing, Finset.card_insert_le .., fun id hruns => ?_⟩
    rw [Finset.mem_insert]
    rcases hmisses.held_or_handed horderly hfollows hruns with hstill | hother
    · exact hstill.imp_right .inr
    · exact .inr (.inl (hother.unique hhanded))
  · refine ⟨missing, Nat.le_succ _, fun id hruns => ?_⟩
    rcases hmisses.held_or_handed horderly hfollows hruns with hstill | hhanded
    · exact hstill
    · exact absurd ⟨id, hhanded⟩ hhands

/-- An answer gives the worker a step that it misses, if there is one. -/
theorem Misses.shrinks (hasks : AsksAgain env worker crew turn) :
    ∃ later : Finset StepId, later.card ≤ missing.card - 1 ∧
      (crew.after env turn).Misses worker later := by
  obtain ⟨⟨moment, request⟩, answered⟩ := turn
  cases request with
  | getWork args =>
      obtain ⟨hworker, hanswered, ⟨known, hknown, hheld⟩, henabled, hanswer⟩ := hasks
      obtain ⟨hassistant, hbatcher, htells, -⟩ := hfollows
      dsimp only at hworker hanswered henabled hanswer
      subst hworker
      have hordered := horderly.ordered
      have hafter : ∀ id, (env.after crew.scheduler ⟨moment, .getWork args⟩).RunsFor id
          args.worker → (env.received crew.scheduler moment args).RunsFor id args.worker ∨
            (args.worker, id) ∈ (crew.after env ⟨⟨moment, .getWork args⟩, answered⟩).held := by
        intro id hruns
        refine (hordered.runsFor_getWork hassistant hbatcher hruns).imp_right fun hhanded => ?_
        exact handed_held hanswered ⟨hhanded.1, rfl⟩
      by_cases hunknown : ∃ id, (env.received crew.scheduler moment args).RunsFor id args.worker ∧
          id ∉ known
      · obtain ⟨id, hruns, hnot⟩ := hunknown
        obtain ⟨found, hhanded, hfound, hmissing⟩ := hordered.getWork_recovers hassistant hbatcher
          henabled hanswer hknown hruns hnot
        have hmember : found ∈ missing :=
          (hmisses found (runsFor_of_received hordered.sound hfound)).resolve_left
            fun h => hmissing (htells _ h rfl known hknown)
        refine ⟨missing.erase found, (Finset.card_erase_of_mem hmember).le, fun other hother => ?_⟩
        by_cases hsame : other = found
        · rw [hsame]
          exact .inl (handed_held hanswered ⟨hhanded, rfl⟩)
        · rcases hafter other hother with hran | hnow
          · rcases hmisses other (runsFor_of_received hordered.sound hran) with h | h
            · exact .inl (held_after h fun hends => hends)
            · exact .inr (Finset.mem_erase.mpr ⟨hsame, h⟩)
          · exact .inl hnow
      · refine ⟨∅, Nat.zero_le _, fun id hruns => .inl ?_⟩
        rcases hafter id hruns with hran | hnow
        · have hnamed : id ∈ known := by
            by_contra hnot
            exact hunknown ⟨id, hran, hnot⟩
          exact held_after (hheld id hnamed) fun hends => hends
        · exact hnow
  | _ => exact hasks.elim

end Turns

section Runs

variable {resources : Resources} {turns later : List Turn}

theorem misses_run (horderly : crew.Orderly assistants) (hmisses : crew.Misses worker missing)
    (hfollows : Along (after env) (Follows env assistants) crew turns) :
    ∃ rest : Finset StepId, rest.card ≤ missing.card + lostReplies worker turns ∧
      (runAll (after env) crew turns).Misses worker rest := by
  induction turns generalizing crew missing with
  | nil => exact ⟨missing, Nat.le_add_right _ _, hmisses⟩
  | cons turn turns ih =>
      obtain ⟨hturn, hturns⟩ := hfollows
      rw [lostReplies, List.countP_cons]
      cases hloses : turn.loses worker with
      | false =>
          obtain ⟨rest, hcard, hrest⟩ :=
            ih (horderly.after hturn) (hmisses.kept horderly hturn hloses) hturns
          exact ⟨rest, hcard, hrest⟩
      | true =>
          obtain ⟨grown, hgrown, hnow⟩ := hmisses.grows horderly hturn
          obtain ⟨rest, hcard, hrest⟩ := ih (horderly.after hturn) hnow hturns
          refine ⟨rest, ?_, hrest⟩
          rw [if_pos rfl]
          unfold lostReplies at hcard
          omega

/-- Without further losses each answer makes good one of them. -/
theorem misses_asked (horderly : crew.Orderly assistants) (hmisses : crew.Misses worker missing)
    (hfollows : Along (after env) (Follows env assistants) crew turns)
    (hloses : ∀ turn ∈ turns, turn.loses worker = false) :
    ∃ rest : Finset StepId, rest.card ≤ missing.card - timesAsked env worker crew turns ∧
      (runAll (after env) crew turns).Misses worker rest := by
  induction turns generalizing crew missing with
  | nil => exact ⟨missing, Nat.le_refl _, hmisses⟩
  | cons turn turns ih =>
      obtain ⟨hturn, hturns⟩ := hfollows
      obtain ⟨hfirst, hothers⟩ := List.forall_mem_cons.mp hloses
      unfold timesAsked
      split
      · rename_i hasks
        obtain ⟨fewer, hfewer, hnow⟩ := hmisses.shrinks horderly hturn hasks
        obtain ⟨rest, hcard, hrest⟩ := ih (horderly.after hturn) hnow hturns hothers
        exact ⟨rest, by omega, hrest⟩
      · obtain ⟨rest, hcard, hrest⟩ :=
          ih (horderly.after hturn) (hmisses.kept horderly hturn hfirst) hturns hothers
        exact ⟨rest, by omega, hrest⟩

/-- A worker that has asked, since the last loss, as often as replies to it were lost holds
exactly the steps that run under its name. -/
theorem lost_replies_are_made_good
    (hfollows : Along (after env) (Follows env assistants) (start resources) (turns ++ later))
    (hloses : ∀ turn ∈ later, turn.loses worker = false)
    (hoften : lostReplies worker turns ≤
      timesAsked env worker (runAll (after env) (start resources) turns) later) (id : StepId) :
    (worker, id) ∈ (runAll (after env) (start resources) (turns ++ later)).held ↔
      (runAll (after env) (start resources) (turns ++ later)).scheduler.RunsFor id worker := by
  refine ⟨(run_orderly hfollows).backed, fun hruns => ?_⟩
  obtain ⟨hturns, hlater⟩ := (along_append turns later).mp hfollows
  have hstart : (start resources).Misses worker ∅ := by
    rintro id ⟨ref, hget, -⟩
    cases hget
  obtain ⟨missing, hmissing, hmisses⟩ :=
    misses_run (start_orderly assistants resources) hstart hturns
  obtain ⟨rest, hcard, hrest⟩ := misses_asked (run_orderly hturns) hmisses hlater hloses
  have hnone : rest = ∅ := by
    apply Finset.card_eq_zero.mp
    rw [Finset.card_empty] at hmissing
    omega
  rw [runAll_append] at hruns ⊢
  rcases hrest id hruns with hheld | hmember
  · exact hheld
  · rw [hnone] at hmember
    cases hmember

end Runs

end Crew

/-- The turns up to the lost reply, and those after it. -/
theorem lost_replies_are_made_good_sharing :
    (secondWorker, "b") ∈ (runAll (Crew.after defaultEnv) (Crew.start ∅)
        (sharingTurns.take 5 ++ sharingTurns.drop 5)).held ↔
      (runAll (Crew.after defaultEnv) (Crew.start ∅)
        (sharingTurns.take 5 ++ sharingTurns.drop 5)).scheduler.RunsFor "b" secondWorker :=
  @Crew.lost_replies_are_made_good defaultEnv (fun _ => false) secondWorker ∅
    (sharingTurns.take 5) (sharingTurns.drop 5) (by decide +kernel) (by decide +kernel)
    (by decide +kernel) "b"

end Trun
