import Trun.Scheduler.Allocation
import Trun.Scheduler.Greedy

/-!
# The batches of `get_work`

Below the step that it has chosen, the ranked loop collects the steps that may
run in one batch with it.  The members and the lists of their parameters grow
side by side, up to the size that the worker announced.
-/

namespace Trun

open Program

/-- The combined parameters: the batched ones as lists, the others as they are. -/
theorem get?_combineParams (params : Params) (batched : Dict String (List (Option String)))
    (name : String) :
    (combineParams params batched).get? name =
      ((batched.get? name).map .batched <|> (params.get? name).map .single) := by
  unfold combineParams
  rw [Dict.get?_foldl_set_entries, Dict.get?_foldl_set_entries]
  cases params.get? name <;> rfl

namespace Scheduler

variable (s : Scheduler)

/-- The step may run in one batch with `best`, whose members differ in the named parameters. -/
def Joins (names : List String) (best ref : Ref) : Prop :=
  s.Ready ref ∧ (s.stepAt ref).batchable = true ∧
    (s.stepAt ref).family = (s.stepAt best).family ∧
    (s.stepAt ref).resources.sameItems (s.stepAt best).resources = true ∧
    ∀ entry ∈ (s.stepAt best).params.entries, entry.1 ∉ names →
      (s.stepAt ref).params.get? entry.1 = some entry.2

instance (names : List String) (best ref : Ref) : Decidable (s.Joins names best ref) := by
  unfold Joins; infer_instance

/-- As many steps as there is room for beside `size` others. -/
def fillUp (size : ℕ) (bound : Option ℕ) (refs : List Ref) : List Ref :=
  match bound with
  | none => refs
  | some bound => refs.take (bound - size)

/-- The chosen step, with the first ones below it that may join. -/
def batchOf (batcher : Batcher) (best : Ref) (below : List Ref) : List Ref :=
  best :: fillUp 1 batcher.maxBatchSize
    (below.filter fun ref => s.Joins batcher.batchedArgs best ref)

theorem fillUp_nil (size : ℕ) (bound : Option ℕ) : fillUp size bound [] = [] := by
  cases bound <;> simp [fillUp]

theorem fillUp_cons (size : ℕ) (bound : Option ℕ) (ref : Ref) (refs : List Ref) :
    fillUp size bound (ref :: refs) =
      if fitsBatch size bound then ref :: fillUp (size + 1) bound refs else [] := by
  cases bound with
  | none => rfl
  | some bound =>
      by_cases hfits : size < bound
      · have hroom : bound - size = (bound - (size + 1)) + 1 := by omega
        simp only [fillUp, fitsBatch, hfits, decide_true, if_true]
        rw [hroom, List.take_succ_cons]
      · have hroom : bound - size = 0 := by omega
        simp [fillUp, fitsBatch, hfits, hroom]

theorem fillUp_sublist (size : ℕ) (bound : Option ℕ) (refs : List Ref) :
    (fillUp size bound refs).Sublist refs := by
  cases bound with
  | none => exact .refl refs
  | some bound => exact List.take_sublist ..

/-- Where one step does not fit, no other does. -/
theorem fillUp_of_full {size : ℕ} {bound : Option ℕ} (hfull : fitsBatch size bound = false)
    (refs : List Ref) : fillUp size bound refs = [] := by
  cases refs with
  | nil => exact fillUp_nil ..
  | cons ref refs => rw [fillUp_cons, hfull, if_neg Bool.false_ne_true]

/-- The local variables of the loop stand for a batch with these members. -/
structure Batches (batcher : Batcher) (best : Ref) (members : List Ref) (selection : Selection) :
    Prop where
  chosen : selection.bestStep = some best
  size : selection.maxBatchSize = batcher.maxBatchSize
  unbatched : ∀ entry, entry ∈ selection.unbatchedParams.entries ↔
    entry ∈ (s.stepAt best).params.entries ∧ entry.1 ∉ batcher.batchedArgs
  steps : selection.batchedSteps = members
  params : ∃ batched, selection.batchedParams = some batched ∧ ∀ name, batched.get? name =
    if name ∈ batcher.batchedArgs then
      some (members.map fun ref => (s.stepAt ref).params.get? name)
    else none

variable {s} {args : GetWorkArgs} {batcher : Batcher} {best : Ref} {members : List Ref}
variable {selection : Selection}

/-- The chosen step opens a batch. -/
theorem Batches.choose (hbatcher : s.getBatcher args.worker (s.stepAt best).family = batcher)
    (hbatchable : (s.stepAt best).batchable = true) (hnames : batcher.batchedArgs ≠ [])
    (hparams : ∀ name ∈ batcher.batchedArgs, (s.stepAt best).params.contains name = true)
    (hidle : selection.batchedSteps = []) :
    s.Batches batcher best [best] (s.chooseStep args selection best) := by
  have hopens : (!batcher.batchedArgs.isEmpty && (s.stepAt best).batchable) = true := by
    rw [hbatchable, Bool.and_true, Bool.not_eq_true', List.isEmpty_eq_false_iff]
    exact hnames
  have hchosen : s.chooseStep args selection best =
      { selection with
        bestStep := some best
        maxBatchSize := batcher.maxBatchSize
        batchedParams := some (batcher.batchedArgs.foldl
          (fun current name => current.set name [(s.stepAt best).params.get? name]) ∅)
        unbatchedParams := batcher.batchedArgs.foldl Dict.erase (s.stepAt best).params
        batchedSteps := selection.batchedSteps ++ [best] } := by
    unfold chooseStep
    dsimp only
    rw [hbatcher, if_pos hopens, if_pos (List.all_eq_true.mpr hparams)]
  rw [hchosen]
  refine ⟨rfl, rfl, fun entry => ?_, by rw [hidle]; rfl, _, rfl, fun name => ?_⟩
  · dsimp only
    obtain ⟨name, value⟩ := entry
    rw [Dict.mem_entries_iff, Dict.mem_entries_iff, Dict.get?_foldl_erase]
    by_cases hname : name ∈ batcher.batchedArgs
    · simp [hname]
    · simp [hname]
  · rw [Dict.get?_foldl_set]
    rfl

/-- The loop takes the steps that may join and fit. -/
theorem Batches.joinsBatch_iff (hbatches : s.Batches batcher best members selection) (ref : Ref) :
    s.joinsBatch selection best ref = true ↔
      fitsBatch members.length batcher.maxBatchSize = true ∧
        s.Joins batcher.batchedArgs best ref := by
  have hparams : (selection.unbatchedParams.entries.all fun entry =>
      (s.stepAt ref).params.get? entry.1 == some entry.2) = true ↔
      ∀ entry ∈ (s.stepAt best).params.entries, entry.1 ∉ batcher.batchedArgs →
        (s.stepAt ref).params.get? entry.1 = some entry.2 := by
    simp only [List.all_eq_true, beq_iff_eq, hbatches.unbatched, and_imp]
  unfold joinsBatch Joins
  dsimp only
  rw [hbatches.steps, hbatches.size]
  simp only [Bool.and_eq_true, hparams, beq_iff_eq, schedulable_iff]
  tauto

/-- A further member takes its place in every list. -/
theorem Batches.join (hbatches : s.Batches batcher best members selection)
    (hnames : batcher.batchedArgs ≠ []) {ref : Ref}
    (hjoins : s.joinsBatch selection best ref = true) :
    s.Batches batcher best (members ++ [ref]) (s.extendBatch best selection ref) := by
  obtain ⟨batched, hbatched, hlists⟩ := hbatches.params
  have hopen : batched.isEmpty = false := by
    cases hempty : batched.isEmpty with
    | false => rfl
    | true =>
        obtain ⟨name, hname⟩ := List.exists_mem_of_ne_nil _ hnames
        have hlist := hlists name
        rw [Dict.eq_empty_of_isEmpty hempty, if_pos hname] at hlist
        cases hlist
  unfold extendBatch
  rw [hbatched]
  dsimp only
  rw [hopen, hjoins, if_pos (by rfl)]
  refine ⟨hbatches.chosen, hbatches.size, hbatches.unbatched, ?_, _, rfl, fun name => ?_⟩
  · rw [hbatches.steps]
  · have hkeys : batched.keys.Nodup := batched.nodup_keys
    rw [Dict.get?_foldl_modify _ hkeys [] fun name values =>
      values ++ [(s.stepAt ref).params.get? name], Dict.getD, hlists, List.map_append]
    by_cases hname : name ∈ batcher.batchedArgs
    · have hkey : name ∈ batched.keys := by
        rw [Dict.mem_keys_iff, hlists, if_pos hname]
        exact ⟨_, rfl⟩
      rw [if_pos hname, if_pos hkey, if_pos hname]
      rfl
    · have hkey : name ∉ batched.keys := by
        rw [Dict.mem_keys_iff, hlists, if_neg hname]
        rintro ⟨_, h⟩
        cases h
      rw [if_neg hname, if_neg hkey, if_neg hname]

/-- One turn of the loop. -/
theorem Batches.considerStep (hbatches : s.Batches batcher best members selection)
    (hnames : batcher.batchedArgs ≠ []) (used : Resources) (ref : Ref) :
    s.Batches batcher best
      (members ++ if fitsBatch members.length batcher.maxBatchSize = true ∧
        s.Joins batcher.batchedArgs best ref then [ref] else [])
      (s.considerStep args used selection ref) := by
  have hextend : s.considerStep args used selection ref = s.extendBatch best selection ref := by
    unfold Scheduler.considerStep
    rw [hbatches.chosen]
  rw [hextend]
  cases hjoins : s.joinsBatch selection best ref with
  | true =>
      rw [if_pos ((hbatches.joinsBatch_iff ref).mp hjoins)]
      exact hbatches.join hnames hjoins
  | false =>
      have hnot := mt (hbatches.joinsBatch_iff ref).mpr (ne_true_of_eq_false hjoins)
      rw [if_neg hnot, List.append_nil]
      unfold extendBatch
      obtain ⟨batched, hbatched, -⟩ := hbatches.params
      rw [hbatched]
      dsimp only
      rw [hjoins, Bool.and_false, if_neg Bool.false_ne_true]
      exact hbatches

/-- The rest of the loop fills up the batch in rank order. -/
theorem Batches.foldl (hbatches : s.Batches batcher best members selection)
    (hnames : batcher.batchedArgs ≠ []) (used : Resources) (below : List Ref) :
    s.Batches batcher best
      (members ++ fillUp members.length batcher.maxBatchSize
        (below.filter fun ref => s.Joins batcher.batchedArgs best ref))
      (below.foldl (s.considerStep args used) selection) := by
  induction below generalizing members selection with
  | nil =>
      rw [List.filter_nil, fillUp_nil, List.append_nil]
      exact hbatches
  | cons ref rest ih =>
      have hturn : s.Batches batcher best _ (s.considerStep args used selection ref) :=
        hbatches.considerStep hnames used ref
      have hstep := ih hturn
      rw [List.foldl_cons]
      by_cases hjoins : s.Joins batcher.batchedArgs best ref
      · rw [List.filter_cons_of_pos (by simpa using hjoins), fillUp_cons]
        cases hfits : fitsBatch members.length batcher.maxBatchSize with
        | true =>
            rw [hfits, if_pos ⟨rfl, hjoins⟩, List.append_assoc, List.length_append] at hstep
            exact hstep
        | false =>
            rw [hfits, if_neg (fun h => Bool.false_ne_true h.1), List.append_nil,
              fillUp_of_full hfits] at hstep
            exact hstep
      · rw [List.filter_cons_of_neg (by simpa using hjoins)]
        rw [if_neg (fun h => hjoins h.2), List.append_nil] at hstep
        exact hstep

/-! ## The choice -/

/-- The steps after the first occurrence of `best`. -/
def stepsBelow (order : List Ref) (best : Ref) : List Ref :=
  (order.dropWhile fun ref => ref != best).tail

theorem dropWhile_split {above below : List Ref} (hnew : best ∉ above) :
    (above ++ best :: below).dropWhile (fun ref => ref != best) = best :: below := by
  induction above with
  | nil => rw [List.nil_append, List.dropWhile_cons_of_neg (by simp)]
  | cons ref above ih =>
      obtain ⟨hne, hnew⟩ := not_or.mp (mt List.mem_cons.mpr hnew)
      rw [List.cons_append, List.dropWhile_cons_of_pos (by simpa using Ne.symm hne), ih hnew]

/-- Before it chooses, the loop opens no batch. -/
theorem considerStep_idle (hbest : selection.bestStep = none)
    (hidle : selection.batchedSteps = [] ∧ selection.batchedParams = none) (used : Resources)
    (ref : Ref) :
    ((s.considerStep args used selection ref).bestStep = none ∧
      (s.considerStep args used selection ref).batchedSteps = [] ∧
      (s.considerStep args used selection ref).batchedParams = none) ∨
    ∃ earlier, (earlier.batchedSteps = [] ∧ earlier.batchedParams = none) ∧
      s.considerStep args used selection ref = s.chooseStep args earlier ref := by
  obtain ⟨hrbest, hrsteps, hrparams⟩ := reserveRunning_keeps s selection ref
  rw [hbest] at hrbest
  rw [hidle.1] at hrsteps
  rw [hidle.2] at hrparams
  unfold considerStep
  rw [hbest]
  dsimp only
  split
  · split
    · exact .inr ⟨_, ⟨hrsteps, hrparams⟩, rfl⟩
    · obtain ⟨hgbest, hgsteps, hgparams⟩ :=
        reserveGreedily_keeps s args (s.reserveRunning selection ref) ref
      exact .inl ⟨hgbest.trans hrbest, hgsteps.trans hrsteps, hgparams.trans hrparams⟩
  · exact .inl ⟨hrbest, hrsteps, hrparams⟩

/-- The loop chooses once, and goes on below the chosen step. -/
theorem foldl_chooses (hstart : selection.bestStep = none)
    (hidle : selection.batchedSteps = [] ∧ selection.batchedParams = none)
    {used : Resources} {refs : List Ref}
    (hbest : (refs.foldl (s.considerStep args used) selection).bestStep = some best) :
    ∃ above below earlier, refs = above ++ best :: below ∧
      (earlier.batchedSteps = [] ∧ earlier.batchedParams = none) ∧
      refs.foldl (s.considerStep args used) selection =
        below.foldl (s.considerStep args used) (s.chooseStep args earlier best) := by
  induction refs generalizing selection with
  | nil =>
      rw [List.foldl_nil, hstart] at hbest
      cases hbest
  | cons ref rest ih =>
      rw [List.foldl_cons] at hbest ⊢
      rcases considerStep_idle hstart hidle used ref with
        ⟨hnone, hidle'⟩ | ⟨earlier, hidle', hchoice⟩
      · obtain ⟨above, below, earlier, hrest, hidle', hloop⟩ := ih hnone hidle' hbest
        exact ⟨ref :: above, below, earlier, by rw [hrest, List.cons_append], hidle', hloop⟩
      · rw [hchoice] at hbest ⊢
        obtain ⟨hchosen, -⟩ := chooseStep_cases s args earlier ref
        rw [bestStep_kept hchosen] at hbest
        cases hbest
        exact ⟨[], rest, earlier, rfl, hidle', rfl⟩

/-- The steps that the call looks at, the highest rank first. -/
def rankedSteps (s : Scheduler) (args : GetWorkArgs) (config : Config) (now : Time) : List Ref :=
  s.sortByRankReverse (s.relevantSteps args config now).1

/-- The batch that the call makes of the chosen step. -/
def batchAt (s : Scheduler) (args : GetWorkArgs) (config : Config) (now : Time) (best : Ref) :
    List Ref :=
  s.batchOf (s.getBatcher args.worker (s.stepAt best).family) best
    (stepsBelow (s.rankedSteps args config now) best)

theorem Indexed.nodup_rankedSteps (hindex : s.Indexed) (args : GetWorkArgs) (config : Config)
    (now : Time) : (s.rankedSteps args config now).Nodup :=
  (List.perm_insertionSort _ _).nodup_iff.mpr (hindex.nodup_relevantSteps args config now)

/-- The ranked loop collects the batch. -/
theorem selectWork_batches (hindex : s.Indexed) {config : Config} {now : Time}
    (hbest : (s.selectWork args config now none).bestStep = some best)
    (hbatchable : (s.stepAt best).batchable = true)
    (hnames : (s.getBatcher args.worker (s.stepAt best).family).batchedArgs ≠ [])
    (hparams : ∀ name ∈ (s.getBatcher args.worker (s.stepAt best).family).batchedArgs,
      (s.stepAt best).params.contains name = true) :
    s.Batches (s.getBatcher args.worker (s.stepAt best).family) best
        (s.batchAt args config now best) (s.selectWork args config now none) ∧
      (s.batchAt args config now best).Sublist (s.rankedSteps args config now) := by
  have hselect : s.selectWork args config now none =
      (s.rankedSteps args config now).foldl
        (s.considerStep args (s.relevantSteps args config now).2.1)
        { greedyWorkers := (s.relevantSteps args config now).2.2 } := rfl
  rw [hselect] at hbest ⊢
  obtain ⟨above, below, earlier, horder, ⟨hidle, -⟩, hloop⟩ := foldl_chooses rfl ⟨rfl, rfl⟩ hbest
  rw [hloop]
  have hnodup := hindex.nodup_rankedSteps args config now
  have hbelow : stepsBelow (s.rankedSteps args config now) best = below := by
    rw [horder] at hnodup ⊢
    have hnew : best ∉ above := fun h =>
      (List.nodup_append.mp hnodup).2.2 best h best (List.mem_cons_self ..) rfl
    rw [stepsBelow, dropWhile_split hnew, List.tail_cons]
  unfold batchAt
  rw [hbelow]
  constructor
  · exact (Batches.choose rfl hbatchable hnames hparams hidle).foldl hnames
      (s.relevantSteps args config now).2.1 below
  · rw [horder]
    refine .trans (.cons_cons best ?_) (List.sublist_append_right ..)
    exact (fillUp_sublist ..).trans List.filter_sublist

/-! ## The members -/

/-- The steps of the table that the call looks at: all that are pending or running, or only the
worker's own. -/
def LooksAt (s : Scheduler) (args : GetWorkArgs) (ref : Ref) : Prop :=
  s.Filed ref ∧ ((s.stepAt ref).status = .pending ∨ (s.stepAt ref).status = .running) ∧
    ((s.workerAt args.worker).isTrivialWorker s = true → args.worker ∈ (s.stepAt ref).workers)

/-- The step with the first ones of a lower rank that may join, as many as there is room for. -/
structure IsBatch (s : Scheduler) (args : GetWorkArgs) (batcher : Batcher) (best : Ref)
    (others : List Ref) : Prop where
  joins : ∀ ref ∈ others,
    s.LooksAt args ref ∧ s.rankLe ref best ∧ s.Joins batcher.batchedArgs best ref
  room : ∀ bound ∈ batcher.maxBatchSize, others.length ≤ bound - 1
  first : ∀ ref, s.LooksAt args ref → ¬s.rankLe best ref → s.Joins batcher.batchedArgs best ref →
    ref ∈ others ∨
      (∃ bound ∈ batcher.maxBatchSize, others.length = bound - 1) ∧
        ∀ other ∈ others, s.rankLe ref other

/-- The call looks at the steps of the table that it should, whatever else. -/
theorem Sound.mem_relevantSteps_iff (hsound : s.Sound) (config : Config) (now : Time) {ref : Ref}
    (hpaused : s.paused = false) (hfiled : s.Filed ref) :
    ref ∈ (s.relevantSteps args config now).1 ↔ s.LooksAt args ref := by
  unfold relevantSteps LooksAt
  rw [hpaused, and_iff_right hfiled]
  dsimp only
  rw [if_neg Bool.false_ne_true]
  split
  · next htrivial =>
      rw [forall_prop_of_true htrivial]
      unfold Worker.getSteps
      dsimp only
      split
      · rw [mem_selfSteps, List.mem_pair, and_comm]
        refine and_congr_right fun _ =>
          ⟨fun hlisted => hsound.rostered.knows hlisted, fun hknows => ?_⟩
        exact (hsound.rostered.lists hfiled hknows).2
      · rw [hsound.index.mem_stateSteps, hsound.rostered.worker_id, and_iff_right hfiled,
          List.mem_pair]
  · next hplain =>
      rw [hsound.index.mem_activeStepsByStatus, List.mem_pair, and_iff_right hfiled]
      exact (and_iff_left fun htrivial => absurd htrivial hplain).symm

/-- Of a list the first ones are taken, and the others come behind them. -/
theorem fillUp_first {le : Ref → Ref → Prop} {bound : Option ℕ} {refs : List Ref}
    (hsorted : refs.Pairwise fun higher lower => le lower higher) {ref : Ref} (href : ref ∈ refs) :
    ref ∈ fillUp 1 bound refs ∨ (∃ size ∈ bound, (fillUp 1 bound refs).length = size - 1) ∧
      ∀ other ∈ fillUp 1 bound refs, le ref other := by
  cases bound with
  | none => exact .inl href
  | some size =>
      rw [fillUp]
      rw [← List.take_append_drop (size - 1) refs] at href hsorted
      refine (List.mem_append.mp href).imp_right fun hdropped =>
        ⟨⟨size, rfl, ?_⟩, fun other hother => ?_⟩
      · have hlong : 0 < (refs.drop (size - 1)).length := List.length_pos_of_mem hdropped
        rw [List.length_drop] at hlong
        rw [List.length_take]
        omega
      · exact (List.pairwise_append.mp hsorted).2.2 other hother ref hdropped

/-- The loop collects the members of a batch, if it keeps to the table. -/
theorem Sound.isBatch (hsound : s.Sound) {config : Config} {now : Time}
    (hpaused : s.paused = false) (hlooked : best ∈ s.rankedSteps args config now)
    (hfiled : ∀ ref ∈ s.batchAt args config now best, s.Filed ref) :
    ∃ others, s.batchAt args config now best = best :: others ∧
      s.IsBatch args (s.getBatcher args.worker (s.stepAt best).family) best others := by
  obtain ⟨above, below, horder⟩ := List.append_of_mem hlooked
  have hnodup := hsound.index.nodup_rankedSteps args config now
  have hsorted : (s.rankedSteps args config now).Pairwise fun higher lower =>
      s.rankLe lower higher := List.pairwise_insertionSort _ _
  have hmem : ∀ {ref}, ref ∈ s.rankedSteps args config now ↔
      ref ∈ (s.relevantSteps args config now).1 := List.mem_insertionSort _
  rw [horder] at hnodup hsorted hmem
  have hnew : best ∉ above := fun h =>
    (List.nodup_append.mp hnodup).2.2 best h best (List.mem_cons_self ..) rfl
  obtain ⟨-, htail, habove⟩ := List.pairwise_append.mp hsorted
  obtain ⟨hlower, hbelow⟩ := List.pairwise_cons.mp htail
  unfold batchAt batchOf at hfiled ⊢
  rw [horder, stepsBelow, dropWhile_split hnew, List.tail_cons] at hfiled ⊢
  refine ⟨_, rfl, fun ref href => ?_, fun bound hbound => ?_, fun ref hlooks hrank hjoins => ?_⟩
  · obtain ⟨hlisted, hjoins⟩ := List.mem_filter.mp ((fillUp_sublist ..).subset href)
    refine ⟨?_, hlower ref hlisted, of_decide_eq_true hjoins⟩
    have hkept := hfiled ref (List.mem_cons_of_mem _ href)
    refine (hsound.mem_relevantSteps_iff config now hpaused hkept).mp (hmem.mp ?_)
    exact List.mem_append_right _ (List.mem_cons_of_mem _ hlisted)
  · rw [Option.mem_def.mp hbound]
    exact List.length_take_le ..
  · refine fillUp_first (hbelow.sublist List.filter_sublist) (List.mem_filter.mpr ⟨?_, ?_⟩)
    · have hlisted :=
        hmem.mpr ((hsound.mem_relevantSteps_iff config now hpaused hlooks.1).mpr hlooks)
      rcases List.mem_append.mp hlisted with hhigher | hrest
      · exact absurd (habove ref hhigher best (List.mem_cons_self ..)) hrank
      · rcases List.mem_cons.mp hrest with rfl | hlisted
        · exact absurd ((s.rankLe_total ref ref).elim id id) hrank
        · exact hlisted
    · exact decide_eq_true hjoins

/-! ## What is handed out -/

/-- What the worker gets for a batch, and what becomes of the members. -/
structure Launches (env : Env) (worker : WorkerId) (names : List String) (best : Ref)
    (members : List Ref) (s t : Scheduler) (work : Work) : Prop where
  nodup : members.Nodup
  ranked : members.Pairwise fun higher lower => s.rankLe lower higher
  /-- The best step alone is a single step. -/
  single : members = [best] →
    work = .single (s.stepAt best).id (s.stepAt best).family (s.stepAt best).module
        (s.stepAt best).params ∧
      t.Filed best ∧ (t.stepAt best).status = .running ∧
      (t.stepAt best).workerRunning = some worker
  /-- The parameters of several steps are lists in the order of the steps. -/
  batch : members ≠ [best] → ∃ batchId stepIds params,
    work = .batch batchId stepIds (s.stepAt best).family (s.stepAt best).module params ∧
      stepIds = members.map (fun ref => (s.stepAt ref).id) ∧ stepIds.Nodup ∧
      batchId = env.batchId stepIds ∧
      (∀ name, params.get? name = if name ∈ names then
        some (.batched (members.map fun ref => (s.stepAt ref).params.get? name))
      else ((s.stepAt best).params.get? name).map .single) ∧
      ∀ ref ∈ members, t.Filed ref ∧ (t.stepAt ref).status = .batchRunning ∧
        (t.stepAt ref).batchId = some batchId ∧ (t.stepAt ref).workerRunning = some worker

/-- The call returns a reply and hands out the batch of the chosen step. -/
def FormsBatch (env : Env) (s : Scheduler) (moment : Moment) (args : GetWorkArgs) (best : Ref) :
    Prop :=
  ∃ reply others, env.outcome s ⟨moment, .getWork args⟩ = .ok (.work reply) ∧
    (env.ranked s moment args).batchAt args env.config moment.now best = best :: others ∧
    (env.ranked s moment args).IsBatch args ((env.ranked s moment args).getBatcher args.worker
      ((env.ranked s moment args).stepAt best).family) best others ∧
    Launches env args.worker
      ((env.ranked s moment args).getBatcher args.worker
        ((env.ranked s moment args).stepAt best).family).batchedArgs
      best (best :: others)
      (env.ranked s moment args) (env.after s ⟨moment, .getWork args⟩) reply.work

/-- The members are in the table afterwards. -/
theorem Launches.kept {env : Env} {worker : WorkerId} {names : List String} {t : Scheduler}
    {work : Work} (hlaunches : Launches env worker names best members s t work) (ref : Ref)
    (href : ref ∈ members) : t.Filed ref := by
  by_cases hsingle : members = [best]
  · obtain ⟨-, hfiled, -⟩ := hlaunches.single hsingle
    rw [hsingle] at href
    rw [List.mem_singleton.mp href]
    exact hfiled
  · obtain ⟨batchId, stepIds, params, -, -, -, -, -, hlater⟩ := hlaunches.batch hsingle
    exact (hlater ref href).1

/-- Steps of the table have different ids. -/
theorem Filed.injective {left right : Ref} (hleft : s.Filed left) (hright : s.Filed right)
    (hid : (s.stepAt left).id = (s.stepAt right).id) : left = right := by
  unfold Filed at hleft hright
  rw [hid, hright] at hleft
  exact (Option.some.inj hleft).symm

/-- The call only looks at objects that have been made. -/
theorem Sound.rankedSteps_lt (hsound : s.Sound) {config : Config} {now : Time} {ref : Ref}
    (hmem : ref ∈ s.rankedSteps args config now) : ref < s.nextRef := by
  rw [rankedSteps, mem_sortByRankReverse] at hmem
  unfold relevantSteps at hmem
  dsimp only at hmem
  split_ifs at hmem
  · cases hmem
  · rcases (hsound.mem_getSteps hmem).1 with hfiled | ⟨worker, hlisted⟩
    · exact hsound.stored.filed_lt hfiled
    · exact hsound.rostered.listed_lt hlisted
  · exact hsound.stored.filed_lt (hsound.index.mem_activeStepsByStatus.mp hmem).1

theorem Hands.filed {change : Step → Step} {refs : List Ref} {t : Scheduler}
    (hhands : Hands change refs s t) (hid : ∀ step, (change step).id = step.id) {ref : Ref} :
    t.Filed ref ↔ s.Filed ref := by
  have hsame : (t.stepAt ref).id = (s.stepAt ref).id := by
    rw [hhands.object]
    split
    · exact hid _
    · rfl
  unfold Filed getStep
  rw [hsame, hhands.same.steps]

/-- Nothing is handed out but the members of the batch. -/
theorem Batches.mem_of_picks {rest : List Ref} {ref : Ref}
    (hbatches : s.Batches batcher best (best :: rest) selection) (href : ref ∈ selection.picks) :
    ref ∈ best :: rest := by
  unfold Selection.picks at href
  split at href
  · rw [← hbatches.steps]
    exact href
  · rw [hbatches.chosen, Option.toList_some, List.mem_singleton] at href
    rw [href]
    exact List.mem_cons_self ..

/-- The loop looks at no steps while the scheduler is paused. -/
theorem not_paused_of_ranked {config : Config} {now : Time} {ref : Ref}
    (hlooked : ref ∈ s.rankedSteps args config now) : s.paused = false := by
  by_contra hpaused
  rw [rankedSteps, mem_sortByRankReverse, relevantSteps,
    if_pos (Bool.eq_true_of_not_eq_false hpaused)] at hlooked
  cases hlooked

/-- The hand-out of a batch whose members are in the table. -/
theorem Batches.launches {counted t : Scheduler} {env : Env} {now : Time} {worker : WorkerId}
    {work : Work} {rest : List Ref}
    (hbatches : s.Batches batcher best (best :: rest) selection) (hgreets : Greets s counted)
    (hfiled : ∀ ref ∈ best :: rest, s.Filed ref) (hnodup : (best :: rest).Nodup)
    (hranked : (best :: rest).Pairwise fun higher lower => s.rankLe lower higher)
    (hhands : HandsOut env now worker selection counted work t)
    (hwork : work = selection.work env counted) :
    Launches env worker batcher.batchedArgs best (best :: rest) s t work := by
  have hsteps := hbatches.steps
  cases hhands with
  | nothing hbest =>
      rw [hbatches.chosen] at hbest
      cases hbest
  | single hbest hsize hands =>
      rw [hbatches.chosen] at hbest
      cases hbest
      have hrest : rest = [] := by
        rw [hsteps, List.length_cons] at hsize
        exact List.length_eq_zero_iff.mp (by omega)
      have hobject := hands.object best
      rw [if_pos (List.mem_singleton_self best)] at hobject
      refine ⟨hnodup, hranked, fun _ => ⟨?_, ?_, ?_, ?_⟩, fun hmany => ?_⟩
      · rw [hgreets.stepAt]
      · rw [hands.filed fun _ => Step.handed_id .., hgreets.filed]
        exact hfiled best (List.mem_cons_self ..)
      · rw [hobject, Step.handed_status]
      · rw [hobject]
        rfl
      · exact absurd (by rw [hrest]) hmany
  | batch hsize hids hands =>
      rw [hsteps] at hsize hids hands
      refine ⟨hnodup, hranked, fun hsingle => ?_, fun _ => ?_⟩
      · rw [hsingle] at hsize
        exact absurd hsize (Nat.lt_irrefl 1)
      · obtain ⟨batched, hbatched, hlists⟩ := hbatches.params
        rw [Selection.work, hbatches.chosen] at hwork
        dsimp only at hwork
        rw [hsteps, if_pos hsize, hbatched] at hwork
        simp only [hgreets.stepAt] at hwork hids
        refine ⟨_, _, _, hwork, rfl, ?_, rfl, fun name => ?_, fun ref href => ?_⟩
        · refine List.Nodup.map_on (fun left hleft right hright => ?_) hnodup
          exact Filed.injective (hfiled left hleft) (hfiled right hright)
        · rw [get?_combineParams, Option.getD_some, hlists]
          split <;> rfl
        · have hobject := hands.object ref
          rw [if_pos href] at hobject
          refine ⟨?_, ?_, ?_, ?_⟩
          · rw [hands.filed fun _ => Step.reserved_id .., hgreets.filed]
            exact hfiled ref href
          · rw [hobject, Step.reserved_status]
          · rw [hobject, hids]
            rfl
          · rw [hobject]
            rfl

end Scheduler

open Scheduler

namespace Env

variable {env : Env} {s : Scheduler} {moment : Moment} {args : GetWorkArgs} {best : Ref}

/-- A call of `get_work` that chooses a step for which its worker has a batcher returns and forms
the batch exactly if it meets no stale step and the members are in the table. -/
theorem formsBatch_iff (hsound : s.Sound)
    (henabled : ((env.received s moment args).workerAt args.worker).enabled = true)
    (hlost : (env.received s moment args).lostStep args = none)
    (hbest : ((env.ranked s moment args).selectWork args env.config moment.now none).bestStep =
      some best)
    (hbatchable : ((env.ranked s moment args).stepAt best).batchable = true)
    (hnames : ((env.ranked s moment args).getBatcher args.worker
      ((env.ranked s moment args).stepAt best).family).batchedArgs ≠ [])
    (hparams : ∀ name ∈ ((env.ranked s moment args).getBatcher args.worker
      ((env.ranked s moment args).stepAt best).family).batchedArgs,
        ((env.ranked s moment args).stepAt best).params.contains name = true) :
    FormsBatch env s moment args best ↔
      (env.ranked s moment args).CountsLiveSteps args.worker ∧
        ∀ ref ∈ (env.ranked s moment args).batchAt args env.config moment.now best,
          (env.ranked s moment args).Filed ref := by
  have hranked := env.ranked_sound hsound moment args
  obtain ⟨hbatches, hsublist⟩ :=
    selectWork_batches hranked.index hbest hbatchable hnames hparams
  constructor
  · rintro ⟨reply, others, houtcome, hmembers, -, hlaunches⟩
    rw [← hmembers] at hlaunches
    have hfind := @exec_findWork env s moment args hsound.stored hsound.retriable
    rcases hcount : (countPending moment args.worker).exec (env.ranked s moment args) with
      ⟨error | pending, counted⟩
    · rw [exec_bind_error hcount] at hfind
      rw [(hsound.after_findWork henabled hfind).2] at houtcome
      cases houtcome
    · refine ⟨countPending_live hcount, fun ref href => ?_⟩
      have hlt := hranked.rankedSteps_lt (hsublist.subset href)
      obtain ⟨-, hcounted, -⟩ := countPending_grows moment args.worker _ trivial
      obtain ⟨-, hhanded, -⟩ := handOut_grows env moment.now args.worker _ pending counted trivial
      rw [exec_bind_ok hcount] at hfind
      rw [Program.final, hcount] at hcounted
      have hafter := (hsound.after_findWork henabled hfind).1
      have hkept := hlaunches.kept ref href
      rw [hafter] at hkept
      exact (Grows.trans hcounted hhanded).filed_back hlt hkept
  · rintro ⟨hlive, hfiled⟩
    have hselected := selectWork_selected (env.ranked s moment args) args env.config moment.now none
    have hpicked : ∀ ref ∈ ((env.ranked s moment args).selectWork args env.config moment.now
        none).picks, (env.ranked s moment args).Filed ref ∧
          ((env.ranked s moment args).stepAt ref).status ≠ .disabled := by
      intro ref href
      have hmember := hbatches.mem_of_picks href
      have hready := schedulable_iff.mp (hselected.batched ref (hbatches.steps ▸ hmember)).1
      exact ⟨hfiled ref hmember, by rw [hready.1]; decide⟩
    rw [← hlost] at hpicked
    obtain ⟨error, hraises, -⟩ | ⟨pending, counted, work, hcounts, houtcome, hhands, hwork⟩ :=
      hsound.after_getWork_picks env moment henabled hpicked
    · obtain ⟨-, -, hallowed⟩ := hranked.countPending_safe hlive moment
      exact absurd (congrArg Prod.fst hraises) (hallowed error)
    · obtain ⟨-, hgreets, -⟩ := countPending_meets moment args.worker (env.ranked s moment args)
      rw [Program.final, hcounts] at hgreets
      rw [hlost] at hhands hwork
      have hnodup := hsublist.nodup (hranked.index.nodup_rankedSteps args env.config moment.now)
      have hdescends : ((env.ranked s moment args).rankedSteps args env.config moment.now).Pairwise
          fun higher lower => (env.ranked s moment args).rankLe lower higher :=
        List.pairwise_insertionSort _ _
      have hlooked := (hselected.best rfl best hbest).1
      have hpaused := not_paused_of_ranked hlooked
      obtain ⟨others, hmembers, hbatch⟩ := hranked.isBatch hpaused hlooked hfiled
      have hlaunches : Launches env args.worker _ best
          ((env.ranked s moment args).batchAt args env.config moment.now best) _ _ work :=
        hbatches.launches hgreets hfiled hnodup (hdescends.sublist hsublist) hhands hwork
      rw [hmembers] at hlaunches
      exact ⟨⟨pending, work⟩, others, houtcome, hmembers, hbatch, hlaunches⟩

end Env

/-- A batchable step of a family that needs nothing. -/
def offersMember (worker : WorkerId) (id : StepId) (value : String) (assistant : Bool) : Request :=
  .addStep
    { worker := worker, stepId := id, family := "F", params := some (Dict.set ∅ "p" value)
      batchable := some true, assistant := assistant }

/-- A worker that batches a family and schedules two of its steps. -/
def offeringRun : List Event :=
  [ requestAt 1 (.addStepBatcher firstWorker "F" ⟨["p"], none⟩),
    requestAt 2 (offersMember firstWorker "a" "1" false),
    requestAt 3 (offersMember firstWorker "b" "2" false) ]

/-- They run in one batch. -/
theorem offered_steps_form_batch : FormsBatch batchEnv (batchEnv.run (.initial ∅) offeringRun)
    { now := 4 } { worker := firstWorker, currentSteps := some [] } 0 :=
  (Env.formsBatch_iff (batchEnv.run_sound (by decide +kernel)).1 (by decide +kernel)
    (by decide +kernel) (by decide +kernel) (by decide +kernel) (by decide +kernel)
    (by decide +kernel)).mpr ⟨by decide +kernel, by decide +kernel⟩

/-- The worker outlives its batchable step. -/
def staleRun : List Event :=
  [ requestAt 1 (.addStepBatcher firstWorker "F" ⟨["p"], none⟩),
    requestAt 2 (offersMember firstWorker "a" "1" true),
    requestAt 3 .prune,
    requestAt 600 (.ping firstWorker),
    requestAt 603 .prune,
    requestAt 604 (schedules secondWorker "b"),
    requestAt 604 (schedules secondWorker "c"),
    requestAt 604 (schedules secondWorker "d") ]

/-- The removed step is chosen, with all it takes to be a batch of one, and the call raises. -/
theorem stale_step_forms_no_batch :
    Timely staleRun ∧
      ((batchEnv.ranked (batchEnv.run (.initial ∅) staleRun) { now := 605 }
        { worker := firstWorker, currentSteps := some [] }).selectWork
        { worker := firstWorker, currentSteps := some [] } {} 605 none).batchedSteps = [0] ∧
      ¬FormsBatch batchEnv (batchEnv.run (.initial ∅) staleRun) { now := 605 }
        { worker := firstWorker, currentSteps := some [] } 0 := by
  refine ⟨by decide +kernel, by decide +kernel, ?_⟩
  rintro ⟨reply, others, houtcome, -⟩
  have hraised : batchEnv.raised (batchEnv.run (.initial ∅) staleRun)
      (requestAt 605 (.getWork { worker := firstWorker, currentSteps := some [] })) ≠ none := by
    decide +kernel
  apply hraised
  unfold Env.raised requestAt
  rw [houtcome]

end Trun
