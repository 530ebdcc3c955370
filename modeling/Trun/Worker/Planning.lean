import Trun.Worker.Adding

/-!
# What `add` leaves on the board

A worker that uses its scheduler alone explores the requirements of a step.
When `add` returns, the board has a card for every step that the search can
reach, with what `_add` found out about it, and no other card.
-/

namespace Trun

open Program

/-- What the scheduler knows of a step that is only named as a dependency. -/
def Card.blank : Card := ⟨.unknown, ∅, false⟩

namespace Setting

variable {σ : Type}

/-- A search has written down what it found out about the steps that it visited, and earlier ones
about those of theirs. -/
structure Planned (setting : Setting σ) (world : σ) (before : StepId → Prop)
    (visited found : List StepId) (board : Board) : Prop where
  planned : ∀ id, before id ∨ id ∈ visited → board id = some ((setting.planOf world id).card none)
  cards : ∀ id, board id = none ∨ board id = some .blank ∨
    board id = some ((setting.planOf world id).card none)
  known : ∀ id, board id ≠ none → before id ∨ id ∈ visited ++ found

variable {setting : Setting σ} {w : Session σ} {world : σ} {before : StepId → Prop}
  {root id : StepId}

/-- A plan that is carried out again makes the same card. -/
theorem card_of_planned {old : Option Card} (hold : old = none ∨ old = some .blank ∨
      old = some ((setting.planOf world id).card none)) :
    (setting.planOf world id).card old = (setting.planOf world id).card none := by
  rcases hold with rfl | rfl | rfl
  · rfl
  · exact StepPlan.card_placeholder _
  · simp only [StepPlan.card]
    cases (setting.planOf world id).deps <;> simp

theorem mem_deps_card (dep : StepId) :
    dep ∈ ((setting.planOf world id).card none).deps ↔ dep ∈ setting.nextSteps world id := by
  rw [StepPlan.card, nextSteps]
  cases (setting.planOf world id).deps <;> simp

theorem Planned.start {board : Board}
    (hbefore : ∀ id, before id → board id = some ((setting.planOf world id).card none))
    (hblank : ∀ id, ¬before id → board id = none) (found : List StepId) :
    setting.Planned world before [] found board where
  planned := fun id hid => hbefore id (hid.resolve_right List.not_mem_nil)
  cards := fun id => by
    by_cases hid : before id
    · exact .inr (.inr (hbefore id hid))
    · exact .inl (hblank id hid)
  known := fun id hrow => .inl (by_contra fun hid => hrow (hblank id hid))

/-- The search visits a step. -/
theorem Planned.visit {visited rest found : List StepId} {board : Board}
    (h : setting.Planned world before visited (id :: rest) board)
    (hrest : ∀ other ∈ rest, other ∈ found)
    (hnext : ∀ dep ∈ setting.nextSteps world id, dep ∈ id :: visited ++ found) :
    setting.Planned world before (id :: visited) found
      (board.place id ((setting.planOf world id).card (board id))) := by
  rw [card_of_planned (h.cards id)]
  constructor
  · intro other hother
    by_cases hsame : other = id
    · rw [hsame, Board.place_self]
    · apply Board.place_kept hsame
      exact h.planned other
        (hother.imp_right fun hmem => (List.mem_cons.mp hmem).resolve_left hsame)
  · intro other
    by_cases hsame : other = id
    · rw [hsame, Board.place_self]
      exact .inr (.inr rfl)
    · rw [Board.place_other hsame]
      split
      · exact .inr (.inl rfl)
      · exact h.cards other
  · intro other hother
    by_cases hsame : other = id
    · rw [hsame]
      exact .inr (List.mem_cons_self ..)
    · rw [Board.place_other hsame] at hother
      split at hother
      · next hnew => exact .inr (hnext other ((mem_deps_card other).mp hnew.2))
      · have hknown := h.known other hother
        simp only [List.mem_append, List.mem_cons] at hknown ⊢
        rcases hknown with hbefore | hvisited | rfl | hfound
        · exact .inl hbefore
        · exact .inr (.inl (.inr hvisited))
        · exact absurd rfl hsame
        · exact .inr (.inr (hrest other hfound))

/-- No plan disables a step. -/
theorem planOf_not_disabled (world : σ) (id : StepId) :
    (setting.planOf world id).status ≠ .disabled := by
  unfold planOf
  repeat' split
  all_goals exact Status.noConfusion

/-- There is no completion cache. -/
theorem Simple.knows (hsimple : setting.Simple) (cache : CompletionCache) (id : StepId) :
    setting.knows cache id = false := by
  rw [Setting.knows, hsimple.config]
  rfl

/-- Every step is asked for its completeness. -/
theorem Simple.checkComplete (hsimple : setting.Simple) (w : Session σ) (id : StepId) :
    ∃ cache, (setting.checkComplete id).exec w = (.ok (setting.queued w.world id),
      { w with checks := w.checks ++ [id], completionCache := cache }) := by
  have hknown : setting.knows w.completionCache = fun _ => false :=
    funext fun other => hsimple.knows _ other
  obtain ⟨cache, -, hcheck⟩ := setting.exec_checkComplete w id
  rw [hknown] at hcheck
  exact ⟨cache, hcheck⟩

/-- One round of the loop of `add`. -/
theorem explore_places (hsimple : setting.Simple) (queue : List (StepId × Completion))
    (seen : OrderedSet StepId) (hlone : Scheduler.Lone setting.worker w.scheduler)
    (hbatch : w.batchRunningSteps = ∅)
    (hcard : setting.board w id = none ∨ setting.board w id = some .blank ∨
      setting.board w id = some ((setting.planOf w.world id).card none)) :
    ∃ (new : List StepId) (seen' : OrderedSet StepId) (w' : Session σ), new.Nodup ∧
      (∀ dep, dep ∈ new ↔ dep ∈ setting.nextSteps w.world id ∧ dep ∉ seen) ∧
      (∀ dep, dep ∈ seen' ↔ dep ∈ seen ∨ dep ∈ setting.nextSteps w.world id) ∧
      (∀ fuel, (setting.explore (fuel + 1) (setting.queued w.world id :: queue, seen)).exec w =
        (setting.explore fuel
          (new.reverse.map (setting.queued w.world) ++ queue, seen')).exec w') ∧
      w.Extends w' ∧ Scheduler.Lone setting.worker w'.scheduler ∧ id ∈ w'.scheduledSteps ∧
      setting.board w' = (setting.board w).place id
        ((setting.planOf w.world id).card (setting.board w id)) ∧
      w.Notes w' [setting.planNote w.world id] := by
  obtain ⟨planned, hplan, hplanned, hlone, hboard, hnotes⟩ := makePlan_spec hsimple hlone id
  obtain ⟨new, seen', cache, hnodup, hnew, hseen, -, hdiscover⟩ :=
    setting.discover_spec planned (setting.nextSteps w.world id) queue seen (fun _ => false)
      fun dep _ => hsimple.knows planned.completionCache dep
  set found : Session σ := { planned with
    checks := planned.checks ++ new.filter fun _ => true
    completionCache := cache } with hfound
  have hextends : planned.Extends found := ⟨rfl, rfl, rfl, rfl, rfl, rfl, rfl, rfl, fun _ h => h⟩
  have hlone : Scheduler.Lone setting.worker found.scheduler := hlone
  have hboard : setting.board found = setting.board w := hboard
  have hnotes : w.Notes found [] := ⟨hnotes.history, hnotes.responses⟩
  obtain ⟨last, hschedule, hlast, hlone, hlisted, hplaced, hnotes'⟩ :=
    scheduleStep_spec hsimple hlone (hplanned.batchRunningSteps.trans hbatch) w.world id
      fun card hrow => by
        rw [hboard] at hrow
        rcases hcard with h | h | h
        · cases h.symm.trans hrow
        · obtain rfl := Option.some.inj (h.symm.trans hrow)
          exact ⟨Status.noConfusion, Status.noConfusion, Status.noConfusion⟩
        · obtain rfl := Option.some.inj (h.symm.trans hrow)
          refine ⟨?_, planOf_status w.world id, fun hdone hpending => ?_⟩
          · exact planOf_not_disabled w.world id
          · cases hdone.symm.trans hpending
  refine ⟨new, seen', last, hnodup, hnew, hseen, fun fuel => ?_,
    (hplanned.trans hextends).trans hlast, hlone, hlisted, ?_, hnotes.trans hnotes'⟩
  · have hqueued : (setting.recalling fun _ => false).queued planned.world =
        setting.queued w.world := by
      rw [hplanned.world]
      rfl
    rw [hqueued] at hdiscover
    exact (exec_bind_ok hplan).trans ((exec_bind_ok hdiscover).trans (exec_bind_ok hschedule))
  · rw [hplaced, hboard]

/-- The loop of `add` visits what can be reached and puts the cards on the board. -/
theorem explore_plans (hsimple : setting.Simple) {nodes : Finset StepId} (hroot : root ∈ nodes)
    (hnodes : ∀ id ∈ nodes, ∀ dep ∈ setting.nextSteps world id, dep ∈ nodes)
    {visited found : List StepId} {seen : OrderedSet StepId}
    (hsearch : Exploration (setting.nextSteps world) root visited found)
    (hseen : ∀ id, id ∈ seen ↔ id ∈ visited ++ found)
    (hplanned : setting.Planned world before visited found (setting.board w))
    (hlisted : ∀ id ∈ visited, id ∈ w.scheduledSteps) (hworld : w.world = world)
    (hlone : Scheduler.Lone setting.worker w.scheduler) (hbatch : w.batchRunningSteps = ∅) :
    ∃ (order : List StepId) (last : Session σ), Settles (fun fuel => setting.explore fuel
        (found.map (setting.queued world), seen)) w () last ∧ w.Extends last ∧
      Scheduler.Lone setting.worker last.scheduler ∧
      Exploration (setting.nextSteps world) root (order.reverse ++ visited) [] ∧
      setting.Planned world before (order.reverse ++ visited) [] (setting.board last) ∧
      (∀ id ∈ order.reverse ++ visited, id ∈ last.scheduledSteps) ∧
      w.Notes last (order.map (setting.planNote world)) ∧ order.head? = found.head? := by
  -- each round visits one more step of the finite graph
  induction hroom : nodes.card - visited.length using Nat.strong_induction_on
    generalizing w visited found seen with
  | _ room ih =>
      cases found with
      | nil =>
          exact ⟨[], w, ⟨0, fun fuel _ => by cases fuel <;> rfl⟩, .refl w, hlone, hsearch,
            hplanned, hlisted, .of_same rfl rfl, rfl⟩
      | cons id rest =>
          have hlt := hsearch.length_lt hroot hnodes
          subst hworld
          obtain ⟨new, seen', w', hnodup, hnew, hseen', hround, hextends, hlone', hself, hboard,
              hnotes⟩ :=
            explore_places hsimple (rest.map (setting.queued w.world)) seen hlone hbatch
              (hplanned.cards id)
          have hsearch' := hsearch.visit (List.nodup_reverse.mpr hnodup) fun dep => by
            rw [List.mem_reverse, hnew, hseen]
          have hfound' : ∀ dep, dep ∈ seen' ↔ dep ∈ id :: visited ++ (new.reverse ++ rest) := by
            intro dep
            rw [hseen', hseen]
            have hmem := hnew dep
            rw [hseen] at hmem
            simp only [List.mem_append, List.mem_cons, List.mem_reverse] at hmem ⊢
            tauto
          have hplanned' : setting.Planned w.world before (id :: visited) (new.reverse ++ rest)
              (setting.board w') := by
            rw [hboard]
            refine hplanned.visit (fun other h => List.mem_append_right _ h) fun dep hdep => ?_
            exact (hfound' dep).mp ((hseen' dep).mpr (.inr hdep))
          have hlisted' : ∀ other ∈ id :: visited, other ∈ w'.scheduledSteps := by
            intro other hother
            cases List.mem_cons.mp hother with
            | inl h => rw [h]; exact hself
            | inr h => exact hextends.scheduled other (hlisted other h)
          obtain ⟨order, last, hsettles, hextends', hlone', hsearch', hplanned', hlisted', hnotes',
            -⟩ :=
            ih (nodes.card - (id :: visited).length) (by rw [List.length_cons]; omega) hsearch'
              hfound' hplanned' hlisted' hextends.world hlone'
              (hextends.batchRunningSteps.trans hbatch) rfl
          have hvisited : (id :: order).reverse ++ visited = order.reverse ++ id :: visited := by
            rw [List.reverse_cons, List.append_assoc]
            rfl
          rw [← hvisited] at hsearch' hplanned' hlisted'
          refine ⟨id :: order, last, Settles.round hround ?_, hextends.trans hextends', hlone',
            hsearch', hplanned', hlisted', hnotes.trans hnotes', rfl⟩
          rw [List.map_append] at hsettles
          exact hsettles

/-- `add` returns, and the board then has a card for every step that can be reached, beside those
that it had before. -/
theorem add_plans (hsimple : setting.Simple) (root : StepId)
    (hfinite : Set.Finite {id | Leads (setting.nextSteps w.world) root id})
    (hlone : Scheduler.Lone setting.worker w.scheduler) (hbatch : w.batchRunningSteps = ∅)
    (hbefore : ∀ id, before id → id ∈ w.scheduledSteps ∧
      setting.board w id = some ((setting.planOf w.world id).card none))
    (hblank : ∀ id, ¬before id → setting.board w id = none) :
    ∃ answer w', Settles (fun fuel => setting.add fuel root) w answer w' ∧ w.Extends w' ∧
      Scheduler.Lone setting.worker w'.scheduler ∧
      (answer = true ↔ ∀ id, Leads (setting.nextSteps w.world) root id →
        ¬setting.Fails w.world id) ∧
      (∀ id, before id ∨ Leads (setting.nextSteps w.world) root id → id ∈ w'.scheduledSteps ∧
        setting.board w' id = some ((setting.planOf w.world id).card none)) ∧
      (∀ id, ¬(before id ∨ Leads (setting.nextSteps w.world) root id) →
        setting.board w' id = none) ∧
      ∃ order : List StepId, w.Notes w' (order.map (setting.planNote w.world)) ∧
        order.head? = some root ∧ ∀ id, id ∈ order ↔ Leads (setting.nextSteps w.world) root id := by
  set nodes := Set.Finite.toFinset hfinite with hnodes
  have hmem : ∀ {id}, id ∈ nodes ↔ Leads (setting.nextSteps w.world) root id := fun {id} =>
    Set.Finite.mem_toFinset hfinite
  have hclosed : ∀ id ∈ nodes,
      ∀ dep ∈ (setting.recalling fun _ => false).nextSteps w.world id, dep ∈ nodes :=
    fun id hid dep hdep => hmem.mpr ((hmem.mp hid).tail hdep)
  obtain ⟨cache, hcheck⟩ := hsimple.checkComplete { w with addSucceeded := true } root
  set first : Session σ := { w with
    addSucceeded := true
    checks := w.checks ++ [root]
    completionCache := cache } with hfirst
  have hextends : w.Extends first := ⟨rfl, rfl, rfl, rfl, rfl, rfl, rfl, rfl, fun _ h => h⟩
  have hseen : ∀ id, id ∈ OrderedSet.empty.add root ↔ id ∈ [] ++ [root] := by
    intro id
    rw [OrderedSet.mem_add, List.nil_append, List.mem_singleton]
    exact or_iff_left (OrderedSet.not_mem_empty id)
  obtain ⟨order, last, hsettles, hextends', hlone', hsearch, hplanned, hlisted, hnotes, hhead⟩ :=
    explore_plans (w := first) hsimple (hmem.mpr .refl) hclosed (.start _ root) hseen
      (.start (fun id hid => (hbefore id hid).2) hblank [root])
      (fun _ h => absurd h List.not_mem_nil) rfl hlone hbatch
  obtain ⟨reported, checked, last', hsettles', hadds, hsearch', -⟩ :=
    explore_adds (w := first) (welcomes_sound setting.env) (by rw [hsimple.config])
      (fun id _ => hsimple.enabled id) (hmem.mpr .refl) hclosed (.start _ root) hseen rfl hlone.sound
      fun id _ => hsimple.knows first.completionCache id
  obtain ⟨-, rfl⟩ := hsettles.unique hsettles'
  obtain ⟨bound, hrun⟩ := hsettles
  have hreported : ∀ id, id ∈ reported ↔ Leads (setting.nextSteps w.world) root id := by
    intro id
    rw [List.append_nil] at hsearch'
    rw [← List.mem_reverse]
    exact hsearch'.mem_visited id
  rw [List.append_nil] at hsearch hplanned hlisted
  have hnotes : w.Notes last (order.map (setting.planNote w.world)) :=
    ⟨hnotes.history, hnotes.responses⟩
  refine ⟨last.addSucceeded, last, ⟨bound, fun fuel hfuel => ?_⟩, hextends.trans hextends', hlone',
    ?_, fun id hid => ?_, fun id hid => ?_, order, hnotes, hhead, fun id => ?_⟩
  · unfold add
    rw [exec_modify_bind]
    refine (exec_bind_ok hcheck).trans ?_
    exact (exec_bind_ok (exec_tryCatch_ok (hrun fuel hfuel))).trans rfl
  · rw [hadds.succeeded, and_iff_right rfl]
    push Not
    exact forall_congr' fun id => imp_congr_left (hreported id)
  · have hvisited := hid.imp_right (hsearch.mem_visited id).mpr
    refine ⟨?_, hplanned.planned id hvisited⟩
    cases hvisited with
    | inl h => exact (hextends.trans hextends').scheduled id (hbefore id h).1
    | inr h => exact hlisted id h
  · by_contra hrow
    have hknown := hplanned.known id hrow
    rw [List.append_nil] at hknown
    exact hid (hknown.imp_right (hsearch.mem_visited id).mp)
  · rw [← List.mem_reverse]
    exact hsearch.mem_visited id

end Setting

end Trun
