import Mathlib.Data.List.Sort
import Mathlib.Data.String.Basic
import Trun.Program.BreadthFirst
import Trun.Program.Fuel
import Trun.Scheduler.Answering

/-!
# Views of the dependency graph

`_traverse_graph` goes through the graph breadth first and stops at a number
of nodes.  An id without a step, or with one that nobody has scheduled yet and
that has no family, is shown but not followed.
-/

namespace Trun

/-- What `_serialize_step` returns, less the names and the parameters. -/
structure SerializedStep where
  status : Status
  workers : List WorkerId
  workerRunning : Option WorkerId
  timeRunning : Option Time
  startTime : Time
  lastUpdated : Time
  name : Family
  priority : Int
  resources : Resources
  resourcesRunning : Option Resources
  trackingUrl : Option String
  statusMessage : Option String
  progressPercentage : Option Int
  /-- Only for a `DISABLED` step. -/
  reEnableAble : Option Bool
  deps : List StepId
  /-- Only for a `RUNNING` step, and with `send_messages`. -/
  acceptsMessages : Option Bool
  deriving DecidableEq

inductive GraphNode where
  /-- There is nothing to say but a family that is read from the id. -/
  | missing (name : Family)
  | step (entry : SerializedStep)
  deriving DecidableEq

def Step.serialize (step : Step) (sendMessages : Bool) (deps : List StepId) : SerializedStep where
  status := step.status
  workers := step.workers.elems
  workerRunning := step.workerRunning
  timeRunning := step.timeRunning
  startTime := step.time
  lastUpdated := step.updated
  name := step.family
  priority := step.priority
  resources := step.resources
  resourcesRunning := step.resourcesRunning
  trackingUrl := step.trackingUrl
  statusMessage := step.statusMessage
  progressPercentage := step.progressPercentage
  reEnableAble :=
    if step.status = .disabled then some step.schedulerDisableTime.isSome else none
  deps := deps
  acceptsMessages :=
    if sendMessages = true ∧ step.status = .running then some step.acceptsMessages else none

/-- The match of `STEP_FAMILY_RE`, or `UNKNOWN`. -/
def familyOf (id : StepId) : Family :=
  let family := id.toList.takeWhile fun c => c ≠ '(' ∧ c ≠ '_'
  if family ≠ [] ∧ family.length < id.toList.length then String.ofList family else "UNKNOWN"

/-- `dep_func`.  The inverse graph holds builtin sets, which come out in some order. -/
inductive DepFunc where
  | deps
  | inverse (order : HashOrder StepId)

structure GraphView where
  depFunc : DepFunc := .deps
  includeDone : Bool := true
  sendMessages : Bool := false
  maxGraphNodes : ℕ := 100000

namespace Scheduler

def inverseGraph (s : Scheduler) : Dict StepId (OrderedSet StepId) :=
  s.activeSteps.foldl
    (fun graph ref => (s.stepAt ref).deps.elems.foldl
      (fun graph dep => graph.modify dep ∅ (·.add (s.stepAt ref).id)) graph) ∅

def depFunc (s : Scheduler) (step : Step) : DepFunc → List StepId
  | .deps => step.deps.elems
  | .inverse order => ((s.inverseGraph.getD step.id ∅).rehash order).elems

def filterDone (s : Scheduler) (ids : List StepId) : List StepId :=
  ids.filter fun id => !s.isDone id

def neighbours (s : Scheduler) (view : GraphView) (step : Step) : List StepId :=
  if view.includeDone then s.depFunc step view.depFunc
  else s.filterDone (s.depFunc step view.depFunc)

/-- The node of an id, and the neighbours that are followed from there. -/
def visitNode (s : Scheduler) (view : GraphView) (id : StepId) : GraphNode × List StepId :=
  match s.getStep id with
  | none => (.missing (familyOf id), [])
  | some ref =>
    let step := s.stepAt ref
    if step.family = "" then (.missing (familyOf id), [])
    else
      let deps := s.neighbours view step
      (.step (step.serialize view.sendMessages deps), deps)

/-- The loop over `sorted(deps)`. -/
def enqueue (deps : List StepId) (seen : Finset StepId) (queue : List StepId) :
    Finset StepId × List StepId :=
  (deps.insertionSort (· ≤ ·)).foldl
    (fun found dep =>
      if dep ∈ found.1 then found else (insert dep found.1, found.2 ++ [dep])) (seen, queue)

/-- The loop of `_traverse_graph`. -/
def traverseFrom (s : Scheduler) (view : GraphView) : ℕ → List StepId → Finset StepId →
    Dict StepId GraphNode → Option (Dict StepId GraphNode × Finset StepId)
  | 0, _, _, _ => none
  | _ + 1, [], seen, serialized => some (serialized, seen)
  | fuel + 1, id :: queue, seen, serialized =>
    let visited := s.visitNode view id
    let found := enqueue visited.2 seen queue
    let serialized := serialized.set id visited.1
    if view.maxGraphNodes ≤ serialized.size then some (serialized, found.1)
    else s.traverseFrom view fuel found.2 found.1 serialized

/-- `_traverse_graph`, with the ids that it has seen. -/
def traverseGraph (s : Scheduler) (view : GraphView) (fuel : ℕ) (root : StepId)
    (seen : Finset StepId) : Option (Dict StepId GraphNode × Finset StepId) :=
  if root ∈ seen then some (∅, seen) else s.traverseFrom view fuel [root] (insert root seen) ∅

/-- `dep_graph` and `inverse_dep_graph`, after pruning. -/
def depGraph (s : Scheduler) (view : GraphView) (fuel : ℕ) (root : StepId) :
    Option (Dict StepId GraphNode) :=
  if s.getStep root = none then some ∅ else (s.traverseGraph view fuel root ∅).map Prod.fst

/-! ## The graph of a view -/

def linked (s : Scheduler) (view : GraphView) (id : StepId) : List StepId :=
  match s.getStep id with
  | none => []
  | some ref => s.neighbours view (s.stepAt ref)

/-- The neighbours that are followed: those of steps with a family. -/
def followed (s : Scheduler) (view : GraphView) (id : StepId) : List StepId :=
  match s.getStep id with
  | none => []
  | some ref => if (s.stepAt ref).family = "" then [] else s.neighbours view (s.stepAt ref)

section Views

variable {s : Scheduler} {view : GraphView} {id root : StepId} {deps queue visited : List StepId}
  {seen : Finset StepId}

theorem visitNode_snd : (s.visitNode view id).2 = s.followed view id := by
  rw [visitNode, followed]
  cases s.getStep id with
  | none => rfl
  | some ref =>
      dsimp only
      split <;> rfl

/-- What is queued are the neighbours that were not seen. -/
theorem enqueue_spec (deps : List StepId) (seen : Finset StepId) (queue : List StepId) :
    ∃ new, (enqueue deps seen queue).2 = queue ++ new ∧ new.Nodup ∧
      (∀ y, y ∈ new ↔ y ∈ deps ∧ y ∉ seen) ∧
      ∀ y, y ∈ (enqueue deps seen queue).1 ↔ y ∈ seen ∨ y ∈ new := by
  rw [enqueue]
  have hmem : ∀ y, y ∈ deps.insertionSort (· ≤ ·) ↔ y ∈ deps := fun y => List.mem_insertionSort _
  simp only [← hmem]
  generalize deps.insertionSort (· ≤ ·) = sorted
  induction sorted generalizing seen queue with
  | nil => exact ⟨[], by simp⟩
  | cons dep sorted ih =>
      rw [List.foldl_cons]
      by_cases hseen : dep ∈ seen
      · rw [if_pos hseen]
        obtain ⟨new, hqueue, hnodup, hnew, hfound⟩ := ih seen queue
        refine ⟨new, hqueue, hnodup, fun y => ?_, hfound⟩
        rw [hnew, List.mem_cons]
        constructor
        · exact fun h => ⟨.inr h.1, h.2⟩
        · rintro ⟨rfl | hmem, hy⟩
          · exact absurd hseen hy
          · exact ⟨hmem, hy⟩
      · rw [if_neg hseen]
        obtain ⟨new, hqueue, hnodup, hnew, hfound⟩ := ih (insert dep seen) (queue ++ [dep])
        refine ⟨dep :: new, ?_, ?_, fun y => ?_, fun y => ?_⟩
        · rw [hqueue, List.append_assoc, List.singleton_append]
        · rw [List.nodup_cons]
          exact ⟨fun hmem => ((hnew dep).mp hmem).2 (Finset.mem_insert_self ..), hnodup⟩
        · rw [List.mem_cons, hnew, List.mem_cons, Finset.mem_insert, not_or]
          constructor
          · rintro (rfl | ⟨hmem, -, hy⟩)
            · exact ⟨.inl rfl, hseen⟩
            · exact ⟨.inr hmem, hy⟩
          · rintro ⟨rfl | hmem, hy⟩
            · exact .inl rfl
            · by_cases heq : y = dep
              · exact .inl heq
              · exact .inr ⟨hmem, heq, hy⟩
        · rw [hfound, Finset.mem_insert, List.mem_cons]
          tauto

theorem exists_nodes (s : Scheduler) (view : GraphView) (root : StepId) :
    ∃ nodes : Finset StepId, root ∈ nodes ∧ ∀ x ∈ nodes, ∀ y ∈ s.followed view x, y ∈ nodes := by
  refine ⟨(root :: s.steps.keys.flatMap (s.followed view)).toFinset,
    List.mem_toFinset.mpr (List.mem_cons_self ..), fun x _ y hy => ?_⟩
  rw [List.mem_toFinset]
  refine List.mem_cons_of_mem _ (List.mem_flatMap.mpr ⟨x, ?_, hy⟩)
  rw [s.steps.mem_keys_iff]
  cases hget : s.getStep x with
  | none =>
      rw [followed, hget] at hy
      cases hy
  | some ref => exact ⟨ref, hget⟩

theorem keys_set_new {serialized : Dict StepId GraphNode}
    (hkeys : serialized.keys = visited.reverse) (hid : id ∉ visited) (node : GraphNode) :
    (serialized.set id node).keys = (id :: visited).reverse := by
  have hnew : serialized.get? id = none := by
    by_contra hne
    obtain ⟨value, hvalue⟩ := Option.ne_none_iff_exists'.mp hne
    have hmem := (serialized.mem_keys_iff id).mpr ⟨value, hvalue⟩
    rw [hkeys, List.mem_reverse] at hmem
    exact hid hmem
  rw [Dict.keys, Dict.entries_set_new node hnew, List.map_append, List.reverse_cons, ← hkeys]
  rfl

/-- The loop ends with a nearest part of the graph, by induction on what is left of it. -/
theorem traverseFrom_spec {nodes : Finset StepId} (hroot : root ∈ nodes)
    (hnodes : ∀ x ∈ nodes, ∀ y ∈ s.followed view x, y ∈ nodes)
    (hbreadth : Breadth (s.followed view) root visited queue)
    {serialized : Dict StepId GraphNode} (hkeys : serialized.keys = visited.reverse)
    (hseen : ∀ y, y ∈ seen ↔ y ∈ visited ++ queue) (hlimit : visited.length < view.maxGraphNodes) :
    ∃ result, Program.Yields (fun fuel => s.traverseFrom view fuel queue seen serialized) result ∧
      NearestPart (s.followed view) root view.maxGraphNodes result.1.keys := by
  obtain ⟨left, hleft⟩ : ∃ left, nodes.card - visited.length = left := ⟨_, rfl⟩
  induction left using Nat.strongRecOn generalizing visited queue seen serialized with
  | ind left ih =>
  cases queue with
  | nil =>
      refine ⟨(serialized, seen), .succ (fun _ => rfl) (.of_eq fun _ => rfl), ?_⟩
      rw [hkeys]
      exact (hbreadth.nearestPart hroot hnodes hlimit.le (.inl rfl)).perm
        visited.reverse_perm.symm
  | cons id queue =>
      obtain ⟨new, hqueue, hnodup, hnew, hfound⟩ :=
        enqueue_spec (s.visitNode view id).2 seen queue
      have hid : id ∉ visited := fun hmem =>
        (List.nodup_append.mp hbreadth.nodup).2.2 id hmem id (List.mem_cons_self ..) rfl
      have hnext := hbreadth.visit hnodup fun y => by rw [hnew, visitNode_snd, hseen]
      have hkeys' := keys_set_new hkeys hid (s.visitNode view id).1
      have hsize : (serialized.set id (s.visitNode view id).1).size = visited.length + 1 := by
        rw [← List.length_cons, ← List.length_reverse, ← hkeys', Dict.size, Dict.keys,
          List.length_map]
      by_cases hfull : view.maxGraphNodes ≤ visited.length + 1
      · refine ⟨(serialized.set id (s.visitNode view id).1,
          (enqueue (s.visitNode view id).2 seen queue).1), .succ (fun fuel => ?_)
            (.of_eq fun _ => rfl), ?_⟩
        · rw [traverseFrom, hsize, if_pos hfull]
        · rw [hkeys']
          have hend : (id :: visited).length = view.maxGraphNodes := by
            rw [List.length_cons]
            omega
          exact (hnext.nearestPart hroot hnodes hend.le (.inr hend)).perm
            (List.reverse_perm _).symm
      · have hseen' : ∀ y, y ∈ (enqueue (s.visitNode view id).2 seen queue).1 ↔
            y ∈ id :: visited ++ (queue ++ new) := by
          intro y
          rw [hfound, hseen]
          simp only [List.mem_append, List.mem_cons]
          tauto
        have hlt := hbreadth.length_lt hroot hnodes
        obtain ⟨result, hresult, hpart⟩ := ih (nodes.card - (id :: visited).length)
          (by rw [List.length_cons]; omega) hnext hkeys' hseen'
          (by rw [List.length_cons]; omega) rfl
        refine ⟨result, .succ (fun fuel => ?_) hresult, hpart⟩
        rw [traverseFrom, hsize, if_neg hfull, hqueue]

theorem traverseFrom_root (s : Scheduler) (view : GraphView) (root : StepId)
    (hlimit : 1 ≤ view.maxGraphNodes) :
    ∃ result, Program.Yields (fun fuel => s.traverseFrom view fuel [root] {root} ∅) result ∧
      NearestPart (s.followed view) root view.maxGraphNodes result.1.keys := by
  obtain ⟨nodes, hroot, hnodes⟩ := s.exists_nodes view root
  have hseen : ∀ y, y ∈ ({root} : Finset StepId) ↔ y ∈ [] ++ [root] := by
    intro y
    rw [Finset.mem_singleton, List.nil_append, List.mem_singleton]
  exact traverseFrom_spec hroot hnodes (.start _ root) rfl hseen hlimit

/-- A view shows a nearest part of the graph, in which only known steps with a family are
followed. -/
theorem traverseGraph_nearest (s : Scheduler) (view : GraphView) (root : StepId)
    (hlimit : 1 ≤ view.maxGraphNodes) :
    ∃ result, (∃ rounds, ∀ fuel, rounds ≤ fuel →
        s.traverseGraph view fuel root ∅ = some result) ∧
      NearestPart (s.followed view) root view.maxGraphNodes result.1.keys :=
  s.traverseFrom_root view root hlimit

/-- The same for the view of a known step that the handlers return. -/
theorem depGraph_nearest (hroot : s.getStep root ≠ none) (hlimit : 1 ≤ view.maxGraphNodes) :
    ∃ serialized, Program.Yields (fun fuel => s.depGraph view fuel root) serialized ∧
      NearestPart (s.followed view) root view.maxGraphNodes serialized.keys := by
  obtain ⟨result, ⟨bound, hresult⟩, hpart⟩ := s.traverseFrom_root view root hlimit
  refine ⟨result.1, ⟨bound, fun fuel hfuel => ?_⟩, hpart⟩
  have hrun : s.traverseGraph view fuel root ∅ = some result := hresult fuel hfuel
  dsimp only
  rw [depGraph, if_neg hroot, hrun, Option.map_some]

end Views

end Scheduler

open Scheduler

/-- A worker schedules a step that requires another one. -/
def requiringRun : List Event :=
  [ requestAt 1 (.addStep { worker := firstWorker, stepId := "a", family := "A"
                            deps := some ["b"] }) ]

theorem requiring_run_view :
    ∃ result, (∃ rounds, ∀ fuel, rounds ≤ fuel →
        (defaultEnv.run (.initial ∅) requiringRun).traverseGraph {} fuel "a" ∅ = some result) ∧
      NearestPart ((defaultEnv.run (.initial ∅) requiringRun).followed {}) "a" 100000
        result.1.keys :=
  traverseGraph_nearest _ {} "a" (by decide)

/-- The step that requires the other one is not found from there, which has no family yet. -/
theorem requirement_view_stops :
    Timely requiringRun ∧
    ¬∃ result, (∃ rounds, ∀ fuel, rounds ≤ fuel →
        (defaultEnv.run (.initial ∅) requiringRun).traverseGraph
          { depFunc := .inverse .insertion } fuel "b" ∅ = some result) ∧
      NearestPart ((defaultEnv.run (.initial ∅) requiringRun).linked
        { depFunc := .inverse .insertion }) "b" 100000 result.1.keys := by
  refine ⟨by decide, ?_⟩
  rintro ⟨result, hresult, hpart⟩
  let view : GraphView := { depFunc := .inverse .insertion }
  let s := defaultEnv.run (.initial ∅) requiringRun
  have hlinked : "a" ∈ s.linked view "b" := by decide +kernel
  have hfollowed : s.followed view "b" = [] := by decide +kernel
  -- nothing is followed from the root, so the loop stops there
  have hstop : ∀ x, Leads (s.followed view) "b" x → x = "b" := by
    intro x hleads
    cases Relation.ReflTransGen.cases_head hleads with
    | inl heq => exact heq.symm
    | inr hfirst =>
        obtain ⟨y, hy, -⟩ := hfirst
        rw [hfollowed] at hy
        cases hy
  obtain ⟨other, hother, hkept⟩ := s.traverseFrom_root view "b" (by decide)
  obtain rfl : other = result := hother.unique hresult
  have hone : other.1.keys.length = 1 := by
    have hset : {x | Leads (s.followed view) "b" x} = {"b"} := by
      ext x
      exact ⟨hstop x, fun hx => hx ▸ .refl⟩
    rw [hkept.length, hset, Set.ncard_singleton]
    rfl
  have hncard : {x | Leads (s.linked view) "b" x}.ncard = 1 := by
    have hmin : other.1.keys.length = min 100000 {x | Leads (s.linked view) "b" x}.ncard :=
      hpart.length
    omega
  obtain ⟨x, hx⟩ := Set.ncard_eq_one.mp hncard
  have hb : "b" ∈ ({x} : Set StepId) := hx ▸ (.refl : Leads (s.linked view) "b" "b")
  have ha : "a" ∈ ({x} : Set StepId) := hx ▸ (.single hlinked : Leads (s.linked view) "b" "a")
  have heq : "a" = "b" := ha.trans hb.symm
  revert heq
  decide

end Trun
