import Mathlib.Data.List.Induction
import Mathlib.Data.String.Basic
import Mathlib.Logic.Relation
import Trun.Register.Namespaces

/-!
# Step classes by name

The register lists the step classes in the order of their definitions.  The
class of a name is found by folding over that list: a class takes the place of
one that it is derived from, and a mark takes the place of both where it is not.
-/

namespace Trun.Names

open Relation

/-- Classes with their bases. -/
structure Hierarchy (C : Type) where
  bases : C → List C
  about : C → StepClass
  visibleInRegistry : C → Bool
  issubclass : C → C → Bool
  issubclass_iff : ∀ c d, issubclass c d = true ↔ ReflTransGen (fun c d => d ∈ bases c) c d

/-- What the register holds for a name: a class, or `AMBIGUOUS_CLASS`. -/
inductive Entry (C : Type) where
  | ambiguousClass
  | cls (stepCls : C)
  deriving DecidableEq

section Model

variable {C : Type} (h : Hierarchy C)

def Hierarchy.getStepFamily (c : C) : String := (h.about c).getStepFamily

/-- What `_get_reg` writes for a name that has an entry or none. -/
def nextEntry (entry : Option (Entry C)) (stepCls : C) : Entry C :=
  match entry with
  | some .ambiguousClass => .ambiguousClass
  | some (.cls other) => if h.issubclass stepCls other then .cls stepCls else .ambiguousClass
  | none => .cls stepCls

/-- The body of the loop of `_get_reg`. -/
def register (reg : Dict String (Entry C)) (stepCls : C) : Dict String (Entry C) :=
  if h.visibleInRegistry stepCls then
    let name := h.getStepFamily stepCls
    reg.set name (nextEntry h (reg.get? name) stepCls)
  else reg

def getReg (reg : List C) : Dict String (Entry C) := reg.foldl (register h) ∅

def stepNames (reg : List C) : List String :=
  (getReg h reg).keys.mergeSort fun name other => name ≤ other

def stepsStr (reg : List C) : String := ",".intercalate (stepNames h reg)

/-- `a[i] is b[j]`: only the characters of Latin-1 are kept as objects. -/
def isSameObject (x y : Char) : Bool := x = y && x.toNat < 256

/-- A row of the table of `_editdistance`, from the row above it. -/
def nextRow (x : Char) (left : ℕ) : List Char → List ℕ → List ℕ
  | y :: b, diagonal :: up :: above =>
      let cost := if isSameObject x y then 0 else 1
      let distance := min (left + 1) (min (up + 1) (diagonal + cost))
      distance :: nextRow x distance b (up :: above)
  | _, _ => []

/-- `_editdistance`.  The last row starts as zeros. -/
def editdistance (a b : List Char) : ℕ :=
  let rows := a.zipIdx.foldl
    (fun rows item =>
      let row := (item.2 + 1) :: nextRow item.1 (item.2 + 1) b rows.1
      (row, row))
    (List.range (b.length + 1), List.replicate (b.length + 1) 0)
  rows.2.getD b.length 0

def missingStepMsg (reg : List C) (stepName : String) : String :=
  let weightedSteps := (stepNames h reg).map fun other =>
    (editdistance stepName.toList other.toList, other)
  let orderedSteps := weightedSteps.mergeSort fun step other => step.1 ≤ other.1
  let candidates := (orderedSteps.filter fun step => step.1 ≤ 5 && step.1 < step.2.length).map
    Prod.snd
  if candidates.isEmpty then "No step " ++ stepName ++ ". Candidates are: " ++ stepsStr h reg
  else "No step " ++ stepName ++ ". Did you mean:\n" ++ "\n".intercalate candidates

/-- The exceptions of `get_step_cls`. -/
inductive StepClassException where
  | notFound (message : String)
  /-- `'Step %r is ambiguous' % name` -/
  | ambiguous (name : String)
  deriving DecidableEq

def getStepCls (reg : List C) (name : String) : Except StepClassException C :=
  match (getReg h reg).get? name with
  | none => .error (.notFound (missingStepMsg h reg name))
  | some .ambiguousClass => .error (.ambiguous name)
  | some (.cls stepCls) => .ok stepCls

example : editdistance "MyStep".toList "MyStpe".toList = 2 := by decide

/-- The classes come after their bases. -/
def BasesFirst (reg : List C) : Prop :=
  reg.Pairwise fun earlier later => h.issubclass earlier later = false

/-- A class that can be found by the name. -/
def Bears (reg : List C) (name : String) (c : C) : Prop :=
  c ∈ reg ∧ h.visibleInRegistry c = true ∧ h.getStepFamily c = name

/-- Two classes of the name of which neither is derived from the other. -/
def Unrelated (reg : List C) (name : String) : Prop :=
  ∃ c d, Bears h reg name c ∧ Bears h reg name d ∧
    h.issubclass c d = false ∧ h.issubclass d c = false

/-- A class of the name that is derived from all others. -/
def MostDerived (reg : List C) (name : String) (c : C) : Prop :=
  Bears h reg name c ∧ ∀ d, Bears h reg name d → h.issubclass c d = true

/-- What the entry of a name says of the classes. -/
def Holds (reg : List C) (name : String) : Option (Entry C) → Prop
  | none => ∀ c, ¬Bears h reg name c
  | some .ambiguousClass => Unrelated h reg name
  | some (.cls c) => MostDerived h reg name c ∧ ¬Unrelated h reg name

end Model

section Lookup

variable {C : Type} {h : Hierarchy C} {reg other : List C} {name : String} {c d : C}

theorem issubclass_refl (h : Hierarchy C) (c : C) : h.issubclass c c = true :=
  (h.issubclass_iff c c).mpr .refl

theorem issubclass_trans {e : C} (hc : h.issubclass c d = true) (hd : h.issubclass d e = true) :
    h.issubclass c e = true :=
  (h.issubclass_iff c e).mpr
    (((h.issubclass_iff c d).mp hc).trans ((h.issubclass_iff d e).mp hd))

theorem bears_concat : Bears h (reg ++ [c]) name d ↔ Bears h reg name d ∨
    d = c ∧ h.visibleInRegistry c = true ∧ h.getStepFamily c = name := by
  simp only [Bears, List.mem_append, List.mem_singleton, or_and_right]
  constructor
  · rintro (hd | ⟨rfl, hd⟩)
    · exact .inl hd
    · exact .inr ⟨rfl, hd⟩
  · rintro (hd | ⟨rfl, hd⟩)
    · exact .inl hd
    · exact .inr ⟨rfl, hd⟩

/-- Only the classes that bear a name matter for its entry. -/
theorem holds_congr (hbears : ∀ d, Bears h reg name d ↔ Bears h other name d)
    (entry : Option (Entry C)) : Holds h reg name entry ↔ Holds h other name entry := by
  cases entry with
  | none => simp only [Holds, hbears]
  | some entry =>
      cases entry with
      | ambiguousClass => simp only [Holds, Unrelated, hbears]
      | cls c => simp only [Holds, MostDerived, Unrelated, hbears]

theorem get?_register (table : Dict String (Entry C)) (c : C) (name : String) :
    (register h table c).get? name =
      if h.visibleInRegistry c = true ∧ h.getStepFamily c = name then
        some (nextEntry h (table.get? name) c)
      else table.get? name := by
  unfold register
  by_cases hvisible : h.visibleInRegistry c = true
  · rw [if_pos hvisible, Dict.get?_set]
    by_cases hname : h.getStepFamily c = name
    · subst hname
      rw [if_pos rfl, if_pos ⟨hvisible, rfl⟩]
    · rw [if_neg fun heq => hname heq.symm, if_neg fun hboth => hname hboth.2]
  · rw [if_neg hvisible, if_neg fun hboth => hvisible hboth.1]

/-- One more class of a name. -/
theorem holds_concat {entry : Option (Entry C)} (hholds : Holds h reg name entry)
    (hlater : ∀ d ∈ reg, h.issubclass d c = false) (hvisible : h.visibleInRegistry c = true)
    (hname : h.getStepFamily c = name) :
    Holds h (reg ++ [c]) name (some (nextEntry h entry c)) := by
  have hnew : Bears h (reg ++ [c]) name c := bears_concat.mpr (.inr ⟨rfl, hvisible, hname⟩)
  have hold : ∀ {d}, Bears h reg name d → Bears h (reg ++ [c]) name d := fun hd =>
    bears_concat.mpr (.inl hd)
  -- a class below all classes of the name is related to all of them
  have hbelow : (∀ d, Bears h reg name d → h.issubclass c d = true) →
      ¬Unrelated h reg name →
      MostDerived h (reg ++ [c]) name c ∧ ¬Unrelated h (reg ++ [c]) name := by
    intro hall hrelated
    have hmost : ∀ d, Bears h (reg ++ [c]) name d → h.issubclass c d = true := by
      intro d hd
      cases bears_concat.mp hd with
      | inl hd => exact hall d hd
      | inr heq =>
          rw [heq.1]
          exact issubclass_refl h c
    refine ⟨⟨hnew, hmost⟩, ?_⟩
    rintro ⟨d, e, hd, he, hde, hed⟩
    cases bears_concat.mp hd with
    | inr heq =>
        rw [heq.1, hmost e he] at hde
        cases hde
    | inl hd' =>
        cases bears_concat.mp he with
        | inr heq =>
            rw [heq.1, hmost d hd] at hed
            cases hed
        | inl he' => exact hrelated ⟨d, e, hd', he', hde, hed⟩
  cases entry with
  | none =>
      refine hbelow (fun d hd => absurd hd (hholds d)) ?_
      rintro ⟨d, -, hd, -⟩
      exact hholds d hd
  | some entry =>
      cases entry with
      | ambiguousClass =>
          obtain ⟨d, e, hd, he, hunrelated⟩ := hholds
          exact ⟨d, e, hold hd, hold he, hunrelated⟩
      | cls winner =>
          obtain ⟨hwinner, hrelated⟩ := hholds
          by_cases hsub : h.issubclass c winner = true
          · rw [nextEntry, if_pos hsub]
            exact hbelow (fun d hd => issubclass_trans hsub (hwinner.2 d hd)) hrelated
          · rw [nextEntry, if_neg hsub]
            exact ⟨c, winner, hnew, hold hwinner.1, Bool.eq_false_iff.mpr hsub,
              hlater winner hwinner.1.1⟩

theorem holds_getReg (hreg : BasesFirst h reg) (name : String) :
    Holds h reg name ((getReg h reg).get? name) := by
  induction reg using List.reverseRecOn with
  | nil =>
      rintro c ⟨hmem, -⟩
      cases hmem
  | append_singleton reg c ih =>
      rw [BasesFirst, List.pairwise_append] at hreg
      obtain ⟨hreg, -, hlater⟩ := hreg
      have hholds := ih hreg
      rw [getReg, List.foldl_append, List.foldl_cons, List.foldl_nil, get?_register]
      by_cases hbears : h.visibleInRegistry c = true ∧ h.getStepFamily c = name
      · rw [if_pos hbears]
        exact holds_concat hholds (fun d hd => hlater d hd c (List.mem_singleton_self c))
          hbears.1 hbears.2
      · rw [if_neg hbears]
        refine (holds_congr ?_ _).mp hholds
        intro d
        rw [bears_concat]
        exact ⟨.inl, fun hd => hd.resolve_right fun hnew => hbears hnew.2⟩

theorem Bears.perm (hperm : reg.Perm other) :
    Bears h reg name c ↔ Bears h other name c := by
  rw [Bears, Bears, hperm.mem_iff]

/-- Of two classes in the register one comes first, and is not derived from the other. -/
theorem MostDerived.unique (hreg : BasesFirst h reg) (hc : MostDerived h reg name c)
    (hd : MostDerived h reg name d) : c = d := by
  by_contra hne
  have hone : h.issubclass c d = false ∨ h.issubclass d c = false := by
    obtain ⟨i, hi, rfl⟩ := List.getElem_of_mem hc.1.1
    obtain ⟨j, hj, rfl⟩ := List.getElem_of_mem hd.1.1
    rw [BasesFirst, List.pairwise_iff_getElem] at hreg
    rcases lt_trichotomy i j with hlt | heq | hgt
    · exact .inl (hreg i j hi hj hlt)
    · subst heq
      exact absurd rfl hne
    · exact .inr (hreg j i hj hi hgt)
  cases hone with
  | inl hcd =>
      rw [hc.2 d hd.1] at hcd
      cases hcd
  | inr hdc =>
      rw [hd.2 c hc.1] at hdc
      cases hdc

/-- What the classes of a name are determines its entry. -/
theorem Holds.unique (hreg : BasesFirst h reg) {entry entry' : Option (Entry C)}
    (hentry : Holds h reg name entry) (hentry' : Holds h reg name entry') : entry = entry' := by
  have hnone : (∀ c, ¬Bears h reg name c) → ¬Unrelated h reg name := by
    rintro hnone ⟨c, -, hc, -⟩
    exact hnone c hc
  rcases entry with _ | _ | c <;> rcases entry' with _ | _ | d
  · rfl
  · exact absurd hentry' (hnone hentry)
  · exact absurd hentry'.1.1 (hentry d)
  · exact absurd hentry (hnone hentry')
  · rfl
  · exact absurd hentry hentry'.2
  · exact absurd hentry.1.1 (hentry' c)
  · exact absurd hentry' hentry.2
  · rw [hentry.1.unique hreg hentry'.1]

theorem get?_getReg_iff (hreg : BasesFirst h reg) (entry : Option (Entry C)) :
    (getReg h reg).get? name = entry ↔ Holds h reg name entry := by
  constructor
  · intro heq
    rw [← heq]
    exact holds_getReg hreg name
  · exact (holds_getReg hreg name).unique hreg

theorem get?_getReg_perm (hperm : reg.Perm other) (hreg : BasesFirst h reg)
    (hother : BasesFirst h other) : (getReg h reg).get? name = (getReg h other).get? name :=
  (get?_getReg_iff hreg _).mpr
    ((holds_congr (fun _ => Bears.perm hperm.symm) _).mp (holds_getReg hother name))

theorem stepNames_perm (hperm : reg.Perm other) (hreg : BasesFirst h reg)
    (hother : BasesFirst h other) : stepNames h reg = stepNames h other := by
  have hentries : (getReg h reg).entries.Perm (getReg h other).entries :=
    Dict.perm_entries_iff.mpr fun _ => get?_getReg_perm hperm hreg hother
  have hsorted : ∀ names : List String,
      (names.mergeSort fun name other => name ≤ other).Pairwise (· ≤ ·) := by
    intro names
    apply (List.pairwise_mergeSort ?_ ?_ names).imp fun h => of_decide_eq_true h
    · intro a b c hab hbc
      exact decide_eq_true ((of_decide_eq_true hab).trans (of_decide_eq_true hbc))
    · intro a b
      simpa using le_total a b
  apply List.Perm.eq_of_pairwise (fun _ _ _ _ => le_antisymm) (hsorted _) (hsorted _)
  exact (List.mergeSort_perm _ _).trans
    ((hentries.map Prod.fst).trans (List.mergeSort_perm _ _).symm)

/-- A name is ambiguous where two of its classes are unrelated, else stands for the most derived
of them, in whatever order they were registered. -/
theorem getStepCls_spec (h : Hierarchy C) {reg : List C} (hreg : BasesFirst h reg)
    (name : String) :
    ((getReg h reg).get? name = some .ambiguousClass ↔ Unrelated h reg name) ∧
    (∀ c, (getReg h reg).get? name = some (.cls c) ↔
      MostDerived h reg name c ∧ ¬Unrelated h reg name) ∧
    ((getReg h reg).get? name = none ↔ ∀ c, ¬Bears h reg name c) ∧
    (getStepCls h reg name = .error (.ambiguous name) ↔ Unrelated h reg name) ∧
    (∀ c, getStepCls h reg name = .ok c ↔
      MostDerived h reg name c ∧ ¬Unrelated h reg name) ∧
    (getStepCls h reg name = .error (.notFound (missingStepMsg h reg name)) ↔
      ∀ c, ¬Bears h reg name c) ∧
    ∀ other, reg.Perm other → BasesFirst h other →
      getStepCls h other name = getStepCls h reg name := by
  have hentry : ∀ entry, (getReg h reg).get? name = entry ↔ Holds h reg name entry :=
    get?_getReg_iff hreg
  refine ⟨hentry _, fun c => hentry _, hentry _, ?_, ?_, ?_, ?_⟩
  · refine Iff.trans ?_ (hentry (some .ambiguousClass))
    rw [getStepCls]
    rcases (getReg h reg).get? name with _ | _ | c <;> simp
  · intro c
    refine Iff.trans ?_ (hentry (some (.cls c)))
    rw [getStepCls]
    rcases (getReg h reg).get? name with _ | _ | c <;> simp
  · refine Iff.trans ?_ (hentry none)
    rw [getStepCls]
    rcases (getReg h reg).get? name with _ | _ | c <;> simp
  · intro other hperm hother
    rw [getStepCls, getStepCls, get?_getReg_perm hperm hreg hother, missingStepMsg, missingStepMsg,
      stepsStr, stepsStr, stepNames_perm hperm hreg hother]

end Lookup

/-- A base with two classes of one name. -/
def twins : Hierarchy (Fin 3) where
  bases c := if c = 0 then [] else [0]
  about c := ⟨if c = 0 then "Base" else "Load", "steps", none, ""⟩
  visibleInRegistry _ := true
  issubclass c d := c = d || d = 0
  issubclass_iff := by
    intro c d
    constructor
    · intro hsub
      by_cases heq : c = d
      · rw [heq]
      · have hzero : d = 0 := by simpa [heq] using hsub
        subst hzero
        exact .single (by rw [if_neg heq]; exact List.mem_singleton_self 0)
    · intro hpath
      induction hpath with
      | refl => simp
      | @tail d e _ hstep _ =>
          by_cases hd : d = 0
          · rw [if_pos hd] at hstep
            cases hstep
          · rw [if_neg hd, List.mem_singleton] at hstep
            simp [hstep]

theorem basesFirst_twins : BasesFirst twins [0, 1, 2] := by
  unfold BasesFirst
  decide

theorem getStepCls_twins : BasesFirst twins [0, 1, 2] ∧
    getStepCls twins [0, 1, 2] "Load" = .error (.ambiguous "Load") ∧
    getStepCls twins [0, 1, 2] "Base" = .ok 0 := by
  refine ⟨basesFirst_twins, ?_, ?_⟩
  · apply (getStepCls_spec twins basesFirst_twins "Load").2.2.2.1.mpr
    exact ⟨1, 2, ⟨by decide, rfl, rfl⟩, ⟨by decide, rfl, rfl⟩, by decide, by decide⟩
  · rfl

end Trun.Names
