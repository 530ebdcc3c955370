import Trun.Python.Json
import Trun.Register.Params

/-!
# What a step id tells

An id ends in ten digits that stand for the parameters.  They have a fixed
length, so that they can be cut off.  Once the parameters are known so is the
summary in front of the digits, and what is left is the family.
-/

namespace Trun.Register

/-- The parameters in the order of their names. -/
def sortedParams (params : List (String × String)) : List (String × String) :=
  params.mergeSort fun param other => param.1 ≤ other.1

def paramSummary (params : List (String × String)) : String :=
  replaceInvalid ("_".intercalate
    (((sortedParams params).take 3).map fun param => String.ofList (param.2.toList.take 16)))

def paramStr (printing : Printing) (params : List (String × String)) : String :=
  printing.dumpsParams (sortedParams params)

/-- `param_hash[:10]`. -/
def shortHash (printing : Printing) (text : String) : List Char :=
  (printing.md5 text).toList.take 10

theorem stepIdStr_eq (printing : Printing) (stepFamily : String)
    (params : List (String × String)) :
    stepIdStr printing stepFamily params = stepFamily ++ "_" ++ paramSummary params ++ "_" ++
      String.ofList (shortHash printing (paramStr printing params)) := rfl

/-- The digits are at the end. -/
theorem toList_stepIdStr (printing : Printing) (stepFamily : String)
    (params : List (String × String)) :
    (stepIdStr printing stepFamily params).toList =
      (stepFamily ++ "_" ++ paramSummary params ++ "_").toList ++
        shortHash printing (paramStr printing params) := by
  rw [stepIdStr_eq, String.toList_append, String.toList_ofList]

theorem perm_sortedParams (params : List (String × String)) :
    (sortedParams params).Perm params :=
  List.mergeSort_perm ..

theorem pairwise_sortedParams (params : List (String × String)) :
    (sortedParams params).Pairwise fun param other => param.1 ≤ other.1 := by
  have htrans : ∀ a b c : String × String, decide (a.1 ≤ b.1) = true →
      decide (b.1 ≤ c.1) = true → decide (a.1 ≤ c.1) = true := by
    simp only [decide_eq_true_eq]
    exact fun a b c hab hbc => hab.trans hbc
  have htotal : ∀ a b : String × String, (decide (a.1 ≤ b.1) || decide (b.1 ≤ a.1)) = true := by
    simp only [Bool.or_eq_true, decide_eq_true_eq]
    exact fun a b => le_total a.1 b.1
  exact (List.pairwise_mergeSort htrans htotal params).imp fun h => of_decide_eq_true h

/-- Sorting forgets the order of a dictionary and nothing else. -/
theorem sortedParams_eq_iff {params others : Dict String String} :
    sortedParams params.entries = sortedParams others.entries ↔
      ∀ name, params.get? name = others.get? name := by
  rw [← Dict.perm_entries_iff]
  have hparams := perm_sortedParams params.entries
  have hothers := perm_sortedParams others.entries
  constructor
  · intro hsorted
    apply hparams.symm.trans
    rw [hsorted]
    exact hothers
  · intro hperm
    have hsame := hparams.trans (hperm.trans hothers.symm)
    apply hsame.eq_of_pairwise _ (pairwise_sortedParams _) (pairwise_sortedParams _)
    intro param other hparam hother hle hge
    -- the names are equal, and a dictionary has one value for each
    have hname := le_antisymm hle hge
    have hvalue := (Dict.mem_entries_iff ..).mp (hparams.subset hparam)
    have hvalue' := (Dict.mem_entries_iff ..).mp (hperm.symm.subset (hothers.subset hother))
    rw [hname, hvalue'] at hvalue
    exact Prod.ext hname (Option.some.inj hvalue).symm

/-! ## Families and parameters -/

/-- An id tells the family and the parameters of its step. -/
theorem stepIdStr_eq_iff {printing : Printing} {given : Set String}
    (hdumps : Function.Injective printing.dumpsParams)
    (hlength : ∀ text, (printing.md5 text).length = 32)
    (hhash : Set.InjOn (shortHash printing) given) {stepFamily other : String}
    {params others : Dict String String} (hparams : paramStr printing params.entries ∈ given)
    (hothers : paramStr printing others.entries ∈ given) :
    stepIdStr printing stepFamily params.entries = stepIdStr printing other others.entries ↔
      stepFamily = other ∧ ∀ name, params.get? name = others.get? name := by
  have hten : ∀ text, (shortHash printing text).length = 10 := by
    intro text
    rw [shortHash, List.length_take, String.length_toList, hlength]
    rfl
  rw [← sortedParams_eq_iff]
  constructor
  · intro hid
    have hlists := congrArg String.toList hid
    rw [toList_stepIdStr, toList_stepIdStr] at hlists
    obtain ⟨hfront, hdigits⟩ := List.append_inj' hlists ((hten _).trans (hten _).symm)
    have hsorted := hdumps (hhash hparams hothers hdigits)
    refine ⟨?_, hsorted⟩
    have hsummary : paramSummary params.entries = paramSummary others.entries := by
      rw [paramSummary, hsorted]
      rfl
    rw [String.toList_inj, hsummary, String.append_left_inj, String.append_left_inj,
      String.append_left_inj] at hfront
    exact hfront
  · rintro ⟨rfl, hsorted⟩
    rw [stepIdStr_eq, stepIdStr_eq, paramSummary, paramStr, hsorted]
    rfl

/-- What the digests of the texts below really are. -/
def knownDigests : Printing where
  str _ := ""
  dumps _ := ""
  dumpsParams := Json.dumps
  md5 text :=
    if text = "\x7b\"a\":\"1\",\"b\":\"2\"\x7d" then "8018d630c38e45a64531824279891103"
    else if text = "\x7b\"a\":\"1\",\"b\":\"3\"\x7d" then "4a9e592cdba107e83f904f2bda899a4c"
    else "d41d8cd98f00b204e9800998ecf8427e"

/-- The parameters of `S(a=1, b=b)`. -/
def givenParams (b : String) : Dict String String :=
  ((∅ : Dict String String).set "a" "1").set "b" b

theorem paramStr_givenParams (b : String) : paramStr knownDigests (givenParams b).entries =
    Json.dumps [("a", "1"), ("b", b)] := by
  have hsorted : sortedParams [("a", "1"), ("b", b)] = [("a", "1"), ("b", b)] :=
    List.mergeSort_of_pairwise (by simp)
  exact congrArg Json.dumps hsorted

/-- `S(b=2, a=1)` and `S(a=1, b=2)` are one step, and `S(a=1, b=3)` is another. -/
theorem reordered_params_same_id :
    stepIdStr knownDigests "S" (((∅ : Dict String String).set "b" "2").set "a" "1").entries =
        stepIdStr knownDigests "S" (givenParams "2").entries ∧
      stepIdStr knownDigests "S" (givenParams "2").entries ≠
        stepIdStr knownDigests "S" (givenParams "3").entries := by
  have hget : ∀ name, (((∅ : Dict String String).set "b" "2").set "a" "1").get? name =
      (givenParams "2").get? name := by
    intro name
    by_cases ha : name = "a"
    · simp [givenParams, ha]
    · by_cases hb : name = "b"
      · simp [givenParams, hb]
      · simp [givenParams, ha, hb]
  have hlength : ∀ text, (knownDigests.md5 text).length = 32 := by
    intro text
    simp only [knownDigests]
    split
    · decide
    · split <;> decide
  have hreordered :
      paramStr knownDigests (((∅ : Dict String String).set "b" "2").set "a" "1").entries =
      paramStr knownDigests (givenParams "2").entries := by
    rw [paramStr, sortedParams_eq_iff.mpr hget]
    rfl
  let given : Set String := Set.range fun b : Bool =>
    paramStr knownDigests (givenParams (if b then "2" else "3")).entries
  have hhash : Set.InjOn (shortHash knownDigests) given := by
    have hdiffer : shortHash knownDigests (paramStr knownDigests (givenParams "2").entries) ≠
        shortHash knownDigests (paramStr knownDigests (givenParams "3").entries) := by
      rw [paramStr_givenParams, paramStr_givenParams]
      decide +kernel
    rintro _ ⟨b, rfl⟩ _ ⟨b', rfl⟩ heq
    cases b <;> cases b'
    · rfl
    · exact absurd heq.symm hdiffer
    · exact absurd heq hdiffer
    · rfl
  have htwo : paramStr knownDigests (givenParams "2").entries ∈ given := ⟨true, rfl⟩
  have hthree : paramStr knownDigests (givenParams "3").entries ∈ given := ⟨false, rfl⟩
  constructor
  · exact (stepIdStr_eq_iff Json.dumps_injective hlength hhash (hreordered ▸ htwo) htwo).mpr
      ⟨rfl, hget⟩
  · intro hid
    have hsame := ((stepIdStr_eq_iff Json.dumps_injective hlength hhash htwo hthree).mp hid).2 "b"
    simp [givenParams] at hsame

end Trun.Register
