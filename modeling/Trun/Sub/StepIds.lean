import Mathlib.Data.List.Lex
import Mathlib.Data.List.Basic
import Mathlib.Order.Fin.Basic
import Mathlib.Data.List.Sort

/-!
# Step ids of the C++ port

The C++ `step_id_str` hashes the summary of the parameters, where the Python one hashes all of
them.  Its ids tell as much as the summaries: nothing about the names of the parameters, and
their values only as far as the summary keeps them.
-/

namespace Trun.Sub

abbrev Byte := Fin 256
abbrev Bytes := List Byte

/-- A `std::map` of texts, in the order in which it is iterated. -/
@[ext]
structure ParamMap where
  entries : List (Bytes × Bytes)
  sorted : entries.Pairwise fun entry other => entry.1 < other.1

def ParamMap.names (params : ParamMap) : List Bytes := params.entries.map Prod.fst

def stepIdIncludeParams : ℕ := 3
def stepIdTruncateParams : ℕ := 16
def stepIdTruncateHash : ℕ := 10

def underscore : Byte := 0x5f

/-- `[A-Za-z0-9]`. -/
def isAlphanumeric (byte : Byte) : Bool :=
  (0x41 ≤ byte && byte ≤ 0x5a) || (0x61 ≤ byte && byte ≤ 0x7a) || (0x30 ≤ byte && byte ≤ 0x39)

/-- The bytes outside `[A-Za-z0-9_]` are replaced. -/
def replaceInvalid (text : Bytes) : Bytes :=
  text.map fun byte => if isAlphanumeric byte || byte = underscore then byte else underscore

/-- `params_vec`, sorted as pairs. -/
def paramsVec (params : ParamMap) : List (Bytes × Bytes) :=
  params.entries.mergeSort fun entry other =>
    entry.1 < other.1 || (entry.1 = other.1 && entry.2 ≤ other.2)

def paramSummary (params : ParamMap) : Bytes :=
  replaceInvalid (((paramsVec params).take stepIdIncludeParams).flatMap fun entry =>
    entry.2.take stepIdTruncateParams ++ [underscore])

/-- One of the sixteen hexadecimal digits. -/
def hexDigit (value : ℕ) : Byte := if value < 10 then .ofNat 256 (0x30 + value)
  else .ofNat 256 (0x61 + (value - 10))

def mdString (digest : Fin 16 → Byte) : Bytes :=
  (List.ofFn digest).flatMap fun byte => [hexDigit (byte.val / 16), hexDigit (byte.val % 16)]

/-- `step_id_str`, with the digest that `MD5` computes. -/
def stepIdStr (md5 : Bytes → Fin 16 → Byte) (stepFamily : Bytes) (params : ParamMap) : Bytes :=
  let paramHash := (mdString (md5 (paramSummary params))).take stepIdTruncateHash
  stepFamily ++ [underscore] ++ paramSummary params ++ [underscore] ++ paramHash

/-! ## Ids and summaries -/

theorem paramsVec_eq (params : ParamMap) : paramsVec params = params.entries := by
  apply List.mergeSort_of_pairwise
  exact params.sorted.imp fun h => by simp [h]

theorem length_mdString (digest : Fin 16 → Byte) : (mdString digest).length = 32 := by
  simp [mdString]

variable {md5 : Bytes → Fin 16 → Byte} {stepFamily : Bytes} {params others : ParamMap}

/-- The ids tell the summaries and nothing else. -/
theorem stepIdStr_eq_iff_summary :
    stepIdStr md5 stepFamily params = stepIdStr md5 stepFamily others ↔
      paramSummary params = paramSummary others := by
  constructor
  · intro hid
    have hten : ∀ digest, ((mdString digest).take stepIdTruncateHash).length = 10 := by
      intro digest
      rw [List.length_take, length_mdString]
      rfl
    obtain ⟨hfront, -⟩ := List.append_inj' hid ((hten _).trans (hten _).symm)
    exact List.append_cancel_left (List.append_cancel_right hfront)
  · intro hsummary
    rw [stepIdStr, stepIdStr, hsummary]

/-! ## What the summary keeps -/

/-- What the summary keeps of a value. -/
def kept (value : Bytes) : Bytes := replaceInvalid (value.take stepIdTruncateParams)

/-- The values joined with an underscore after each. -/
def joined (entries : List (Bytes × Bytes)) : Bytes :=
  entries.flatMap fun entry => kept entry.2 ++ [underscore]

theorem paramSummary_eq (params : ParamMap) :
    paramSummary params = joined (params.entries.take stepIdIncludeParams) := by
  rw [paramSummary, replaceInvalid, paramsVec_eq, List.map_flatMap, joined]
  congr 1
  funext entry
  rw [List.map_append]
  rfl

/-- The values with their bytes as they are. -/
theorem replaceInvalid_eq_self {text : Bytes} (htext : underscore ∉ replaceInvalid text) :
    replaceInvalid text = text := by
  rw [replaceInvalid] at htext ⊢
  conv_rhs => rw [← List.map_id text]
  refine List.map_congr_left fun byte hbyte => ?_
  split <;> rename_i hvalid
  · rfl
  · refine absurd (List.mem_map.mpr ⟨byte, hbyte, ?_⟩) htext
    rw [if_neg hvalid]

theorem underscore_not_mem_replaceInvalid {text : Bytes}
    (htext : ∀ byte ∈ text, isAlphanumeric byte = true) : underscore ∉ replaceInvalid text := by
  intro hmem
  obtain ⟨byte, hbyte, heq⟩ := List.mem_map.mp hmem
  rw [htext byte hbyte, Bool.true_or, if_pos rfl] at heq
  have hunderscore := htext byte hbyte
  rw [heq] at hunderscore
  exact absurd hunderscore (by decide)

/-- A value that the summary keeps as it is. -/
def Plain (value : Bytes) : Prop :=
  value.length < stepIdTruncateParams ∧ ∀ byte ∈ value, isAlphanumeric byte = true

theorem Plain.kept_eq {value : Bytes} (hplain : Plain value) :
    underscore ∉ kept value ∧ kept value = value := by
  have htake : value.take stepIdTruncateParams = value := List.take_of_length_le hplain.1.le
  have hunderscore : underscore ∉ kept value := by
    rw [kept, htake]
    exact underscore_not_mem_replaceInvalid hplain.2
  exact ⟨hunderscore, (replaceInvalid_eq_self hunderscore).trans htake⟩

/-- What is kept without an underscore, and is not cut, is the value. -/
theorem kept_injective {value other : Bytes} (hplain : Plain value)
    (hother : underscore ∉ kept other) (hkept : kept value = kept other) : value = other := by
  rw [hplain.kept_eq.2, kept, replaceInvalid_eq_self hother] at hkept
  have hlength := hplain.1
  rw [hkept, List.length_take] at hlength
  rw [hkept]
  exact List.take_of_length_le (by omega)

theorem count_joined_cons (entry : Bytes × Bytes) (rest : List (Bytes × Bytes)) :
    (joined (entry :: rest)).count underscore =
      (kept entry.2).count underscore + 1 + (joined rest).count underscore := by
  rw [joined, List.flatMap_cons, List.count_append, List.count_append, List.count_singleton_self,
    joined]

theorem length_le_count_joined (entries : List (Bytes × Bytes)) :
    entries.length ≤ (joined entries).count underscore := by
  induction entries with
  | nil => exact Nat.zero_le _
  | cons entry rest ih =>
      rw [count_joined_cons, List.length_cons]
      omega

/-- There is one underscore for each value if none comes from a value. -/
theorem count_joined_eq_length_iff (entries : List (Bytes × Bytes)) :
    (joined entries).count underscore = entries.length ↔
      ∀ entry ∈ entries, underscore ∉ kept entry.2 := by
  induction entries with
  | nil => exact iff_of_true rfl nofun
  | cons entry rest ih =>
      have hle := length_le_count_joined rest
      rw [List.forall_mem_cons, ← ih, count_joined_cons, List.length_cons, ← List.count_eq_zero]
      omega

/-- Plain values are read off the summary, if the names are known. -/
theorem eq_of_joined_eq {entries others : List (Bytes × Bytes)}
    (hplain : ∀ entry ∈ entries, Plain entry.2)
    (hnames : others.map Prod.fst = entries.map Prod.fst)
    (hjoined : joined entries = joined others) : entries = others := by
  have hothers : ∀ other ∈ others, underscore ∉ kept other.2 := by
    have hcount := (count_joined_eq_length_iff entries).mpr fun entry hentry =>
      (hplain entry hentry).kept_eq.1
    have hlength : others.length = entries.length := by
      simpa using congrArg List.length hnames
    rw [hjoined, ← hlength] at hcount
    exact (count_joined_eq_length_iff others).mp hcount
  induction entries generalizing others with
  | nil =>
      rw [List.map_nil, List.map_eq_nil_iff] at hnames
      exact hnames.symm
  | cons entry rest ih =>
      cases others with
      | nil => cases hnames
      | cons other others =>
          obtain ⟨hname, hnames⟩ := List.cons.inj hnames
          obtain ⟨hentry, hrest⟩ := List.forall_mem_cons.mp hplain
          obtain ⟨hother, hothers⟩ := List.forall_mem_cons.mp hothers
          rw [joined, joined, List.flatMap_cons, List.flatMap_cons, List.append_assoc,
            List.append_assoc, List.singleton_append, List.singleton_append] at hjoined
          have hsplit := congrArg (List.splitOn underscore) hjoined
          rw [List.splitOn_append_cons_self_of_not_mem hentry.kept_eq.1,
            List.splitOn_append_cons_self_of_not_mem hother] at hsplit
          have hvalue := (List.cons.inj hsplit).1
          rw [hvalue] at hjoined
          have htail := (List.cons.inj (List.append_cancel_left hjoined)).2
          rw [ih hrest hnames htail hothers,
            Prod.ext hname.symm (kept_injective hentry hother hvalue)]

/-! ## Maps with one id -/

/-- Other values under the same names. -/
theorem exists_with_values {entries : List (Bytes × Bytes)}
    (hnames : entries.map Prod.fst = params.names) :
    ∃ others : ParamMap, others.entries = entries := by
  have hsorted := params.sorted
  rw [← List.pairwise_map] at hsorted
  refine ⟨⟨entries, ?_⟩, rfl⟩
  rw [← List.pairwise_map, hnames]
  exact hsorted

/-- A value can be changed without a change of the id if the change is not kept. -/
theorem exists_same_summary {front back : List (Bytes × Bytes)} {name value other : Bytes}
    (hentries : params.entries = front ++ (name, value) :: back) (hne : other ≠ value)
    (hkept : stepIdIncludeParams ≤ front.length ∨ kept other = kept value) :
    ∃ others : ParamMap, others.names = params.names ∧
      paramSummary params = paramSummary others ∧ params ≠ others := by
  have hnames : (front ++ (name, other) :: back).map Prod.fst = params.names := by
    rw [ParamMap.names, hentries]
    simp
  obtain ⟨others, hothers⟩ := exists_with_values hnames
  refine ⟨others, by rw [ParamMap.names, hothers, hnames], ?_, ?_⟩
  · rw [paramSummary_eq, paramSummary_eq, hentries, hothers]
    rcases hkept with hbehind | hkept
    · rw [List.take_append_of_le_length hbehind, List.take_append_of_le_length hbehind]
    · rw [List.take_append, List.take_append]
      cases stepIdIncludeParams - front.length with
      | zero => rfl
      | succ size =>
          rw [List.take_succ_cons, List.take_succ_cons, joined, joined, List.flatMap_append,
            List.flatMap_append, List.flatMap_cons, List.flatMap_cons, hkept]
  · intro heq
    rw [← heq, hentries] at hothers
    have hcons := List.append_cancel_left hothers
    exact hne (congrArg (fun entry => entry.2) (List.cons.inj hcons).1).symm

theorem lt_append_zero (name : Bytes) : name < name ++ [0] := by
  induction name with
  | nil => exact List.nil_lt_cons ..
  | cons byte rest ih => exact List.cons_lt_cons_self.mpr ih

/-- A longer name behind the last one. -/
theorem exists_renamed (hne : params.entries ≠ []) :
    ∃ others : ParamMap, paramSummary params = paramSummary others ∧ params ≠ others := by
  obtain ⟨front, ⟨name, value⟩, hentries⟩ :=
    (List.eq_nil_or_concat' params.entries).resolve_left hne
  have hsorted := params.sorted
  rw [hentries, List.pairwise_append] at hsorted
  obtain ⟨hfront, -, hlast⟩ := hsorted
  let others : ParamMap := ⟨front ++ [(name ++ [0], value)], by
    rw [List.pairwise_append]
    refine ⟨hfront, List.pairwise_singleton _ _, fun entry hentry other hother => ?_⟩
    rw [List.mem_singleton.mp hother]
    exact (hlast entry hentry _ (List.mem_singleton_self _)).trans (lt_append_zero name)⟩
  refine ⟨others, ?_, ?_⟩
  · rw [paramSummary_eq, paramSummary_eq, hentries, List.take_append, List.take_append]
    cases stepIdIncludeParams - front.length with
    | zero => rfl
    | succ size => simp [joined]
  · intro heq
    have hothers : front ++ [(name, value)] = front ++ [(name ++ [0], value)] := by
      rw [← hentries, heq]
    simp at hothers

theorem replaceInvalid_of_invalid {byte : Byte} (hbyte : isAlphanumeric byte = false)
    (front back : Bytes) :
    replaceInvalid (front ++ byte :: back) =
      replaceInvalid front ++ underscore :: replaceInvalid back := by
  rw [replaceInvalid, List.map_append, List.map_cons, hbyte, Bool.false_or]
  congr 2
  by_cases hunderscore : byte = underscore <;> simp [hunderscore]

/-- Two bytes at least are replaced by an underscore. -/
theorem exists_other_invalid (byte : Byte) :
    ∃ other, other ≠ byte ∧ isAlphanumeric other = false := by
  by_cases hunderscore : byte = underscore
  · exact ⟨0x2d, by rw [hunderscore]; decide, by decide⟩
  · exact ⟨underscore, Ne.symm hunderscore, by decide⟩

/-- A value that is not plain is kept like another one. -/
theorem exists_kept_eq {value : Bytes} (hplain : ¬Plain value) :
    ∃ other, other ≠ value ∧ kept other = kept value := by
  by_cases hshort : value.length < stepIdTruncateParams
  · have hbyte : ∃ byte ∈ value, isAlphanumeric byte = false := by
      by_contra h
      push Not at h
      exact hplain ⟨hshort, fun byte hbyte => by simpa using h byte hbyte⟩
    obtain ⟨byte, hmem, hinvalid⟩ := hbyte
    obtain ⟨front, back, rfl⟩ := List.append_of_mem hmem
    obtain ⟨other, hne, hother⟩ := exists_other_invalid byte
    refine ⟨front ++ other :: back, fun heq => ?_, ?_⟩
    · exact hne (List.cons.inj (List.append_cancel_left heq)).1
    · have hlength : (front ++ other :: back).length = (front ++ byte :: back).length := by simp
      rw [kept, kept, List.take_of_length_le hshort.le,
        List.take_of_length_le (hlength.trans_le hshort.le), replaceInvalid_of_invalid hother,
        replaceInvalid_of_invalid hinvalid]
  · refine ⟨value ++ [0], by simp, ?_⟩
    rw [kept, kept, List.take_append_of_le_length (Nat.not_lt.mp hshort)]

/-- The id of a step tells its parameters only if there are none.  It tells the values under
known names if there are at most three, all of them plain. -/
theorem stepIdStr_tells_iff (md5 : Bytes → Fin 16 → Byte) (stepFamily : Bytes)
    (params : ParamMap) :
    ((∀ others, stepIdStr md5 stepFamily params = stepIdStr md5 stepFamily others →
      params = others) ↔ params.entries = []) ∧
    ((∀ others : ParamMap, others.names = params.names →
      stepIdStr md5 stepFamily params = stepIdStr md5 stepFamily others → params = others) ↔
        params.entries.length ≤ stepIdIncludeParams ∧
          ∀ entry ∈ params.entries, Plain entry.2) := by
  simp only [stepIdStr_eq_iff_summary]
  refine ⟨⟨fun htells => ?_, fun hempty others hsummary => ?_⟩, ⟨fun htells => ⟨?_, ?_⟩, ?_⟩⟩
  · by_contra hne
    obtain ⟨others, hsummary, hdiffer⟩ := exists_renamed hne
    exact hdiffer (htells others hsummary)
  · rw [paramSummary_eq, paramSummary_eq, hempty] at hsummary
    apply ParamMap.ext
    rw [hempty]
    cases hothers : others.entries with
    | nil => rfl
    | cons entry rest =>
        rw [hothers] at hsummary
        simp [joined, stepIdIncludeParams] at hsummary
  · by_contra hmany
    obtain ⟨⟨name, value⟩, back, hback⟩ : ∃ entry back,
        params.entries.drop stepIdIncludeParams = entry :: back :=
      List.exists_cons_of_ne_nil (by rw [Ne, List.drop_eq_nil_iff]; exact hmany)
    have hentries := (List.take_append_drop stepIdIncludeParams params.entries).symm
    rw [hback] at hentries
    have hfront : stepIdIncludeParams ≤ (params.entries.take stepIdIncludeParams).length := by
      rw [List.length_take]
      omega
    have hlonger : value ++ [0] ≠ value := by simp
    obtain ⟨others, hnames, hsummary, hdiffer⟩ :=
      exists_same_summary hentries hlonger (.inl hfront)
    exact hdiffer (htells others hnames hsummary)
  · intro entry hentry
    by_contra hplain
    obtain ⟨other, hne, hkept⟩ := exists_kept_eq hplain
    obtain ⟨front, back, hentries⟩ := List.append_of_mem hentry
    obtain ⟨others, hnames, hsummary, hdiffer⟩ :=
      exists_same_summary hentries hne (.inr hkept)
    exact hdiffer (htells others hnames hsummary)
  · rintro ⟨hfew, hplain⟩ others hnames hsummary
    have hlength : others.entries.length = params.entries.length := by
      simpa [ParamMap.names] using congrArg List.length hnames
    rw [paramSummary_eq, paramSummary_eq, List.take_of_length_le hfew,
      List.take_of_length_le (hlength.trans_le hfew)] at hsummary
    exact ParamMap.ext (eq_of_joined_eq hplain hnames hsummary)

/-- The fourth parameter is in no id. -/
theorem fourth_param_same_id :
    let params : ParamMap := ⟨[([97], [49]), ([98], [50]), ([99], [51]), ([100], [52])], by decide⟩
    let others : ParamMap := ⟨[([97], [49]), ([98], [50]), ([99], [51]), ([100], [53])], by decide⟩
    params ≠ others ∧ ∀ md5, stepIdStr md5 [83] params = stepIdStr md5 [83] others := by
  refine ⟨fun heq => absurd (congrArg ParamMap.entries heq) (by decide), fun md5 => ?_⟩
  rw [stepIdStr_eq_iff_summary, paramSummary_eq, paramSummary_eq]
  decide

end Trun.Sub
