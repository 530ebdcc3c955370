import Trun.Parameter.Structured

/-!
# Tuple parameters through their text

The text of a tuple is JSON.  Its items are converted one by one, which no
number, truth value or `None` allows, and then the whole text is read as a
Python literal.  So what comes back depends on whether the tuple has such an
item.
-/

namespace Trun.Structured

open Freezing

variable {F : Type}

/-! ## JSON read as a Python literal -/

/-- A text by the escapes that `json.dumps` writes for it; a code point beyond the basic plane
becomes two, which Python does not put together again. -/
def splitAstral (s : PyStr) : PyStr :=
  s.flatMap fun c =>
    if c.val < 65536 then [c]
    else [⟨55296 + (c.val - 65536) / 1024, by omega⟩, ⟨56320 + (c.val - 65536) % 1024, by omega⟩]

mutual

/-- `null`, `true` or `false` somewhere. -/
def hasName : JsonValue F → Bool
  | .null => true
  | .bool _ => true
  | .int _ => false
  | .float _ => false
  | .str _ => false
  | .array items => hasNameAll items
  | .object pairs => hasNamePairs pairs

def hasNameAll : List (JsonValue F) → Bool
  | [] => false
  | item :: rest => hasName item || hasNameAll rest

def hasNamePairs : List (PyStr × JsonValue F) → Bool
  | [] => false
  | (_, item) :: rest => hasName item || hasNamePairs rest

end

mutual

/-- A document with every text split. -/
def split : JsonValue F → JsonValue F
  | .str s => .str (splitAstral s)
  | .array items => .array (splitAll items)
  | .object pairs => .object (splitPairs pairs)
  | json => json

def splitAll : List (JsonValue F) → List (JsonValue F)
  | [] => []
  | item :: rest => split item :: splitAll rest

def splitPairs : List (PyStr × JsonValue F) → List (PyStr × JsonValue F)
  | [] => []
  | (k, item) :: rest => (splitAstral k, split item) :: splitPairs rest

end

/-- `literal_eval` of what `json.dumps` writes: the names of JSON are none of Python's, and no
escape stands for more than its own code point. -/
def literal (json : JsonValue F) : Except PyError (PyValue F) :=
  if hasName json then throw .valueError else pure (decode .list pyDict (split json))

@[simp] theorem hasNameAll_eq (items : List (JsonValue F)) :
    hasNameAll items = items.any hasName := by
  induction items with
  | nil => rfl
  | cons item rest ih => rw [hasNameAll, ih, List.any_cons]

@[simp] theorem hasNamePairs_eq (pairs : List (PyStr × JsonValue F)) :
    hasNamePairs pairs = pairs.any fun pair => hasName pair.2 := by
  induction pairs with
  | nil => rfl
  | cons pair rest ih => rw [hasNamePairs, ih, List.any_cons]

@[simp] theorem splitAll_eq (items : List (JsonValue F)) : splitAll items = items.map split := by
  induction items with
  | nil => rfl
  | cons item rest ih => rw [splitAll, ih, List.map_cons]

@[simp] theorem splitPairs_eq (pairs : List (PyStr × JsonValue F)) :
    splitPairs pairs = pairs.map (Prod.map splitAstral split) := by
  induction pairs with
  | nil => rfl
  | cons pair rest ih => rw [splitPairs, ih, List.map_cons, Prod.map]

/-- No code point is beyond the basic plane. -/
def Basic (s : PyStr) : Prop := ∀ c ∈ s, c.val < 65536

instance (s : PyStr) : Decidable (Basic s) := inferInstanceAs (Decidable (∀ c ∈ s, c.val < 65536))

theorem basic_splitAstral (s : PyStr) : Basic (splitAstral s) := by
  intro c hc
  obtain ⟨d, -, hd⟩ := List.mem_flatMap.mp hc
  split_ifs at hd with hbasic
  · rwa [List.mem_singleton.mp hd]
  · have hlt := d.isLt
    rcases List.mem_pair.mp hd with rfl | rfl
    · change 55296 + (d.val - 65536) / 1024 < 65536
      omega
    · change 56320 + (d.val - 65536) % 1024 < 65536
      omega

theorem splitAstral_of_basic {s : PyStr} (hbasic : Basic s) : splitAstral s = s := by
  induction s with
  | nil => rfl
  | cons c rest ih =>
      have hc := hbasic c (List.mem_cons_self ..)
      have hrest := ih fun d hd => hbasic d (List.mem_cons_of_mem _ hd)
      rw [splitAstral, List.flatMap_cons, if_pos hc]
      exact congrArg (c :: ·) hrest

/-- Numbers and texts of the basic plane, in arrays and objects at any depth. -/
inductive Plain : JsonValue F → Prop where
  | int (n : ℤ) : Plain (.int n)
  | float (x : F) : Plain (.float x)
  | str {s : PyStr} (hbasic : Basic s) : Plain (.str s)
  | array {items : List (JsonValue F)} (hitems : ∀ item ∈ items, Plain item) :
      Plain (.array items)
  | object {pairs : List (PyStr × JsonValue F)} (hkeys : ∀ pair ∈ pairs, Basic pair.1)
      (hpairs : ∀ pair ∈ pairs, Plain pair.2) : Plain (.object pairs)

theorem Plain.hasName_eq {json : JsonValue F} (hplain : Plain json) : hasName json = false := by
  induction hplain with
  | int n => rfl
  | float x => rfl
  | str hbasic => rfl
  | array _ ih =>
      rw [hasName, hasNameAll_eq, List.any_eq_false]
      intro item hitem
      rw [ih item hitem]
      exact Bool.false_ne_true
  | object _ _ ih =>
      rw [hasName, hasNamePairs_eq, List.any_eq_false]
      intro pair hpair
      rw [ih pair hpair]
      exact Bool.false_ne_true

theorem Plain.split_eq {json : JsonValue F} (hplain : Plain json) : split json = json := by
  induction hplain with
  | int n => rfl
  | float x => rfl
  | str hbasic => rw [split, splitAstral_of_basic hbasic]
  | array _ ih =>
      rw [split, splitAll_eq, (List.map_congr_left ih).trans (List.map_id _)]
  | object hkeys _ ih =>
      rw [split, splitPairs_eq]
      apply congrArg JsonValue.object
      apply (List.map_congr_left _).trans (List.map_id _)
      intro pair hpair
      exact Prod.ext (splitAstral_of_basic (hkeys pair hpair)) (ih pair hpair)

/-- A literal that comes back as the document it was written for is plain. -/
theorem plain_of_encode {json : JsonValue F} (hdistinct : json.Distinct)
    (hname : hasName json = false)
    (hencode : encode (decode .list pyDict (split json)) = json) : Plain json := by
  induction hdistinct with
  | null => cases hname
  | bool b => cases hname
  | int n => exact .int n
  | float x => exact .float x
  | str s =>
      have hsplit : splitAstral s = s := JsonValue.str.inj hencode
      apply Plain.str
      rw [← hsplit]
      exact basic_splitAstral s
  | @array items _ ih =>
      rw [hasName, hasNameAll_eq, List.any_eq_false] at hname
      rw [split, decode, rebuilds_list.array, decodeAll_eq, splitAll_eq, List.map_map,
        List.map_map] at hencode
      have hitems := List.map_inj_left.mp
        ((JsonValue.array.inj hencode).trans (List.map_id items).symm)
      apply Plain.array
      intro item hitem
      exact ih item hitem (eq_false_of_ne_true (hname item hitem)) (hitems item hitem)
  | @object pairs hnodup _ ih =>
      rw [hasName, hasNamePairs_eq, List.any_eq_false] at hname
      rw [split, decode, rebuilds_list.object, decodePairs_eq, splitPairs_eq, List.map_map]
        at hencode
      have hpairs := JsonValue.object.inj hencode
      -- Every key is one of the split keys, so that splitting changes no key.
      have hkeys : ∀ pair ∈ pairs, Basic pair.1 := by
        intro pair hpair
        rw [← hpairs] at hpair
        obtain ⟨entry, hentry, rfl⟩ := List.mem_map.mp hpair
        obtain ⟨source, -, rfl⟩ := List.mem_map.mp (mem_of_mem_orderedDict hentry)
        exact basic_splitAstral source.1
      have hnodupSplit : ((pairs.map (Prod.map id (decode .list pyDict) ∘
          Prod.map splitAstral split)).map Prod.fst).Nodup := by
        rw [List.map_map, List.map_congr_left (g := Prod.fst)]
        · exact hnodup
        · intro pair hpair
          exact splitAstral_of_basic (hkeys pair hpair)
      rw [orderedDict_of_nodup hnodupSplit, List.map_map] at hpairs
      have hvalues := List.map_inj_left.mp (hpairs.trans (List.map_id pairs).symm)
      apply Plain.object hkeys
      intro pair hpair
      exact ih pair hpair (eq_false_of_ne_true (hname pair hpair))
        (congrArg Prod.snd (hvalues pair hpair))

/-! ## Items converted one by one -/

/-- A number, a truth value or `None`. -/
def isScalar : JsonValue F → Bool
  | .null => true
  | .bool _ => true
  | .int _ => true
  | .float _ => true
  | .str _ => false
  | .array _ => false
  | .object _ => false

def isObject : JsonValue F → Bool
  | .object _ => true
  | _ => false

/-- The document of a tuple is read back as it was: by its items, and with a scalar among them
as a literal. -/
def ReadBack (items : List (JsonValue F)) : Prop :=
  if items.any isScalar then ∀ item ∈ items, Plain item
  else ∀ item ∈ items, isObject item = false

theorem convert_of_scalar {json : JsonValue F} (hscalar : isScalar json = true) :
    convertIterableToTuple (hooked json) = .error .typeError := by
  cases json with
  | null => rfl
  | bool b => rfl
  | int n => rfl
  | float x => rfl
  | str s => cases hscalar
  | array items => cases hscalar
  | object pairs => cases hscalar

/-- A converted item is the document again unless it was an object, of which the keys stay. -/
theorem convert_ok {json : JsonValue F} (hdistinct : json.Distinct)
    (hscalar : isScalar json = false) :
    ∃ p, convertIterableToTuple (hooked json) = .ok p ∧ PyDistinct p ∧
      (encode p = json ↔ isObject json = false) := by
  cases json with
  | null => cases hscalar
  | bool b => cases hscalar
  | int n => cases hscalar
  | float x => cases hscalar
  | str s => exact ⟨.str s, rfl, .str s, iff_of_true rfl rfl⟩
  | array items =>
      have hencode : encode (hooked (.array items)) = .array items := encode_hooked hdistinct
      refine ⟨.tuple (decodeAll .list frozenOrderedDict items), rfl, ?_, iff_of_true hencode rfl⟩
      rw [PyDistinct]
      exact hencode.symm ▸ hdistinct
  | object pairs =>
      refine ⟨_, rfl, ?_, iff_of_false ?_ ?_⟩
      · rw [PyDistinct, encode, encodeAll_eq, List.map_map]
        apply JsonValue.Distinct.array
        rintro item hitem
        obtain ⟨entry, -, rfl⟩ := List.mem_map.mp hitem
        exact .str entry.1
      · rintro ⟨⟩
      · rintro ⟨⟩

example : convertIterableToTuple (hooked (.object [([97], .int 1)]) : PyValue ℕ) =
    .ok (.tuple [.str [97]]) := by rfl

theorem mapM_convert_of_scalar {items : List (JsonValue F)}
    (hdistinct : ∀ item ∈ items, item.Distinct) (hscalar : items.any isScalar = true) :
    (items.map hooked).mapM convertIterableToTuple = .error .typeError := by
  induction items with
  | nil => cases hscalar
  | cons item rest ih =>
      rw [List.map_cons, List.mapM_cons]
      cases hitem : isScalar item with
      | true =>
          rw [convert_of_scalar hitem]
          rfl
      | false =>
          obtain ⟨p, hp, -, -⟩ := convert_ok (hdistinct item (List.mem_cons_self ..)) hitem
          rw [List.any_cons, hitem, Bool.false_or] at hscalar
          rw [hp, ih (fun other hother => hdistinct other (List.mem_cons_of_mem _ hother)) hscalar]
          rfl

theorem mapM_convert {items : List (JsonValue F)} (hdistinct : ∀ item ∈ items, item.Distinct)
    (hscalar : items.any isScalar = false) :
    ∃ ps, (items.map hooked).mapM convertIterableToTuple = .ok ps ∧ (∀ p ∈ ps, PyDistinct p) ∧
      (ps.map encode = items ↔ ∀ item ∈ items, isObject item = false) := by
  induction items with
  | nil => exact ⟨[], rfl, List.forall_mem_nil _, iff_of_true rfl (List.forall_mem_nil _)⟩
  | cons item rest ih =>
      rw [List.any_cons, Bool.or_eq_false_iff] at hscalar
      rw [List.forall_mem_cons] at hdistinct
      obtain ⟨p, hp, hpdistinct, hpencode⟩ := convert_ok hdistinct.1 hscalar.1
      obtain ⟨ps, hps, hpsdistinct, hpsencode⟩ := ih hdistinct.2 hscalar.2
      refine ⟨p :: ps, ?_, List.forall_mem_cons.mpr ⟨hpdistinct, hpsdistinct⟩, ?_⟩
      · rw [List.map_cons, List.mapM_cons, hp, hps]
        rfl
      · rw [List.map_cons, List.cons.injEq, List.forall_mem_cons, hpencode, hpsencode]

/-! ## The two readers -/

/-- A validator that leaves an instance as it is. -/
def Checks : Option (Schema F) → Prop
  | some (.validator validate) => ∀ instance_ updated, validate instance_ = .ok updated →
      updated = instance_
  | some (.document _) => True
  | none => True

theorem freeze_of_normalize {schema : Option (Schema F)} (hchecks : Checks schema)
    {p n : PyValue F} (hdistinct : PyDistinct p) (hnormalize : normalize schema p = .ok n) :
    n = recursivelyFreeze p := by
  cases schema with
  | none => exact (Except.ok.inj hnormalize).symm
  | some schema =>
      cases schema with
      | validator validate =>
          rw [normalize] at hnormalize
          cases hvalidate : validate (recursivelyUnfreeze p) with
          | error error =>
              rw [hvalidate] at hnormalize
              cases hnormalize
          | ok updated =>
              rw [hvalidate, hchecks _ _ hvalidate] at hnormalize
              have hfreeze := recursivelyFreeze_congr (encode_recursivelyUnfreeze hdistinct)
              exact (Except.ok.inj hnormalize).symm.trans hfreeze
      | document validate =>
          rw [normalize] at hnormalize
          cases hvalidate : validate (recursivelyUnfreeze p) with
          | error error =>
              rw [hvalidate] at hnormalize
              cases hnormalize
          | ok accepted =>
              rw [hvalidate] at hnormalize
              exact (Except.ok.inj hnormalize).symm

/-- Another value has the same normal form when it has the same document, and only then. -/
theorem normalize_eq_iff {schema : Option (Schema F)} (hchecks : Checks schema) {v p n : PyValue F}
    (hv : PyDistinct v) (hp : PyDistinct p) (hnormalize : normalize schema v = .ok n) :
    normalize schema p = .ok n ↔ encode p = encode v := by
  constructor
  · intro hagain
    have hfreeze := freeze_of_normalize hchecks hp hagain
    rw [freeze_of_normalize hchecks hv hnormalize] at hfreeze
    rw [← encode_recursivelyFreeze hp, ← hfreeze, encode_recursivelyFreeze hv]
  · intro hencode
    rw [normalize_congr schema hencode, hnormalize]

section Reading

variable {modules : TextModules F} {text : String} {items : List (JsonValue F)}

theorem convertItems_eq (hloads : modules.loads text = .ok (.array items)) :
    convertItems modules text =
      do return .tuple (← (items.map hooked).mapM convertIterableToTuple) := by
  have hmap : items.map hooked = decodeAll .list frozenOrderedDict items :=
    (decodeAll_eq ..).symm
  rw [convertItems, loadsHooked, hloads, hmap]
  rfl

theorem parseTuple_of_converts {ps : List (PyValue F)}
    (hloads : modules.loads text = .ok (.array items))
    (hconverts : (items.map hooked).mapM convertIterableToTuple = .ok ps) :
    parseTuple modules text = .ok (.tuple ps) := by
  rw [parseTuple, convertItems_eq hloads, hconverts]
  rfl

theorem parseTuple_of_not_converts (hloads : modules.loads text = .ok (.array items))
    (hconverts : (items.map hooked).mapM convertIterableToTuple = .error .typeError) :
    parseTuple modules text = do return .tuple (← iterate (← modules.literalEval text)) := by
  rw [parseTuple, convertItems_eq hloads, hconverts]
  rfl

/-- What is read of the items where each of them converts. -/
theorem parseTuple_converts (hdistinct : ∀ item ∈ items, item.Distinct)
    (hloads : modules.loads text = .ok (.array items)) (hscalar : items.any isScalar = false) :
    ∃ p, parseTuple modules text = .ok p ∧ PyDistinct p ∧
      (encode p = .array items ↔ ReadBack items) := by
  obtain ⟨ps, hps, hpsdistinct, hencode⟩ := mapM_convert hdistinct hscalar
  refine ⟨.tuple ps, parseTuple_of_converts hloads hps, ?_, ?_⟩
  · rw [PyDistinct, encode, encodeAll_eq]
    exact .array (List.forall_mem_map.mpr hpsdistinct)
  · rw [encode, encodeAll_eq, JsonValue.array.injEq, hencode, ReadBack, if_neg]
    rw [hscalar]
    exact Bool.false_ne_true

/-- What is read of the literal where some item does not convert. -/
theorem parseTuple_literal (hdistinct : ∀ item ∈ items, item.Distinct)
    (hloads : modules.loads text = .ok (.array items)) (hscalar : items.any isScalar = true)
    (hliteral : modules.literalEval text = literal (.array items))
    (hname : hasName (.array items) = false) :
    ∃ p, parseTuple modules text = .ok p ∧ PyDistinct p ∧
      (encode p = .array items ↔ ReadBack items) := by
  have hread := parseTuple_of_not_converts hloads (mapM_convert_of_scalar hdistinct hscalar)
  rw [hliteral, literal, if_neg (Bool.not_eq_true _ ▸ hname)] at hread
  refine ⟨_, hread, distinct_decode rebuilds_list (split (.array items)), ?_⟩
  have hplain : encode (decode .list pyDict (split (.array items))) = .array items ↔
      Plain (.array items) := by
    constructor
    · exact plain_of_encode (.array hdistinct) hname
    · intro hplain
      rw [hplain.split_eq, encode_decode rebuilds_list (.array hdistinct)]
  rw [ReadBack, if_pos hscalar]
  refine hplain.trans ⟨?_, .array⟩
  rintro ⟨⟩
  assumption

end Reading

theorem parseTuple_roundTrips_iff (modules : TextModules F) {schema : Option (Schema F)}
    (hchecks : Checks schema) {items : List (PyValue F)} {n : PyValue F}
    (hdistinct : PyDistinct (.tuple items)) (hnormalize : normalize schema (.tuple items) = .ok n)
    (hloads : modules.loads (modules.dumps (encode n)) = .ok (encode n))
    (hliteral : modules.literalEval (modules.dumps (encode n)) = literal (encode n)) :
    RoundTrips modules schema (parseTuple modules) n ↔ ReadBack (items.map encode) := by
  have htuple : encode (.tuple items) = .array (items.map encode) :=
    congrArg JsonValue.array (encodeAll_eq items)
  have hencode : encode n = .array (items.map encode) := by
    rw [freeze_of_normalize hchecks hdistinct hnormalize, encode_recursivelyFreeze hdistinct,
      htuple]
  have hitems : ∀ item ∈ items.map encode, item.Distinct := by
    rw [PyDistinct, htuple] at hdistinct
    cases hdistinct with
    | array hitems => exact hitems
  have hiff : ∀ p, parseTuple modules (serialize modules n) = .ok p → PyDistinct p →
      (encode p = .array (items.map encode) ↔ ReadBack (items.map encode)) →
      (RoundTrips modules schema (parseTuple modules) n ↔ ReadBack (items.map encode)) := by
    intro p hparse hp hback
    rw [← hback, ← htuple, ← normalize_eq_iff hchecks hdistinct hp hnormalize]
    constructor
    · rintro ⟨p', hparse', hagain⟩
      rw [hparse] at hparse'
      cases hparse'
      exact hagain
    · exact fun hagain => ⟨p, hparse, hagain⟩
  rw [hencode] at hloads hliteral
  rw [serialize, hencode] at hiff
  cases hscalar : (items.map encode).any isScalar with
  | false =>
      obtain ⟨p, hparse, hp, hback⟩ := parseTuple_converts hitems hloads hscalar
      exact hiff p hparse hp hback
  | true =>
      cases hname : hasName (.array (items.map encode)) with
      | false =>
          obtain ⟨p, hparse, hp, hback⟩ :=
            parseTuple_literal hitems hloads hscalar hliteral hname
          exact hiff p hparse hp hback
      | true =>
          have hread := parseTuple_of_not_converts hloads
            (mapM_convert_of_scalar hitems hscalar)
          rw [hliteral, literal, if_pos hname] at hread
          apply iff_of_false
          · rintro ⟨p, hparse, -⟩
            rw [serialize, hencode, hread] at hparse
            cases hparse
          · rw [ReadBack, if_pos hscalar]
            intro hplain
            rw [(Plain.array hplain).hasName_eq] at hname
            cases hname

/-- `(1, "")` has the text `[1, ""]`, which is no JSON of two iterables but a Python literal. -/
theorem parseTuple_roundTrips_literal :
    ReadBack (F := ℕ) [.int 1, .str []] ∧
      RoundTrips (F := ℕ)
        (oneText (.array [.int 1, .str []]) "[1, \"\"]" (literal (.array [.int 1, .str []])))
        none (parseTuple (oneText (.array [.int 1, .str []]) "[1, \"\"]"
          (literal (.array [.int 1, .str []])))) (.tuple [.int 1, .str []]) := by
  have hplain : ReadBack (F := ℕ) [.int 1, .str []] := by
    change ∀ item ∈ [JsonValue.int 1, JsonValue.str []], Plain item
    rintro item (_ | ⟨_, _ | ⟨_, ⟨⟩⟩⟩)
    · exact .int 1
    · exact .str (List.forall_mem_nil _)
  have hdistinct : PyDistinct (F := ℕ) (.tuple [.int 1, .str []]) := by
    apply JsonValue.Distinct.array
    rintro item (_ | ⟨_, _ | ⟨_, ⟨⟩⟩⟩)
    · exact .int 1
    · exact .str []
  exact ⟨hplain, (@parseTuple_roundTrips_iff _ (oneText _ _ _) none trivial _ _ hdistinct rfl
    rfl rfl).mpr hplain⟩

/-- `(1, True)` has the text `[1, true]`, which neither reader takes. -/
theorem parseTuple_true :
    ∃ modules : TextModules ℕ, ∃ n, PyDistinct (F := ℕ) (.tuple [.int 1, .bool true]) ∧
      normalize none (.tuple [.int 1, .bool true]) = .ok n ∧
      modules.loads (modules.dumps (encode n)) = .ok (encode n) ∧
      modules.literalEval (modules.dumps (encode n)) = literal (encode n) ∧
      parseTuple modules (serialize modules n) = .error .valueError ∧
      ¬ RoundTrips modules none (parseTuple modules) n := by
  refine ⟨oneText (.array [.int 1, .bool true]) "[1, true]"
    (literal (.array [.int 1, .bool true])), .tuple [.int 1, .bool true], ?_, rfl, rfl, rfl, rfl,
    ?_⟩
  · apply JsonValue.Distinct.array
    rintro item (_ | ⟨_, _ | ⟨_, ⟨⟩⟩⟩)
    · exact .int 1
    · exact .bool true
  · rintro ⟨p, hparse, -⟩
    cases hparse

end Trun.Structured
