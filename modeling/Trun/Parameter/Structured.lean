import Trun.Parameter.Freezing

/-!
# List, dict and tuple parameters

A value is normalized by freezing it, written as JSON and read back.  A tuple
is read twice over: as JSON whose items are converted, and where an item does
not convert, as a Python literal.
-/

namespace Trun.Structured

open Freezing

variable {F : Type}

/-- How reading and validating fail. -/
inductive PyError where
  | valueError
  | typeError
  | other (message : String)
  deriving DecidableEq

/-- `json` and `ast`, as far as texts go; documents are read with their pairs. -/
structure TextModules (F : Type) where
  dumps : JsonValue F → String
  loads : String → Except PyError (JsonValue F)
  literalEval : String → Except PyError (PyValue F)

/-- A `schema`: a validator, which may update the instance, or a document for `jsonschema`. -/
inductive Schema (F : Type) where
  | validator (validate : PyValue F → Except PyError (PyValue F))
  | document (validate : PyValue F → Except PyError Unit)

/-- `normalize` of the three parameters. -/
def normalize (schema : Option (Schema F)) (value : PyValue F) : Except PyError (PyValue F) :=
  match schema with
  | none => pure (recursivelyFreeze value)
  | some (.validator validate) => do
      let value ← validate (recursivelyUnfreeze value)
      return recursivelyFreeze value
  | some (.document validate) => do
      validate (recursivelyUnfreeze value)
      return recursivelyFreeze value

/-- `serialize` of the three parameters. -/
def serialize (modules : TextModules F) (value : PyValue F) : String :=
  modules.dumps (encode value)

/-- `json.loads(source, object_pairs_hook=FrozenOrderedDict)`. -/
def loadsHooked (modules : TextModules F) (source : String) : Except PyError (PyValue F) := do
  return hooked (← modules.loads source)

/-- The items that iterating over a value gives. -/
def iterate : PyValue F → Except PyError (List (PyValue F))
  | .list items => pure items
  | .tuple items => pure items
  | .dict entries => pure (entries.map fun entry => .str entry.1)
  | .frozen entries => pure (entries.map fun entry => .str entry.1)
  | .str s => pure (s.map fun c => .str [c])
  | .none => throw .typeError
  | .bool _ => throw .typeError
  | .int _ => throw .typeError
  | .float _ => throw .typeError

/-- `DictParameter.parse`; the configuration may hold a value of its own. -/
def parseDict (modules : TextModules F) (source : String ⊕ PyValue F) :
    Except PyError (PyValue F) :=
  match source with
  | .inr value => pure value
  | .inl text => loadsHooked modules text

/-- `ListParameter.parse`. -/
def parseList (modules : TextModules F) (x : String) : Except PyError (PyValue F) := do
  match ← loadsHooked modules x with
  | .none => return .none
  | i => return .list (← iterate i)

def convertIterableToTuple : PyValue F → Except PyError (PyValue F)
  | .str s => pure (.str s)
  | x => do return .tuple (← iterate x)

/-- The tuple that `TupleParameter.parse` makes of JSON. -/
def convertItems (modules : TextModules F) (x : String) : Except PyError (PyValue F) := do
  let items ← iterate (← loadsHooked modules x)
  return .tuple (← items.mapM convertIterableToTuple)

/-- `TupleParameter.parse`. -/
def parseTuple (modules : TextModules F) (x : String) : Except PyError (PyValue F) :=
  match convertItems modules x with
  | .ok value => pure value
  | .error (.other message) => throw (.other message)
  -- `except (ValueError, TypeError)`
  | .error _ => do return .tuple (← iterate (← modules.literalEval x))

/-! ## What the text keeps of a value -/

/-- A value with items, be it frozen or not. -/
inductive IsSequence : PyValue F → Prop where
  | list (items : List (PyValue F)) : IsSequence (.list items)
  | tuple (items : List (PyValue F)) : IsSequence (.tuple items)

theorem IsSequence.encode_eq {value : PyValue F} (hseq : IsSequence value) :
    ∃ items, encode value = .array items := by
  cases hseq with
  | list items => exact ⟨_, rfl⟩
  | tuple items => exact ⟨_, rfl⟩

/-- A validator that updates an instance in place accepts what it made of it and leaves it so. -/
def Stable : Option (Schema F) → Prop
  | some (.validator validate) => ∀ instance_ updated, validate instance_ = .ok updated →
      PyDistinct updated ∧ (IsSequence instance_ → IsSequence updated) ∧
        validate (recursivelyUnfreeze updated) = .ok (recursivelyUnfreeze updated)
  | some (.document _) => True
  | none => True

theorem IsSequence.unfreeze {value : PyValue F} (hseq : IsSequence value) :
    IsSequence (recursivelyUnfreeze value) := by
  cases hseq with
  | list items => exact .list _
  | tuple items => exact .list _

/-- Values that the encoder takes for one another have the same normal form. -/
theorem normalize_congr (schema : Option (Schema F)) {v w : PyValue F}
    (heq : encode v = encode w) : normalize schema v = normalize schema w := by
  have hfreeze := recursivelyFreeze_congr heq
  have hunfreeze := recursivelyUnfreeze_congr heq
  cases schema with
  | none => exact congrArg Except.ok hfreeze
  | some schema =>
      cases schema with
      | validator validate => rw [normalize, normalize, hunfreeze]
      | document validate => rw [normalize, normalize, hunfreeze, hfreeze]

/-- A normalized value is the frozen form of one that normalizes to it. -/
theorem normalize_ok {schema : Option (Schema F)} (hstable : Stable schema) {v n : PyValue F}
    (hdistinct : PyDistinct v) (hnormalize : normalize schema v = .ok n) :
    ∃ core, PyDistinct core ∧ n = recursivelyFreeze core ∧ (IsSequence v → IsSequence core) ∧
      normalize schema core = .ok n := by
  cases schema with
  | none =>
      cases hnormalize
      exact ⟨v, hdistinct, rfl, id, rfl⟩
  | some schema =>
      cases schema with
      | document validate =>
          refine ⟨v, hdistinct, ?_, id, hnormalize⟩
          rw [normalize] at hnormalize
          cases hvalidate : validate (recursivelyUnfreeze v) with
          | error error =>
              rw [hvalidate] at hnormalize
              cases hnormalize
          | ok accepted =>
              rw [hvalidate] at hnormalize
              exact (Except.ok.inj hnormalize).symm
      | validator validate =>
          rw [normalize] at hnormalize
          cases hvalidate : validate (recursivelyUnfreeze v) with
          | error error =>
              rw [hvalidate] at hnormalize
              cases hnormalize
          | ok updated =>
              rw [hvalidate] at hnormalize
              cases hnormalize
              obtain ⟨hupdated, hseq, hagain⟩ := hstable _ _ hvalidate
              have hfreeze := recursivelyFreeze_congr (encode_recursivelyUnfreeze hupdated)
              refine ⟨updated, hupdated, rfl, fun hv => hseq hv.unfreeze, ?_⟩
              rw [normalize, hagain]
              exact congrArg Except.ok hfreeze

/-- The text of a normalized value gives it back, in every step that is built from the text. -/
def RoundTrips (modules : TextModules F) (schema : Option (Schema F))
    (parse : String → Except PyError (PyValue F)) (n : PyValue F) : Prop :=
  ∃ p, parse (serialize modules n) = .ok p ∧ normalize schema p = .ok n

theorem parseList_hooked {modules : TextModules F} {text : String} {items : List (JsonValue F)}
    (hloads : modules.loads text = .ok (.array items)) :
    parseList modules text = .ok (hooked (.array items)) := by
  rw [parseList, loadsHooked, hloads]
  rfl

theorem list_dict_roundTrips (modules : TextModules F) {schema : Option (Schema F)}
    (hstable : Stable schema) {v n : PyValue F} (hdistinct : PyDistinct v)
    (hnormalize : normalize schema v = .ok n)
    (hloads : modules.loads (modules.dumps (encode n)) = .ok (encode n)) :
    (IsSequence v → RoundTrips modules schema (parseList modules) n) ∧
      RoundTrips modules schema (fun text => parseDict modules (.inl text)) n ∧
      normalize schema n = .ok n ∧
      (schema = none → serialize modules n = serialize modules v) := by
  obtain ⟨core, hcore, rfl, hseq, hnormal⟩ := normalize_ok hstable hdistinct hnormalize
  have hencode : encode (recursivelyFreeze core) = encode core := encode_recursivelyFreeze hcore
  rw [hencode] at hloads
  have hparsed : normalize schema (hooked (encode core)) = .ok (recursivelyFreeze core) := by
    rw [normalize_congr schema (encode_hooked hcore), hnormal]
  refine ⟨?_, ⟨hooked (encode core), ?_, hparsed⟩, ?_, ?_⟩
  · intro hv
    obtain ⟨items, hitems⟩ := (hseq hv).encode_eq
    refine ⟨hooked (encode core), ?_, hparsed⟩
    rw [serialize, hencode]
    rw [hitems] at hloads ⊢
    exact parseList_hooked hloads
  · dsimp only
    rw [parseDict, loadsHooked, serialize, hencode, hloads]
    rfl
  · rw [normalize_congr schema hencode, hnormal]
  · rintro rfl
    have hfreeze : recursivelyFreeze v = recursivelyFreeze core := Except.ok.inj hnormalize
    rw [serialize, serialize, ← hfreeze, encode_recursivelyFreeze hdistinct]

/-- Modules at one document and its text. -/
def oneText (json : JsonValue F) (text : String) (literal : Except PyError (PyValue F)) :
    TextModules F where
  dumps _ := text
  loads source := if source = text then pure json else throw .valueError
  literalEval source := if source = text then literal else throw .valueError

theorem list_dict_roundTrips_nested :
    RoundTrips (F := ℕ) (oneText (.array [.int 1, .object [([97], .array [.null])]])
      "[1, \x7b\"a\": [null]\x7d]" (.error .valueError)) none
      (parseList (oneText (.array [.int 1, .object [([97], .array [.null])]])
        "[1, \x7b\"a\": [null]\x7d]" (.error .valueError)))
      (.tuple [.int 1, .frozen [([97], .tuple [.none])]]) := by
  have hdistinct : PyDistinct (F := ℕ) (.list [.int 1, .dict [([97], .list [.none])]]) := by
    apply JsonValue.Distinct.array
    rintro item (_ | ⟨_, _ | ⟨_, ⟨⟩⟩⟩)
    · exact .int 1
    · apply JsonValue.Distinct.object
      · exact List.nodup_singleton [97]
      · rintro pair (_ | ⟨_, ⟨⟩⟩)
        apply JsonValue.Distinct.array
        rintro item (_ | ⟨_, ⟨⟩⟩)
        exact .null
  exact (@list_dict_roundTrips _ (oneText _ _ _) none trivial _ _ hdistinct rfl rfl).1
    (.list _)

end Trun.Structured
