import Trun.Program.Runs
import Trun.Register.Cache

/-!
# Steps that are rebuilt from texts

A worker that is handed a step it has not scheduled rebuilds it from the texts of its
parameters, as it does with the requirements that a run finds out about.  Private parameters
are not among the texts and get their defaults.
-/

namespace Trun.Register

/-! ## Reading -/

/-- The text of a parameter, or those of the members of a batch. -/
inductive ParamText where
  | one (text : String)
  | many (texts : List String)
  deriving DecidableEq

/-- How a parameter is read. -/
structure Reader where
  /-- `parse`; `none` where it raises. -/
  parse : String → Option Value
  batchMethod : Option (List Value → Value) := none

inductive ReadError where
  /-- `parse` raises. -/
  | unreadable
  /-- `No batch method found`. -/
  | notBatchable
  /-- `Empty parameter list passed to parse_list`. -/
  | emptyList
  deriving DecidableEq

inductive RebuildError where
  | reading (name : String) (error : ReadError)
  | call (error : ParameterError)
  deriving DecidableEq

namespace Reader

variable (reader : Reader)

def parseList (texts : List String) : Except ReadError Value :=
  match reader.batchMethod with
  | none => .error .notBatchable
  | some batchMethod =>
    if texts.isEmpty then .error .emptyList
    else
      match texts.mapM reader.parse with
      | none => .error .unreadable
      | some values => .ok (batchMethod values)

def read : ParamText → Except ReadError Value
  | .one text =>
    match reader.parse text with
    | none => .error .unreadable
    | some value => .ok value
  | .many texts => reader.parseList texts

/-- The value of a parameter that is given a text, or nothing. -/
def Gives (param : Parameter) (text : Option ParamText) (value : Value) : Prop :=
  match text with
  | none => ∃ default, param.default = some default ∧ (param.normalize default).listToTuple = value
  | some text => ∃ given, reader.read text = .ok given ∧
      (param.normalize given).listToTuple = value

theorem read_one {text : String} {value : Value} :
    reader.read (.one text) = .ok value ↔ reader.parse text = some value := by
  unfold read
  dsimp only
  cases reader.parse text with
  | none => simp
  | some given => simp

theorem Gives.unique {reader : Reader} {param : Parameter} {text : Option ParamText}
    {value other : Value} (hgives : reader.Gives param text value)
    (hother : reader.Gives param text other) : value = other := by
  cases text with
  | none =>
      obtain ⟨default, hdefault, rfl⟩ := hgives
      obtain ⟨default', hdefault', rfl⟩ := hother
      rw [Option.some.inj (hdefault.symm.trans hdefault')]
  | some text =>
      obtain ⟨given, hgiven, rfl⟩ := hgives
      obtain ⟨given', hgiven', rfl⟩ := hother
      rw [Except.ok.inj (hgiven.symm.trans hgiven')]

end Reader

namespace StepClass

variable (cls : StepClass) (readers : String → Reader)

/-- The loop of `from_str_params`. -/
def readKeywords (texts : Dict String ParamText) :
    List (String × Parameter) → Dict String Value → Except RebuildError (Dict String Value)
  | [], kwargs => .ok kwargs
  | (name, _) :: params, kwargs =>
    match texts.get? name with
    | none => readKeywords texts params kwargs
    | some text =>
      match (readers name).read text with
      | .error error => .error (.reading name error)
      | .ok value => readKeywords texts params (kwargs.set name value)

/-- `from_str_params`, up to the values that `cls(**kwargs)` looks the instance up by. -/
def fromStrParams (texts : Dict String ParamText) : Except RebuildError ParamValues :=
  match readKeywords readers texts cls.params ∅ with
  | .error error => .error error
  | .ok kwargs => (cls.getParamValues [] kwargs).mapError .call

/-- The dictionary that `to_str_params` sends. -/
def sentTexts (values : ParamValues) : Dict String ParamText :=
  (cls.toStrParams false false values).foldl
    (fun texts entry => texts.set entry.1 (.one entry.2)) ∅

/-! ## What a call makes of keywords -/

variable {cls readers} {texts : Dict String ParamText} {params : List (String × Parameter)}
variable {kwargs result : Dict String Value} {values : ParamValues}

theorem param?_eq_some {name : String} {param : Parameter} :
    cls.param? name = some param ↔ (name, param) ∈ cls.params :=
  (Dict.mem_entries_iff ⟨cls.params, cls.nodup⟩ name param).symm

theorem param_unique {entry other : String × Parameter} (hentry : entry ∈ cls.params)
    (hother : other ∈ cls.params) (hname : entry.1 = other.1) : entry = other := by
  apply Prod.ext hname
  have hparam := param?_eq_some.mpr hentry
  rw [hname, param?_eq_some.mpr hother] at hparam
  exact (Option.some.inj hparam).symm

theorem lookup_cons_other {ν : Type} {name own : String} (value : ν) (entries : List (String × ν))
    (hother : name ≠ own) : ((own, value) :: entries).lookup name = entries.lookup name := by
  rw [List.lookup_cons, beq_false_of_ne hother]

def keyword (readers : String → Reader) (texts : Dict String ParamText) (name : String) :
    Option Value :=
  (texts.get? name).bind fun text => ((readers name).read text).toOption

theorem readKeywords_ok (hread : readKeywords readers texts params kwargs = .ok result) :
    (∀ name, result.get? name =
      (((params.lookup name).bind fun _ => keyword readers texts name) <|> kwargs.get? name)) ∧
    ∀ entry ∈ params, ∀ text ∈ texts.get? entry.1,
      ∃ value, (readers entry.1).read text = .ok value := by
  induction params generalizing kwargs with
  | nil =>
      cases hread
      exact ⟨fun name => by simp, fun _ h => by cases h⟩
  | cons entry params ih =>
      obtain ⟨own, param⟩ := entry
      unfold readKeywords at hread
      cases htext : texts.get? own with
      | none =>
          rw [htext] at hread
          obtain ⟨hget, hall⟩ := ih hread
          refine ⟨fun name => ?_, List.forall_mem_cons.mpr ⟨?_, hall⟩⟩
          · rw [hget]
            by_cases hown : name = own
            · simp [hown, keyword, htext]
            · rw [lookup_cons_other param params hown]
          · intro text hmem
            rw [htext] at hmem
            cases hmem
      | some text =>
          rw [htext] at hread
          dsimp only at hread
          cases hvalue : (readers own).read text with
          | error error =>
              rw [hvalue] at hread
              cases hread
          | ok value =>
              rw [hvalue] at hread
              obtain ⟨hget, hall⟩ := ih hread
              refine ⟨fun name => ?_, List.forall_mem_cons.mpr ⟨?_, hall⟩⟩
              · rw [hget, Dict.get?_set]
                by_cases hown : name = own
                · subst hown
                  cases params.lookup name <;>
                    simp [keyword, htext, hvalue, Except.toOption]
                · rw [lookup_cons_other param params hown, if_neg hown]
              · intro other hmem
                obtain rfl : text = other := Option.some.inj (htext.symm.trans hmem)
                exact ⟨value, hvalue⟩

theorem readKeywords_isOk (kwargs : Dict String Value)
    (hall : ∀ entry ∈ params, ∀ text ∈ texts.get? entry.1,
      ∃ value, (readers entry.1).read text = .ok value) :
    ∃ result, readKeywords readers texts params kwargs = .ok result := by
  induction params generalizing kwargs with
  | nil => exact ⟨kwargs, rfl⟩
  | cons entry params ih =>
      obtain ⟨own, param⟩ := entry
      obtain ⟨hown, hrest⟩ := List.forall_mem_cons.mp hall
      unfold readKeywords
      cases htext : texts.get? own with
      | none => exact ih kwargs hrest
      | some text =>
          obtain ⟨value, hvalue⟩ := hown text htext
          dsimp only at hvalue ⊢
          rw [hvalue]
          exact ih _ hrest

/-- Keywords that name parameters are filled in, each normalized. -/
theorem fillKeywords_ok {entries : List (String × Value)}
    (hknown : ∀ entry ∈ entries, ∃ param, cls.param? entry.1 = some param)
    (hnodup : (entries.map Prod.fst).Nodup)
    (hfresh : ∀ entry ∈ entries, result.get? entry.1 = none) :
    ∃ filled, cls.fillKeywords entries result = .ok filled ∧ ∀ name, filled.get? name =
      (((entries.lookup name).bind fun arg => (cls.param? name).map fun param =>
        param.normalize arg) <|> result.get? name) := by
  induction entries generalizing result with
  | nil => exact ⟨result, rfl, fun _ => rfl⟩
  | cons entry entries ih =>
      obtain ⟨own, arg⟩ := entry
      obtain ⟨⟨param, hparam⟩, hknown⟩ := List.forall_mem_cons.mp hknown
      obtain ⟨hnew, hfresh⟩ := List.forall_mem_cons.mp hfresh
      rw [List.map_cons, List.nodup_cons] at hnodup
      have hothers : ∀ entry ∈ entries, entry.1 ≠ own := by
        intro entry hentry heq
        exact hnodup.1 (List.mem_map.mpr ⟨entry, hentry, heq⟩)
      have hstill : ∀ entry ∈ entries,
          (result.set own (param.normalize arg)).get? entry.1 = none := by
        intro entry hentry
        rw [Dict.get?_set, if_neg (hothers entry hentry)]
        exact hfresh entry hentry
      obtain ⟨filled, hfilled, hget⟩ := ih hknown hnodup.2 hstill
      dsimp only at hparam hnew
      refine ⟨filled, ?_, fun name => ?_⟩
      · unfold fillKeywords
        rw [if_neg (by simp [Dict.contains, hnew]), hparam]
        exact hfilled
      · rw [hget, Dict.get?_set]
        by_cases hown : name = own
        · subst hown
          have hnone : entries.lookup name = none := by
            rw [List.lookup_eq_none_iff]
            intro entry hentry
            simpa using (hothers entry hentry).symm
          simp [hnone, hparam]
        · rw [lookup_cons_other arg entries hown, if_neg hown]

theorem fillDefaults_ok (hfills : fillDefaults params result = .ok kwargs) (name : String) :
    kwargs.get? name = (result.get? name <|> (params.lookup name).bind fun param =>
      param.default.map param.normalize) := by
  induction params generalizing result with
  | nil =>
      cases hfills
      simp
  | cons entry params ih =>
      obtain ⟨own, param⟩ := entry
      unfold fillDefaults at hfills
      split at hfills
      · rename_i hset
        rw [ih hfills]
        by_cases hown : name = own
        · subst hown
          obtain ⟨value, hvalue⟩ := (Dict.contains_iff _ _).mp hset
          simp [hvalue]
        · rw [lookup_cons_other param params hown]
      · rename_i hunset
        split at hfills
        · cases hfills
        · rename_i value hdefault
          rw [ih hfills, Dict.get?_set]
          by_cases hown : name = own
          · subst hown
            have hnone : result.get? name = none := by simpa [Dict.contains] using hunset
            simp [hnone, hdefault]
          · rw [lookup_cons_other param params hown, if_neg hown]

theorem fillDefaults_isOk_iff : (∃ filled, fillDefaults params result = .ok filled) ↔
    ∀ name param, params.lookup name = some param → result.get? name = none →
      ∃ value, param.default = some value := by
  induction params generalizing result with
  | nil => simp [fillDefaults]
  | cons entry params ih =>
      obtain ⟨own, param⟩ := entry
      unfold fillDefaults
      split
      · rename_i hset
        rw [ih]
        apply forall_congr'
        intro name
        by_cases hown : name = own
        · subst hown
          obtain ⟨value, hvalue⟩ := (Dict.contains_iff _ _).mp hset
          simp [hvalue]
        · rw [lookup_cons_other param params hown]
      · rename_i hunset
        have hnone : result.get? own = none := by simpa [Dict.contains] using hunset
        cases hdefault : param.default with
        | none =>
            dsimp only
            constructor
            · rintro ⟨filled, hfilled⟩
              cases hfilled
            · intro hall
              obtain ⟨value, hvalue⟩ := hall own param (by simp) hnone
              rw [hdefault] at hvalue
              cases hvalue
        | some value =>
            dsimp only
            rw [ih]
            apply forall_congr'
            intro name
            rw [Dict.get?_set]
            by_cases hown : name = own
            · subst hown
              simp [hdefault]
            · rw [lookup_cons_other param params hown, if_neg hown]

/-- What the class gets for a parameter, from its keyword or its default. -/
def given (readers : String → Reader) (texts : Dict String ParamText)
    (entry : String × Parameter) : Option Value :=
  ((keyword readers texts entry.1).map entry.2.normalize <|>
    entry.2.default.map entry.2.normalize)

theorem fillKeywords_read (hread : readKeywords readers texts cls.params ∅ = .ok kwargs) :
    ∃ filled, cls.fillKeywords kwargs.entries ∅ = .ok filled ∧
      ∀ entry ∈ cls.params,
        filled.get? entry.1 = (keyword readers texts entry.1).map entry.2.normalize := by
  obtain ⟨hget, -⟩ := readKeywords_ok hread
  have hknown : ∀ entry ∈ kwargs.entries, ∃ param, cls.param? entry.1 = some param := by
    intro entry hentry
    have hsome := (Dict.mem_entries_iff kwargs entry.1 entry.2).mp hentry
    rw [hget, Dict.get?_empty] at hsome
    unfold param?
    cases hparam : cls.params.lookup entry.1 with
    | none => simp [hparam] at hsome
    | some param => exact ⟨param, rfl⟩
  have hempty : ∀ entry ∈ kwargs.entries, (∅ : Dict String Value).get? entry.1 = none :=
    fun _ _ => Dict.get?_empty _
  obtain ⟨filled, hfilled, hvalues⟩ := fillKeywords_ok hknown kwargs.nodup_keys hempty
  refine ⟨filled, hfilled, fun entry hentry => ?_⟩
  have hparam : cls.param? entry.1 = some entry.2 := param?_eq_some.mpr hentry
  have hkwarg : kwargs.entries.lookup entry.1 = keyword readers texts entry.1 := by
    have hlookup : cls.params.lookup entry.1 = some entry.2 := hparam
    have hentryGet := hget entry.1
    rw [hlookup, Dict.get?_empty] at hentryGet
    simpa [Dict.get?] using hentryGet
  rw [hvalues, hkwarg, hparam, Dict.get?_empty]
  cases keyword readers texts entry.1 <;> rfl

/-- The defaults can be filled in if every parameter has a keyword or a default. -/
theorem fillDefaults_isOk_iff_given {filled : Dict String Value}
    (hvalues : ∀ entry ∈ cls.params,
      filled.get? entry.1 = (keyword readers texts entry.1).map entry.2.normalize) :
    (∃ result, fillDefaults cls.params filled = .ok result) ↔
      ∀ entry ∈ cls.params, given readers texts entry ≠ none := by
  rw [fillDefaults_isOk_iff]
  constructor
  · intro hall entry hentry hnone
    have hvalue := hvalues entry hentry
    unfold given at hnone
    cases hkeyword : keyword readers texts entry.1 with
    | some value => simp [hkeyword] at hnone
    | none =>
        rw [hkeyword] at hvalue
        obtain ⟨value, hdefault⟩ := hall entry.1 entry.2 (param?_eq_some.mpr hentry) hvalue
        simp [hkeyword, hdefault] at hnone
  · intro hall name param hlookup hnone
    have hentry : (name, param) ∈ cls.params := param?_eq_some.mp hlookup
    have hgiven := hall (name, param) hentry
    have hvalue := hvalues (name, param) hentry
    apply Option.ne_none_iff_exists'.mp
    intro hdefault
    apply hgiven
    rw [given, ← hvalue]
    simp [hnone, hdefault]

/-- A call without positional arguments. -/
theorem getParamValues_keywords {filled : Dict String Value}
    (hfilled : cls.fillKeywords kwargs.entries ∅ = .ok filled) :
    cls.getParamValues [] kwargs = (fillDefaults cls.params filled).map fun result =>
      cls.params.map fun entry =>
        (entry.1, (result.getD entry.1 (.scalar .none)).listToTuple) := by
  have hpositional : cls.fillPositional 0 cls.positionalParams [] ∅ = .ok ∅ := by
    unfold fillPositional
    rfl
  unfold getParamValues
  rw [List.length_nil, hpositional]
  change (cls.fillKeywords kwargs.entries ∅ >>= _) = _
  rw [hfilled]
  change (fillDefaults cls.params filled >>= _) = _
  cases fillDefaults cls.params filled with
  | error error => rfl
  | ok result => rfl

/-- What the class makes of the keywords: all parameters need a value. -/
theorem getParamValues_eq_ok_iff
    (hread : readKeywords readers texts cls.params ∅ = .ok kwargs) :
    cls.getParamValues [] kwargs = .ok values ↔
      (∀ entry ∈ cls.params, given readers texts entry ≠ none) ∧
      values = cls.params.map fun entry =>
        (entry.1, ((given readers texts entry).getD (.scalar .none)).listToTuple) := by
  obtain ⟨filled, hfilled, hvalues⟩ := fillKeywords_read hread
  have hdefaults := fillDefaults_isOk_iff_given hvalues
  have hresult : ∀ result, fillDefaults cls.params filled = .ok result →
      (cls.params.map fun entry => (entry.1, (result.getD entry.1 (.scalar .none)).listToTuple)) =
        cls.params.map fun entry =>
          (entry.1, ((given readers texts entry).getD (.scalar .none)).listToTuple) := by
    intro result hfills
    apply List.map_congr_left
    intro entry hentry
    have hlookup : cls.params.lookup entry.1 = some entry.2 := param?_eq_some.mpr hentry
    rw [Dict.getD, fillDefaults_ok hfills, hvalues entry hentry, hlookup]
    rfl
  rw [getParamValues_keywords hfilled, ← hdefaults]
  cases hfills : fillDefaults cls.params filled with
  | error error => simp [Except.map]
  | ok result =>
      simp only [Except.map, Except.ok.injEq, exists_eq', true_and, hresult result hfills]
      exact eq_comm

/-- Where the text of a parameter can be read, this is the value that it gets. -/
theorem gives_iff {entry : String × Parameter} {value : Value}
    (hread : ∀ text ∈ texts.get? entry.1, ∃ value, (readers entry.1).read text = .ok value) :
    (readers entry.1).Gives entry.2 (texts.get? entry.1) value ↔
      ∃ found, given readers texts entry = some found ∧ found.listToTuple = value := by
  unfold Reader.Gives given keyword
  cases htext : texts.get? entry.1 with
  | none => cases entry.2.default <;> simp
  | some text =>
      obtain ⟨found, hfound⟩ := hread text htext
      simp [hfound, Except.toOption]

/-- A parameter has one value. -/
theorem exists_value (hnames : values.map Prod.fst = cls.params.map Prod.fst)
    {entry : String × Parameter} (hentry : entry ∈ cls.params) :
    ∃ value, (entry.1, value) ∈ values := by
  have hmem : entry.1 ∈ values.map Prod.fst := by
    rw [hnames]
    exact List.mem_map_of_mem hentry
  obtain ⟨⟨name, value⟩, hpair, hname⟩ := List.mem_map.mp hmem
  dsimp only at hname
  exact ⟨value, hname ▸ hpair⟩

/-- Values that are known name by name. -/
theorem eq_map_of_names (hnames : values.map Prod.fst = cls.params.map Prod.fst)
    {value : String × Parameter → Value}
    (hvalues : ∀ entry ∈ cls.params, ∀ other, (entry.1, other) ∈ values → other = value entry) :
    values = cls.params.map fun entry => (entry.1, value entry) := by
  apply List.ext_getElem
  · simpa using congrArg List.length hnames
  · intro index hleft hright
    rw [List.getElem_map]
    rw [List.length_map] at hright
    have hname : values[index].1 = cls.params[index].1 := by
      have hat := List.getElem_of_eq hnames (by simpa using hleft)
      simpa using hat
    apply Prod.ext hname
    apply hvalues _ (List.getElem_mem hright)
    rw [← hname]
    exact List.getElem_mem hleft

/-- The step is rebuilt exactly with the values that its texts and defaults give. -/
theorem fromStrParams_eq_ok_iff :
    cls.fromStrParams readers texts = .ok values ↔
      values.map Prod.fst = cls.params.map Prod.fst ∧
      ∀ entry ∈ cls.params, ∀ value, (entry.1, value) ∈ values →
        (readers entry.1).Gives entry.2 (texts.get? entry.1) value := by
  have hok : ∀ kwargs, readKeywords readers texts cls.params ∅ = .ok kwargs →
      (cls.fromStrParams readers texts = .ok values ↔
        cls.getParamValues [] kwargs = .ok values) := by
    intro kwargs hread
    unfold fromStrParams
    rw [hread]
    dsimp only
    cases cls.getParamValues [] kwargs <;> simp [Except.mapError]
  constructor
  · intro hrebuilt
    cases hread : readKeywords readers texts cls.params ∅ with
    | error error => simp [fromStrParams, hread] at hrebuilt
    | ok kwargs =>
        obtain ⟨hall, rfl⟩ :=
          (getParamValues_eq_ok_iff hread).mp ((hok kwargs hread).mp hrebuilt)
        refine ⟨by simp [Function.comp_def], fun entry hentry value hvalue => ?_⟩
        apply (gives_iff ((readKeywords_ok hread).2 entry hentry)).mpr
        obtain ⟨other, hother, hpair⟩ := List.mem_map.mp hvalue
        obtain ⟨hname, rfl⟩ := Prod.mk.inj hpair
        obtain rfl := param_unique hother hentry hname
        obtain ⟨found, hfound⟩ := Option.ne_none_iff_exists'.mp (hall other hother)
        exact ⟨found, hfound, by rw [hfound, Option.getD_some]⟩
  · rintro ⟨hnames, hgives⟩
    have hreads : ∀ entry ∈ cls.params, ∀ text ∈ texts.get? entry.1,
        ∃ value, (readers entry.1).read text = .ok value := by
      intro entry hentry text htext
      obtain ⟨value, hvalue⟩ := exists_value hnames hentry
      have hown := hgives entry hentry value hvalue
      rw [htext] at hown
      obtain ⟨found, hfound, -⟩ := hown
      exact ⟨found, hfound⟩
    obtain ⟨kwargs, hread⟩ := readKeywords_isOk ∅ hreads
    have hgiven : ∀ entry ∈ cls.params, ∀ value, (entry.1, value) ∈ values →
        ∃ found, given readers texts entry = some found ∧ found.listToTuple = value :=
      fun entry hentry value hvalue =>
        (gives_iff (hreads entry hentry)).mp (hgives entry hentry value hvalue)
    apply (hok kwargs hread).mpr
    apply (getParamValues_eq_ok_iff hread).mpr
    refine ⟨fun entry hentry => ?_, eq_map_of_names hnames fun entry hentry value hvalue => ?_⟩
    · obtain ⟨value, hvalue⟩ := exists_value hnames hentry
      obtain ⟨found, hfound, -⟩ := hgiven entry hentry value hvalue
      simp [hfound]
    · obtain ⟨found, hfound, rfl⟩ := hgiven entry hentry value hvalue
      rw [hfound, Option.getD_some]

/-! ## What is sent -/

/-- The values of a call have the names of the parameters. -/
theorem names_of_call {args : List Value} (hcall : cls.getParamValues args kwargs = .ok values) :
    values.map Prod.fst = cls.params.map Prod.fst := by
  unfold getParamValues at hcall
  cases hpositional : cls.fillPositional args.length cls.positionalParams args ∅ with
  | error error => simp [hpositional, bind, Except.bind] at hcall
  | ok positional =>
      cases hkeywords : cls.fillKeywords kwargs.entries positional with
      | error error => simp [hpositional, hkeywords, bind, Except.bind] at hcall
      | ok keywords =>
          cases hdefaults : fillDefaults cls.params keywords with
          | error error => simp [hpositional, hkeywords, hdefaults, bind, Except.bind] at hcall
          | ok filled =>
              simp only [hpositional, hkeywords, hdefaults, bind, Except.bind, pure, Except.pure,
                Except.ok.injEq] at hcall
              rw [← hcall, List.map_map]
              rfl

theorem map_fst_filterMap_sublist {α β : Type} {pairs : List (String × α)}
    {keep : String × α → Option (String × β)}
    (hkeep : ∀ pair kept, keep pair = some kept → kept.1 = pair.1) :
    ((pairs.filterMap keep).map Prod.fst).Sublist (pairs.map Prod.fst) := by
  induction pairs with
  | nil => exact List.Sublist.refl _
  | cons pair pairs ih =>
      cases hkept : keep pair with
      | none =>
          rw [List.filterMap_cons_none hkept]
          exact ih.cons _
      | some kept =>
          rw [List.filterMap_cons_some hkept, List.map_cons, List.map_cons, hkeep pair kept hkept]
          exact ih.cons_cons _

section Sent

variable (hnames : values.map Prod.fst = cls.params.map Prod.fst)
include hnames

theorem value_unique {name : String} {value other : Value} (hvalue : (name, value) ∈ values)
    (hother : (name, other) ∈ values) : value = other := by
  have hnodup : (values.map Prod.fst).Nodup := hnames ▸ cls.nodup
  rw [Dict.mem_entries_iff ⟨values, hnodup⟩ name] at hvalue hother
  exact Option.some.inj (hvalue.symm.trans hother)

theorem nodup_toStrParams (onlySignificant onlyPublic : Bool) :
    ((cls.toStrParams onlySignificant onlyPublic values).map Prod.fst).Nodup := by
  have hnodup : (values.map Prod.fst).Nodup := hnames ▸ cls.nodup
  refine hnodup.sublist (map_fst_filterMap_sublist fun pair sent hsent => ?_)
  obtain ⟨param, -, hsome⟩ := Option.bind_eq_some_iff.mp hsent
  split at hsome
  · cases hsome
    rfl
  · cases hsome

theorem lookup_toStrParams {entry : String × Parameter} (hentry : entry ∈ cls.params)
    {value : Value} (hvalue : (entry.1, value) ∈ values) (text : String) :
    (cls.toStrParams false false values).lookup entry.1 = some text ↔
      entry.2.visibility ≠ .isPrivate ∧ entry.2.serialize value = text := by
  refine (Dict.mem_entries_iff ⟨_, nodup_toStrParams hnames false false⟩ entry.1 text).symm.trans ?_
  unfold toStrParams
  rw [List.mem_filterMap]
  constructor
  · rintro ⟨⟨name, other⟩, hother, hsome⟩
    obtain ⟨param, hparam, hsome⟩ := Option.bind_eq_some_iff.mp hsome
    split at hsome
    · rename_i hshown
      simp only [Option.some.injEq, Prod.mk.injEq] at hsome
      obtain ⟨rfl, rfl⟩ := hsome
      dsimp only at hparam
      rw [param?_eq_some.mpr hentry] at hparam
      cases hparam
      obtain rfl := value_unique hnames hvalue hother
      exact ⟨by simpa using hshown, rfl⟩
    · cases hsome
  · rintro ⟨hshown, rfl⟩
    refine ⟨(entry.1, value), hvalue, Option.bind_eq_some_iff.mpr ?_⟩
    exact ⟨entry.2, param?_eq_some.mpr hentry, by simp [hshown]⟩

/-- Private parameters are not sent. -/
theorem get?_sentTexts {entry : String × Parameter} (hentry : entry ∈ cls.params) {value : Value}
    (hvalue : (entry.1, value) ∈ values) :
    (cls.sentTexts values).get? entry.1 =
      if entry.2.visibility = .isPrivate then none else some (.one (entry.2.serialize value)) := by
  have hnodup := nodup_toStrParams hnames false false
  have hsent : (cls.sentTexts values).get? entry.1 =
      ((cls.toStrParams false false values).lookup entry.1).map .one := by
    have hset := Dict.get?_foldl_set_entries (∅ : Dict String ParamText)
      ⟨cls.toStrParams false false values, hnodup⟩ ParamText.one entry.1
    rw [Dict.get?_empty] at hset
    unfold sentTexts
    rw [hset]
    simp [Dict.get?]
  have hmem := lookup_toStrParams hnames hentry hvalue
  rw [hsent]
  split
  · rename_i hprivate
    rw [Option.map_eq_none_iff, Option.eq_none_iff_forall_ne_some]
    intro text htext
    exact ((hmem text).mp htext).1 hprivate
  · rename_i hshown
    rw [(hmem _).mpr ⟨hshown, rfl⟩]
    rfl

/-- The texts of a step, parameter by parameter. -/
theorem toStrParams_eq (onlySignificant onlyPublic : Bool) {value : String × Parameter → Value}
    (hvalues : ∀ entry ∈ cls.params, (entry.1, value entry) ∈ values) :
    cls.toStrParams onlySignificant onlyPublic values = cls.params.filterMap fun entry =>
      if (!onlySignificant || entry.2.significant) &&
          (!onlyPublic || entry.2.visibility = .isPublic) && entry.2.visibility ≠ .isPrivate
      then some (entry.1, entry.2.serialize (value entry))
      else none := by
  rw [eq_map_of_names hnames fun entry hentry other hother =>
    value_unique hnames hother (hvalues entry hentry)]
  unfold toStrParams
  rw [List.filterMap_map]
  apply List.filterMap_congr
  intro entry hentry
  rw [Function.comp_apply, param?_eq_some.mpr hentry]
  rfl

end Sent

/-! ## Rebuilding -/

variable {args : List Value}

/-- A step that is sent as texts is rebuilt as it was exactly if every parameter that is sent
can be read back and every private one has the value that its default gives. -/
theorem fromStrParams_sentTexts_iff (readers : String → Reader)
    (hcall : cls.getParamValues args kwargs = .ok values) :
    cls.fromStrParams readers (cls.sentTexts values) = .ok values ↔
      ∀ entry ∈ cls.params, ∀ value, (entry.1, value) ∈ values →
        if entry.2.visibility = .isPrivate then
          ∃ default, entry.2.default = some default ∧
            (entry.2.normalize default).listToTuple = value
        else ∃ found, (readers entry.1).parse (entry.2.serialize value) = some found ∧
          (entry.2.normalize found).listToTuple = value := by
  have hnames := names_of_call hcall
  rw [fromStrParams_eq_ok_iff, and_iff_right hnames]
  refine forall_congr' fun entry => forall_congr' fun hentry => forall_congr' fun value =>
    forall_congr' fun hvalue => ?_
  rw [get?_sentTexts hnames hentry hvalue]
  by_cases hprivate : entry.2.visibility = .isPrivate
  · rw [if_pos hprivate, if_pos hprivate]
    rfl
  · rw [if_neg hprivate, if_neg hprivate]
    simp only [Reader.Gives, Reader.read_one]

/-- Rebuilt values give the same id if reading and writing leaves the texts as they are in it. -/
theorem stepIdStr_of_stable (readers : String → Reader) (printing : Printing)
    (hcall : cls.getParamValues args kwargs = .ok values) {others : ParamValues}
    (hrebuilt : cls.fromStrParams readers (cls.sentTexts values) = .ok others)
    (hstable : ∀ entry ∈ cls.params, entry.2.significant = true →
      entry.2.visibility = .isPublic → ∀ value, (entry.1, value) ∈ values →
        ∀ found, (readers entry.1).parse (entry.2.serialize value) = some found →
          entry.2.serialize (entry.2.normalize found).listToTuple = entry.2.serialize value) :
    stepIdStr printing cls.stepFamily (cls.toStrParams true true others) =
      stepIdStr printing cls.stepFamily (cls.toStrParams true true values) := by
  have hnames := names_of_call hcall
  obtain ⟨hothers, hgives⟩ := fromStrParams_eq_ok_iff.mp hrebuilt
  have : Nonempty Value := ⟨.scalar .none⟩
  have hvalues : ∀ entry ∈ cls.params, ∃ value, (entry.1, value) ∈ values :=
    fun entry => exists_value hnames
  have hrebuiltValues : ∀ entry ∈ cls.params, ∃ other, (entry.1, other) ∈ others :=
    fun entry => exists_value hothers
  choose! value hvalue using hvalues
  choose! other hother using hrebuiltValues
  rw [toStrParams_eq hnames true true hvalue, toStrParams_eq hothers true true hother]
  congr 1
  apply List.filterMap_congr
  intro entry hentry
  split
  · rename_i hshown
    simp only [Bool.not_true, Bool.false_or, Bool.and_eq_true, decide_eq_true_eq, ne_eq,
      decide_not, Bool.not_eq_true', decide_eq_false_iff_not] at hshown
    have hown := hgives entry hentry _ (hother entry hentry)
    rw [get?_sentTexts hnames hentry (hvalue entry hentry), if_neg hshown.2] at hown
    obtain ⟨found, hfound, hsame⟩ := hown
    rw [← hsame, hstable entry hentry hshown.1.1 hshown.1.2 _ (hvalue entry hentry) found
      (((readers entry.1).read_one).mp hfound)]
  · rfl

end StepClass

/-! ## Instances -/

section Instances

variable {κ : Type} [DecidableEq κ] (info : κ → StepClass) (printing : Printing)

/-- `from_str_params` in a process that has created instances before. -/
def State.fromStrParams (readers : String → Reader) (state : State κ) (cls : κ)
    (texts : Dict String ParamText) : Except RebuildError (Instance κ) × State κ :=
  match StepClass.readKeywords readers texts (info cls).params ∅ with
  | .error error => (.error error, state)
  | .ok kwargs =>
      let (instance?, state) := state.call info printing ⟨cls, [], kwargs⟩
      (instance?.mapError .call, state)

/-- The cache after calls of step classes. -/
def State.ran (state : State κ) (calls : List (Call κ)) : State κ :=
  runAll (fun state c => (state.call info printing c).2) state calls

/-- Every instance in the cache was created by one of the calls, with the values of its key. -/
def Remembers (past : List (Call κ)) (state : State κ) : Prop :=
  ∀ entry ∈ state.cache, Created info printing entry ∧ ∃ c ∈ past, c.key? info = some entry.1

variable {info printing}

theorem Remembers.call {past : List (Call κ)} {state : State κ}
    (hremembers : Remembers info printing past state) (c : Call κ) :
    Remembers info printing (past ++ [c]) (state.call info printing c).2 := by
  have hold : Remembers info printing (past ++ [c]) state := by
    intro entry hentry
    obtain ⟨hcreated, other, hother, hkey⟩ := hremembers entry hentry
    exact ⟨hcreated, other, List.mem_append_left _ hother, hkey⟩
  cases hkey : c.key? info with
  | none =>
      obtain ⟨error, hcall, -⟩ := call_of_key?_eq_none printing state hkey
      rwa [hcall]
  | some key =>
      rcases call_cases printing state hkey with
        ⟨-, hcall⟩ | ⟨-, found, -, -, hcall⟩ | ⟨-, -, hcall⟩
      · rw [hcall]
        exact hold
      · rwa [hcall]
      · rw [hcall]
        intro entry hentry
        rcases List.mem_append.mp hentry with hentry | hnew
        · exact hold entry hentry
        · rw [List.mem_singleton.mp hnew]
          exact ⟨rfl, c, by simp, hkey⟩

theorem remembers_ran (info : κ → StepClass) (printing : Printing) (calls : List (Call κ)) :
    Remembers info printing calls (State.initial.ran info printing calls) := by
  have hstart : Remembers info printing [] (State.initial : State κ) := by
    intro entry hentry
    cases hentry
  exact runAll_history (fun state c => (State.call info printing state c).2)
    (Remembers info printing) (fun _ _ c h => h.call c) hstart calls

/-- The rebuilt step is a new one, or one that was found under equal values. -/
theorem fromStrParams_cases {readers : String → Reader} {state : State κ} {cls : κ}
    {texts : Dict String ParamText} {step : Instance κ}
    (hrebuilt : (state.fromStrParams info printing readers cls texts).1 = .ok step) :
    ∃ values, (info cls).fromStrParams readers texts = .ok values ∧
      (step = instantiate info printing state.next (cls, values) ∨
        ∃ found ∈ state.cache, SameKey found.1 (cls, values) ∧ step = found.2) := by
  unfold State.fromStrParams at hrebuilt
  unfold StepClass.fromStrParams
  cases hread : StepClass.readKeywords readers texts (info cls).params ∅ with
  | error error => simp [hread] at hrebuilt
  | ok kwargs =>
      simp only [hread] at hrebuilt
      cases hkey : (⟨cls, [], kwargs⟩ : Call κ).key? info with
      | none =>
          obtain ⟨error, hcall, -⟩ := call_of_key?_eq_none printing state hkey
          simp [hcall, Except.mapError] at hrebuilt
      | some key =>
          have hvalues : ∃ values, (info cls).getParamValues [] kwargs = .ok values ∧
              key = (cls, values) := by
            unfold Call.key? Call.paramValues at hkey
            cases hvalues : (info cls).getParamValues [] kwargs with
            | error error => simp [hvalues, Except.toOption] at hkey
            | ok values =>
                simp only [hvalues, Except.toOption, Option.map_some, Option.some.injEq] at hkey
                exact ⟨values, rfl, hkey.symm⟩
          obtain ⟨values, hvalues, rfl⟩ := hvalues
          refine ⟨values, by simp [hvalues, Except.mapError], ?_⟩
          rcases call_cases printing state hkey with
            ⟨-, hcall⟩ | ⟨-, found, hfound, hsame, hcall⟩ | ⟨-, -, hcall⟩
          all_goals
            simp only [hcall, Except.mapError, Except.ok.injEq] at hrebuilt
          · exact .inl hrebuilt.symm
          · exact .inr ⟨found, hfound, hsame, hrebuilt.symm⟩
          · exact .inl hrebuilt.symm

/-- Where a step can be rebuilt at all, it has the id that it was scheduled under if reading and
writing leaves the texts as they are in the id, and no call before, with values that Python finds
equal, had other texts there. -/
theorem stepId_rebuilt (readers : String → Reader) {cls : κ} {args : List Value}
    {kwargs : Dict String Value} {values : ParamValues}
    (hcall : (info cls).getParamValues args kwargs = .ok values) {calls : List (Call κ)}
    {step : Instance κ}
    (hrebuilt : ((State.initial.ran info printing calls).fromStrParams info printing readers cls
      ((info cls).sentTexts values)).1 = .ok step)
    (hstable : ∀ entry ∈ (info cls).params, entry.2.significant = true →
      entry.2.visibility = .isPublic → ∀ value, (entry.1, value) ∈ values →
        ∀ found, (readers entry.1).parse (entry.2.serialize value) = some found →
          entry.2.serialize (entry.2.normalize found).listToTuple = entry.2.serialize value)
    (hagree : ∀ c ∈ calls, ∀ others, c.key? info = some (cls, others) →
      ∀ rebuilt, (info cls).fromStrParams readers ((info cls).sentTexts values) = .ok rebuilt →
        sameValues others rebuilt = true →
          (info cls).toStrParams true true others = (info cls).toStrParams true true rebuilt) :
    step.stepId =
      stepIdStr printing (info cls).stepFamily ((info cls).toStrParams true true values) := by
  obtain ⟨rebuilt, hvalues, hstep⟩ := fromStrParams_cases hrebuilt
  have hid := StepClass.stepIdStr_of_stable readers printing hcall hvalues hstable
  obtain rfl | ⟨found, hfound, hsame, rfl⟩ := hstep
  · exact hid
  · obtain ⟨hcreated, c, hc, hkey⟩ := remembers_ran info printing calls found hfound
    obtain ⟨⟨own, others⟩, cached⟩ := found
    obtain ⟨rfl, hequal⟩ := hsame
    have htexts := hagree c hc others hkey rebuilt hvalues hequal
    have hcached : cached.stepId =
        stepIdStr printing (info own).stepFamily ((info own).toStrParams true true others) :=
      congrArg Instance.stepId hcreated
    rw [← hid, ← htexts]
    exact hcached

end Instances

namespace Sample

/-- `Parameter`, whose `parse` is the identity. -/
def plainReader : Reader := { parse := fun text => some (.scalar (.str text)) }

/-- `class T(Step)` with a parameter `name` and a private one `token = "t"`. -/
def secretClass : StepClass where
  stepFamily := "T"
  params :=
    [("name", parameter printing),
     ("token",
      { parameter printing with visibility := .isPrivate, default := some (.scalar (.str "t")) })]
  nodup := by simp

/-- `T("a")`. -/
def secretValues : ParamValues := [("name", .scalar (.str "a")), ("token", .scalar (.str "t"))]

/-- `T("a", "u")`. -/
def givenValues : ParamValues := [("name", .scalar (.str "a")), ("token", .scalar (.str "u"))]

end Sample

open Sample in
theorem fromStrParams_sentTexts_iff_secret :
    secretClass.fromStrParams (fun _ => plainReader) (secretClass.sentTexts secretValues) =
      .ok secretValues := by
  refine (StepClass.fromStrParams_sentTexts_iff (fun _ => plainReader)
    (rfl : secretClass.getParamValues [.scalar (.str "a")] ∅ = .ok secretValues)).mpr ?_
  simp [secretClass, plainReader, parameter, printing, str, Value.listToTuple]

open Sample in
/-- A private value that was given is replaced by the default.  The step that the other process
finds, `T("a")`, has the id of `T("a", "u")`. -/
theorem stepId_rebuilt_given :
    (instantiate (fun _ : Unit => secretClass) printing 0 ((), secretValues)).stepId =
      stepIdStr printing secretClass.stepFamily (secretClass.toStrParams true true givenValues) :=
  @stepId_rebuilt Unit _ (fun _ => secretClass) printing (fun _ => plainReader) ()
    [.scalar (.str "a"), .scalar (.str "u")] ∅ givenValues rfl [⟨(), [.scalar (.str "a")], ∅⟩]
    (instantiate (fun _ => secretClass) printing 0 ((), secretValues)) rfl
    (by simp [secretClass, plainReader, parameter, printing, str, Value.listToTuple])
    (by
      rintro c hc others hkey rebuilt hrebuilt -
      cases List.mem_singleton.mp hc
      cases hkey
      cases hrebuilt
      rfl)

end Trun.Register
