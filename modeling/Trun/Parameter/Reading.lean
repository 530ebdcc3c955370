import Mathlib.Data.List.TakeWhile
import Trun.Parameter.TimeDelta

/-!
# What the expressions of durations read

Both expressions are sequences of optional fields: digits, and what has to come
after the digits of a unit.  A field that is there is read whole, since no digit
can come after its digits.
-/

namespace Trun.TimeDelta

open Regex

/-- The text without the word in front, if it is there. -/
def dropWord (word text : List Char) : List Char :=
  if word <+: text then text.drop word.length else text

/-- What comes after the unit, for the digits that come before it. -/
abbrev After := Key → List Char → Option (List Char)

def isoAfter : After := fun k text =>
  match text with
  | c :: rest => if c = k.upper then some rest else none
  | [] => none

def simpleAfter : After := fun k text =>
  match dropWord [' '] text with
  | c :: rest =>
    if c = k.letter then some (dropWord [' '] (dropWord [k.plural] (dropWord k.middle rest)))
    else none
  | [] => none

section Reading

variable (d : Decimals)

/-- The digits of a field, and what comes after it. -/
def readField (after : After) (k : Key) (text : List Char) : Option (List Char × List Char) :=
  if text.takeWhile d.isDecimal = [] then none
  else (after k (text.dropWhile d.isDecimal)).map fun rest => (text.takeWhile d.isDecimal, rest)

/-- The fields that are there, in the order of the units. -/
def readFields (after : After) : List Key → List Char → List (Key × List Char) × List Char
  | [], text => ([], text)
  | k :: keys, text =>
    match readField d after k text with
    | some (digits, rest) =>
      let later := readFields after keys rest
      ((k, digits) :: later.1, later.2)
    | none => readFields after keys text

/-- The length of a duration. -/
def total (fields : List (Key × List Char)) : ℕ :=
  (fields.map fun field => d.int field.2 * field.1.length).sum

end Reading

/-! ## Groups -/

section Groups

variable {d : Decimals} {groups later : List (Option String × List Char)}
  {fields back : List (Key × List Char)}

def named (groups : List (Option String × List Char)) : List (String × List Char) :=
  groups.filterMap fun group => group.1.map fun name => (name, group.2)

/-- The groups with names are the fields. -/
structure Captures (groups : List (Option String × List Char)) (fields : List (Key × List Char)) :
    Prop where
  names : named groups = fields.map fun field => (field.1.name, field.2)
  nonempty : ∀ field ∈ fields, field.2 ≠ []

theorem Captures.nil : Captures [] [] := ⟨rfl, by simp⟩

theorem Captures.append (hfront : Captures groups fields) (hback : Captures later back) :
    Captures (groups ++ later) (fields ++ back) where
  names := by
    rw [named, List.filterMap_append, List.map_append, ← hfront.names, ← hback.names]
    rfl
  nonempty := by
    intro field hfield
    cases List.mem_append.mp hfield with
    | inl hmem => exact hfront.nonempty field hmem
    | inr hmem => exact hback.nonempty field hmem

theorem Captures.unnamed (hgroups : Captures groups fields) (text : List Char) :
    Captures ((none, text) :: groups) fields :=
  ⟨hgroups.names, hgroups.nonempty⟩

theorem Captures.any (hgroups : Captures groups fields) (hfields : fields ≠ []) :
    groups.any (fun group => !group.2.isEmpty) = true := by
  obtain ⟨field, hfield⟩ := List.exists_mem_of_ne_nil fields hfields
  have hmem : (field.1.name, field.2) ∈ named groups := by
    rw [hgroups.names]
    exact List.mem_map_of_mem hfield
  obtain ⟨group, hgroup, heq⟩ := List.mem_filterMap.mp hmem
  obtain ⟨name, -, htext⟩ := Option.map_eq_some_iff.mp heq
  rw [List.any_eq_true]
  refine ⟨group, hgroup, ?_⟩
  have hne := hgroups.nonempty field hfield
  simp [(Prod.mk.inj htext).2, hne]

theorem lookup_named (groups : List (Option String × List Char)) (name : String) :
    groups.lookup (some name) = (named groups).lookup name := by
  induction groups with
  | nil => rfl
  | cons group rest ih =>
      obtain ⟨label, text⟩ := group
      cases label with
      | none => simpa [named, List.lookup_cons] using ih
      | some other =>
          have hrest : named ((some other, text) :: rest) = (other, text) :: named rest := rfl
          rw [hrest, List.lookup_cons, List.lookup_cons, ih]
          by_cases heq : name = other <;> simp [heq]

theorem lookup_names (fields : List (Key × List Char)) (k : Key) :
    (fields.map fun field => (field.1.name, field.2)).lookup k.name = fields.lookup k := by
  induction fields with
  | nil => rfl
  | cons field rest ih =>
      rw [List.map_cons, List.lookup_cons, List.lookup_cons, ih]
      have hname : (k.name == field.1.name) = (k == field.1) := by
        rw [Bool.eq_iff_iff, beq_iff_eq, beq_iff_eq]
        exact ⟨Key.name_injective _ _, congrArg Key.name⟩
      rw [hname]

/-- The values of the units add up to the length of the fields. -/
theorem sum_lookup (value : List Char → ℕ) {ks : List Key} (hnodup : ks.Nodup)
    (hfields : (fields.map Prod.fst).Sublist ks) :
    (ks.map fun k => ((fields.lookup k).map value).getD 0 * k.length).sum =
      (fields.map fun field => value field.2 * field.1.length).sum := by
  induction ks generalizing fields with
  | nil =>
      rw [List.map_eq_nil_iff.mp (List.sublist_nil.mp hfields)]
      rfl
  | cons k ks ih =>
      obtain ⟨hk, hnodup⟩ := List.nodup_cons.mp hnodup
      cases fields with
      | nil => simp
      | cons field rest =>
          obtain ⟨other, text⟩ := field
          by_cases heq : k = other
          · subst heq
            have hrest : (rest.map Prod.fst).Sublist ks := by simpa using hfields
            have hlater : ks.map (fun k' => ((((k, text) :: rest).lookup k').map value).getD 0 *
                k'.length) = ks.map fun k' => ((rest.lookup k').map value).getD 0 * k'.length := by
              apply List.map_congr_left
              intro k' hk'
              have hne : (k' == k) = false := by
                rw [beq_eq_false_iff_ne]
                rintro rfl
                exact hk hk'
              rw [List.lookup_cons, hne]
            rw [List.map_cons, List.sum_cons, hlater, ih hnodup hrest]
            simp
          · have hlater : (((other, text) :: rest).map Prod.fst).Sublist ks := by
              cases hfields with
              | cons _ h => exact h
              | cons_cons => exact absurd rfl heq
            have hnone : ((other, text) :: rest).lookup k = none := by
              rw [List.lookup_eq_none_iff]
              intro field hfield
              rw [bne_iff_ne]
              rintro rfl
              exact hk (hlater.subset (List.mem_map_of_mem hfield))
            rw [List.map_cons, List.sum_cons, hnone, ih hnodup hlater]
            simp

end Groups

/-! ## One field -/

section Fields

variable {d : Decimals} {after : After} {k : Key} {second r : Regex Char}

/-- The expression matches what has to come after the digits of a field. -/
structure Ends (d : Decimals) (after : After) (k : Key) (second : Regex Char) : Prop where
  found : ∀ {text rest}, after k text = some rest →
    ∃ groups, second.match? text = some ⟨groups, rest⟩ ∧ named groups = []
  missing : ∀ {text}, after k text = none → second.match? text = none
  digits : ∀ c rest, d.isDecimal c = true → after k (c :: rest) = none

/-- The expression matches a field that is there, and else nothing. -/
structure IsField (d : Decimals) (after : After) (k : Key) (r : Regex Char) : Prop where
  found : ∀ {text digits rest}, readField d after k text = some (digits, rest) →
    ∃ groups, r.match? text = some ⟨groups, rest⟩ ∧ Captures groups [(k, digits)]
  missing : ∀ {text}, readField d after k text = none → r.match? text = none

/-- The expression matches a field that is there, and else the empty text. -/
structure IsOptional (d : Decimals) (after : After) (k : Key) (r : Regex Char) : Prop where
  total : r.Total
  found : ∀ {text digits rest}, readField d after k text = some (digits, rest) →
    ∃ groups, r.match? text = some ⟨groups, rest⟩ ∧ Captures groups [(k, digits)]
  missing : ∀ {text}, readField d after k text = none → r.match? text = some ⟨[], text⟩

theorem head?_dropWhile {α : Type} (p : α → Bool) (text : List α) :
    ∀ c ∈ (text.dropWhile p).head?, p c = false := by
  intro c hc
  have hne : text.dropWhile p ≠ [] := by
    intro hnil
    rw [hnil] at hc
    cases hc
  rw [List.head?_eq_some_head hne] at hc
  cases hc
  exact List.head_dropWhile_not p hne

theorem Ends.isField (hends : Ends d after k second) :
    IsField d after k (.seq (.group (some k.name) (.run d.isDecimal)) second) := by
  have hstop : ∀ c rest, d.isDecimal c = true → second.match? (c :: rest) = none :=
    fun c rest hc => hends.missing (hends.digits c rest hc)
  constructor
  · intro text digits rest hread
    rw [readField] at hread
    split_ifs at hread with hempty
    obtain ⟨after_, hafter, heq⟩ := Option.map_eq_some_iff.mp hread
    cases heq
    obtain ⟨groups, hsecond, hnamed⟩ := hends.found hafter
    have hmatch := match?_run_seq (some k.name) second hempty
      (fun c hc => List.mem_takeWhile_imp hc) (head?_dropWhile d.isDecimal text) hstop
    rw [List.takeWhile_append_dropWhile, hsecond] at hmatch
    refine ⟨_, hmatch, ?_, ?_⟩
    · simpa [Match.append, named] using hnamed
    · simpa using hempty
  · intro text hread
    rw [readField] at hread
    split_ifs at hread with hempty
    · apply match?_run_seq_of_not
      intro c hc
      cases text with
      | nil => cases hc
      | cons b rest =>
          cases hc
          rw [Bool.eq_false_iff]
          intro hb
          rw [List.takeWhile_cons_of_pos hb] at hempty
          cases hempty
    · rw [Option.map_eq_none_iff] at hread
      have hmatch := match?_run_seq (some k.name) second hempty
        (fun c hc => List.mem_takeWhile_imp hc) (head?_dropWhile d.isDecimal text) hstop
      rw [List.takeWhile_append_dropWhile, hends.missing hread] at hmatch
      exact hmatch

theorem IsField.isOptional (hfield : IsField d after k r) :
    IsOptional d after k (.opt (.group none r)) := by
  refine ⟨total_opt _, ?_, ?_⟩
  · intro text digits rest hread
    obtain ⟨groups, hmatch, hgroups⟩ := hfield.found hread
    rw [match?_opt, match?_group, hmatch]
    exact ⟨_, rfl, hgroups.unnamed _⟩
  · intro text hread
    rw [match?_opt, match?_group, hfield.missing hread]
    rfl

theorem total_join {parts : List (Regex Char)} (hparts : ∀ r ∈ parts, r.Total) :
    (join parts).Total := by
  induction parts with
  | nil => exact total_empty
  | cons r rest ih =>
      rw [List.forall_mem_cons] at hparts
      exact total_seq hparts.1 (ih hparts.2)

/-- The optional fields one after the other. -/
theorem match?_join {ks : List Key} {part : Key → Regex Char}
    (hparts : ∀ k ∈ ks, IsOptional d after k (part k)) (text : List Char) :
    ∃ groups, (join (ks.map part)).match? text = some ⟨groups, (readFields d after ks text).2⟩ ∧
      Captures groups (readFields d after ks text).1 ∧
      ((readFields d after ks text).1 = [] → groups = []) := by
  induction ks generalizing text with
  | nil => exact ⟨[], rfl, .nil, fun _ => rfl⟩
  | cons k ks ih =>
      rw [List.forall_mem_cons] at hparts
      obtain ⟨hpart, hrest⟩ := hparts
      have htotal : (join (ks.map part)).Total := by
        apply total_join
        intro r hr
        obtain ⟨k', hk', rfl⟩ := List.mem_map.mp hr
        exact (hrest k' hk').total
      rw [List.map_cons, join, match?_seq _ htotal, readFields]
      cases hread : readField d after k text with
      | none =>
          obtain ⟨groups, hmatch, hgroups⟩ := ih hrest text
          rw [hpart.missing hread, Option.bind_some, hmatch]
          exact ⟨groups, rfl, hgroups⟩
      | some field =>
          obtain ⟨digits, rest⟩ := field
          obtain ⟨front, hfront, hcaptures⟩ := hpart.found hread
          obtain ⟨groups, hmatch, hgroups, -⟩ := ih hrest rest
          rw [hfront, Option.bind_some, hmatch]
          exact ⟨front ++ groups, rfl, hcaptures.append hgroups, fun hnil => nomatch hnil⟩

end Fields

/-! ## The two kinds of fields -/

section Kinds

variable (d : Decimals)

theorem isDecimal_ascii {c : Char} (hascii : c.toNat < 128) (hc : c.isDigit = false) :
    d.isDecimal c = false := by
  rw [Decimals.isDecimal, d.others c hascii hc]
  rfl

theorem isDecimal_blank : d.isDecimal ' ' = false := isDecimal_ascii d (by decide) (by decide)

theorem isDecimal_letter (k : Key) : d.isDecimal k.letter = false := by
  cases k <;> exact isDecimal_ascii d (by decide) (by decide)

theorem isDecimal_upper (k : Key) : d.isDecimal k.upper = false := by
  cases k <;> exact isDecimal_ascii d (by decide) (by decide)

theorem ne_of_isDecimal {b c : Char} (hb : d.isDecimal b = true) (hc : d.isDecimal c = false) :
    b ≠ c := by
  rintro rfl
  rw [hb] at hc
  cases hc

theorem ends_iso (k : Key) : Ends d isoAfter k (.char (· = k.upper)) := by
  refine ⟨?_, ?_, ?_⟩
  · intro text rest hafter
    cases text with
    | nil => cases hafter
    | cons c text =>
        simp only [isoAfter] at hafter
        split_ifs at hafter with hc
        cases hafter
        exact ⟨[], by simp [match?, hc], rfl⟩
  · intro text hafter
    cases text with
    | nil => rfl
    | cons c text =>
        simp only [isoAfter] at hafter
        split_ifs at hafter with hc
        simp [match?, hc]
  · intro c rest hc
    exact if_neg (ne_of_isDecimal d hc (isDecimal_upper d k))

/-- The expression takes a word that is there. -/
def Drops (word : List Char) (r : Regex Char) : Prop :=
  ∀ text, ∃ groups, r.match? text = some ⟨groups, dropWord word text⟩ ∧ named groups = []

theorem drops_literal (word : List Char) : Drops word (.opt (.group none (.literal word))) := by
  intro text
  rw [match?_opt, match?_group]
  by_cases hstarts : word <+: text
  · obtain ⟨rest, rfl⟩ := hstarts
    rw [match?_literal, dropWord, if_pos (List.prefix_append word rest), List.drop_left]
    exact ⟨_, rfl, rfl⟩
  · rw [match?_literal_of_not_starts hstarts, dropWord, if_neg hstarts]
    exact ⟨_, rfl, rfl⟩

theorem dropWord_singleton (b c : Char) (rest : List Char) :
    dropWord [b] (c :: rest) = if c = b then rest else c :: rest := by
  simp only [dropWord, List.cons_prefix_cons, List.nil_prefix, and_true, List.length_singleton,
    List.drop_succ_cons, List.drop_zero]
  by_cases heq : c = b
  · rw [if_pos heq, if_pos heq.symm]
  · rw [if_neg heq, if_neg fun h => heq h.symm]

theorem drops_char (b : Char) : Drops [b] (.opt (.char (· = b))) := by
  intro text
  rw [match?_opt]
  cases text with
  | nil => exact ⟨[], rfl, rfl⟩
  | cons c rest =>
      rw [dropWord_singleton]
      by_cases heq : c = b
      · exact ⟨[], by simp [match?, heq], rfl⟩
      · exact ⟨[], by simp [match?, heq], rfl⟩

theorem drops_group_char (b : Char) : Drops [b] (.opt (.group none (.char (· = b)))) := by
  intro text
  rw [match?_opt, match?_group]
  cases text with
  | nil => exact ⟨[], rfl, rfl⟩
  | cons c rest =>
      rw [dropWord_singleton]
      by_cases heq : c = b
      · exact ⟨_, by simp [match?, heq]; rfl, rfl⟩
      · exact ⟨[], by simp [match?, heq], rfl⟩

theorem Drops.total {word : List Char} {r : Regex Char} (hdrops : Drops word r) : r.Total := by
  intro text
  obtain ⟨groups, hmatch, -⟩ := hdrops text
  rw [hmatch]
  rfl

/-- What comes after the letter of a unit. -/
theorem match?_unit (k : Key) (text : List Char) :
    ∃ groups, (seq (.opt (.group none (.literal k.middle)))
        (.seq (.opt (.group none (.char (· = k.plural)))) (.opt (.char (· = ' '))))).match? text =
      some ⟨groups, dropWord [' '] (dropWord [k.plural] (dropWord k.middle text))⟩ ∧
        named groups = [] := by
  have hblank := (drops_char ' ').total
  have hlater := total_seq (drops_group_char k.plural).total hblank
  obtain ⟨front, hfront, hnamedFront⟩ := drops_literal k.middle text
  obtain ⟨mid, hmid, hnamedMid⟩ := drops_group_char k.plural (dropWord k.middle text)
  obtain ⟨back, hback, hnamedBack⟩ :=
    drops_char ' ' (dropWord [k.plural] (dropWord k.middle text))
  refine ⟨front ++ (mid ++ back), ?_, ?_⟩
  · rw [match?_seq _ hlater, hfront, Option.bind_some, match?_seq _ hblank, hmid,
      Option.bind_some, hback]
    rfl
  · rw [named, List.filterMap_append, List.filterMap_append]
    rw [named] at hnamedFront hnamedMid hnamedBack
    rw [hnamedFront, hnamedMid, hnamedBack]
    rfl

/-- The second part of a simple field. -/
abbrev simpleEnd (k : Key) : Regex Char :=
  .seq (.opt (.char (· = ' '))) (.seq (.char (· = k.letter))
    (.seq (.opt (.group none (.literal k.middle)))
      (.seq (.opt (.group none (.char (· = k.plural)))) (.opt (.char (· = ' '))))))

theorem match?_simpleEnd (k : Key) (text : List Char) :
    (simpleEnd k).match? text = (Regex.seq (.char (· = k.letter))
      (.seq (.opt (.group none (.literal k.middle)))
        (.seq (.opt (.group none (.char (· = k.plural)))) (.opt (.char (· = ' '))))) |>.match?
          (dropWord [' '] text)) := by
  rw [match?_opt_seq]
  cases text with
  | nil => rfl
  | cons c rest =>
      rw [dropWord_singleton]
      by_cases hc : c = ' '
      · subst hc
        have hletter : ∀ c ∈ (' ' :: rest).head?, decide (c = k.letter) = false := by
          intro c hc
          cases hc
          cases k <;> decide
        rw [if_pos rfl, match?_char_seq _ (by simp)]
        exact (congrArg _ (match?_char_seq_of_not _ hletter)).trans Option.or_none
      · rw [if_neg hc, match?_char_seq_of_not _ (by simpa using hc), Option.none_or]

theorem ends_simple (k : Key) : Ends d simpleAfter k (simpleEnd k) := by
  refine ⟨?_, ?_, ?_⟩
  · intro text rest hafter
    rw [match?_simpleEnd]
    rw [simpleAfter] at hafter
    cases hdrop : dropWord [' '] text with
    | nil =>
        rw [hdrop] at hafter
        cases hafter
    | cons c after_ =>
        rw [hdrop] at hafter
        dsimp only at hafter
        split_ifs at hafter with hc
        cases hafter
        rw [match?_char_seq _ (by simpa using hc)]
        exact match?_unit k after_
  · intro text hafter
    rw [match?_simpleEnd]
    rw [simpleAfter] at hafter
    apply match?_char_seq_of_not
    intro c hc
    cases hdrop : dropWord [' '] text with
    | nil =>
        rw [hdrop] at hc
        cases hc
    | cons b after_ =>
        rw [hdrop] at hafter hc
        cases hc
        dsimp only at hafter
        split_ifs at hafter with hb
        simpa using hb
  · intro c rest hc
    rw [simpleAfter, dropWord_singleton, if_neg (ne_of_isDecimal d hc (isDecimal_blank d))]
    exact if_neg (ne_of_isDecimal d hc (isDecimal_letter d k))

end Kinds

/-! ## The parsers -/

section Parsers

variable (d : Decimals)

def timeKeys : List Key := [.hours, .minutes, .seconds]

/-- The fields of a time after its `T`. -/
def timeFields : List Char → List (Key × List Char)
  | [] => []
  | c :: time => if c = 'T' then (readFields d isoAfter timeKeys time).1 else []

/-- The fields of an ISO 8601 duration at the beginning of a text. -/
def isoFields : List Char → List (Key × List Char)
  | [] => []
  | c :: rest =>
    if c = 'P' then
      match readField d isoAfter .weeks rest with
      | some (digits, _) => [(.weeks, digits)]
      | none =>
        let days := readFields d isoAfter [.days] rest
        days.1 ++ timeFields d days.2
    else []

def simpleFields (text : List Char) : List (Key × List Char) :=
  (readFields d simpleAfter keys text).1

variable {d}

theorem readFields_keys (after : After) (ks : List Key) (text : List Char) :
    ((readFields d after ks text).1.map Prod.fst).Sublist ks := by
  induction ks generalizing text with
  | nil => exact List.Sublist.refl _
  | cons k ks ih =>
      rw [readFields]
      cases readField d after k text with
      | none => exact (ih text).cons k
      | some field => exact (ih field.2).cons_cons k

theorem int_zero : d.int ['0'] = 0 := by
  have hzero : d.digit '0' = some 0 := d.ascii 0 (by decide)
  simp [Decimals.int, hzero]

theorem timedelta_of_captures {groups : List (Option String × List Char)}
    {fields : List (Key × List Char)} (hgroups : Captures groups fields)
    (hkeys : (fields.map Prod.fst).Sublist keys) :
    (timedelta fun key => d.int ((groups.lookup (some key.name)).getD ['0'])) =
      ofSeconds (total d fields) := by
  have hvalue : ∀ key : Key, d.int ((groups.lookup (some key.name)).getD ['0']) =
      ((fields.lookup key).map d.int).getD 0 := by
    intro key
    rw [lookup_named, hgroups.names, lookup_names]
    cases fields.lookup key with
    | none => exact int_zero
    | some digits => rfl
  simp only [timedelta, hvalue]
  rw [sum_lookup d.int (by decide) hkeys]
  rfl

theorem applyRegex_of_captures {regex : Regex Char} {input rest : List Char}
    {groups : List (Option String × List Char)} {fields : List (Key × List Char)}
    (hmatch : regex.match? input = some ⟨groups, rest⟩) (hgroups : Captures groups fields)
    (hkeys : (fields.map Prod.fst).Sublist keys) :
    applyRegex d regex input =
      if groups.any fun group => !group.2.isEmpty then some <$> ofSeconds (total d fields)
      else pure none := by
  rw [applyRegex, hmatch]
  dsimp only
  rw [timedelta_of_captures hgroups hkeys]

theorem parseSimple_eq (input : List Char) : parseSimple d input =
    if simpleFields d input = [] then pure none
    else some <$> ofSeconds (total d (simpleFields d input)) := by
  have hparts : ∀ k ∈ keys, IsOptional d simpleAfter k (simpleField d k) := fun k _ =>
    (ends_simple d k).isField.isOptional
  obtain ⟨groups, hmatch, hgroups, hempty⟩ := match?_join hparts input
  rw [parseSimple, applyRegex_of_captures hmatch hgroups (readFields_keys ..)]
  by_cases hfields : simpleFields d input = []
  · rw [if_pos hfields, hempty hfields]
    rfl
  · rw [if_neg hfields, if_pos (hgroups.any hfields)]
    rfl

theorem isOptional_iso (d : Decimals) (k : Key) : IsOptional d isoAfter k (optionalField d k) :=
  (ends_iso d k).isField.isOptional

/-- The expression of a time that may be missing. -/
abbrev optionalTime (d : Decimals) : Regex Char :=
  .opt (.group none (.seq (.char (· = 'T')) (join (timeKeys.map (optionalField d)))))

theorem match?_time (text : List Char) : ∃ groups after,
    (optionalTime d).match? text = some ⟨groups, after⟩ ∧ Captures groups (timeFields d text) := by
  rw [match?_opt, match?_group]
  cases text with
  | nil => exact ⟨_, _, rfl, .nil⟩
  | cons c time =>
      rw [timeFields]
      by_cases hc : c = 'T'
      · obtain ⟨groups, hmatch, hgroups, -⟩ := match?_join (fun k (_ : k ∈ timeKeys) =>
          isOptional_iso d k) time
        rw [if_pos hc, match?_char_seq _ (by simpa using hc), hmatch]
        exact ⟨_, _, rfl, hgroups.unnamed _⟩
      · rw [if_neg hc, match?_char_seq_of_not _ (by simpa using hc)]
        exact ⟨_, _, rfl, .nil⟩

theorem match?_iso8601 (rest : List Char) : ∃ groups after,
    (iso8601 d).match? ('P' :: rest) = some ⟨groups, after⟩ ∧
      Captures groups (isoFields d ('P' :: rest)) := by
  have hfield : IsField d isoAfter .weeks (field d .weeks) := (ends_iso d .weeks).isField
  have htotal : (optionalTime d).Total := total_opt _
  rw [iso8601, match?_char_seq _ (by simp), match?_group, match?_alt, isoFields, if_pos rfl]
  cases hweeks : readField d isoAfter .weeks rest with
  | some field =>
      obtain ⟨digits, after⟩ := field
      obtain ⟨groups, hmatch, hgroups⟩ := hfield.found hweeks
      rw [hmatch]
      exact ⟨_, _, rfl, hgroups.unnamed _⟩
  | none =>
      have hdays : ∃ groups, (optionalField d .days).match? rest =
          some ⟨groups, (readFields d isoAfter [.days] rest).2⟩ ∧
            Captures groups (readFields d isoAfter [.days] rest).1 := by
        rw [readFields]
        cases hread : readField d isoAfter .days rest with
        | none => exact ⟨[], (isOptional_iso d .days).missing hread, .nil⟩
        | some field => exact (isOptional_iso d .days).found hread
      obtain ⟨front, hfront, hfrontCaptures⟩ := hdays
      obtain ⟨back, after, hback, hbackCaptures⟩ :=
        match?_time (d := d) (readFields d isoAfter [.days] rest).2
      rw [hfield.missing hweeks, Option.none_or]
      have hmatch := match?_seq (optionalField d .days) htotal rest
      rw [hfront, Option.bind_some, hback] at hmatch
      refine ⟨_, _, congrArg _ hmatch, ?_⟩
      exact (hfrontCaptures.append hbackCaptures).unnamed _

theorem isoFields_keys (text : List Char) :
    ((isoFields d text).map Prod.fst).Sublist keys := by
  cases text with
  | nil => exact List.nil_sublist _
  | cons c rest =>
      rw [isoFields]
      split_ifs
      · cases readField d isoAfter .weeks rest with
        | some field => exact List.singleton_sublist.mpr List.mem_cons_self
        | none =>
            have htime : ((timeFields d (readFields d isoAfter [.days] rest).2).map
                Prod.fst).Sublist timeKeys := by
              cases (readFields d isoAfter [.days] rest).2 with
              | nil => exact List.nil_sublist _
              | cons c time =>
                  rw [timeFields]
                  split_ifs
                  · exact readFields_keys ..
                  · exact List.nil_sublist _
            rw [List.map_append]
            exact ((readFields_keys isoAfter [.days] rest).append htime).cons .weeks
      · exact List.nil_sublist _

/-- A duration of no length is taken for no duration. -/
theorem parseIso8601_eq (input : List Char) :
    (total d (isoFields d input) = 0 →
      ∃ result, parseIso8601 d input = .ok result ∧ truthy result = false) ∧
    (total d (isoFields d input) ≠ 0 →
      parseIso8601 d input = some <$> ofSeconds (total d (isoFields d input))) := by
  by_cases hstarts : ∃ rest, input = 'P' :: rest
  · obtain ⟨rest, rfl⟩ := hstarts
    obtain ⟨groups, after, hmatch, hgroups⟩ := match?_iso8601 (d := d) rest
    rw [parseIso8601, applyRegex_of_captures hmatch hgroups (isoFields_keys _)]
    constructor
    · intro hzero
      rw [hzero]
      split_ifs
      · exact ⟨some ⟨0, by decide⟩, rfl, rfl⟩
      · exact ⟨none, rfl, rfl⟩
    · intro hne
      have hfields : isoFields d ('P' :: rest) ≠ [] := by
        intro hnil
        rw [hnil] at hne
        exact hne rfl
      rw [if_pos (hgroups.any hfields)]
  · have hnone : (iso8601 d).match? input = none := by
      apply match?_char_seq_of_not
      intro c hc
      cases input with
      | nil => cases hc
      | cons b rest =>
          cases hc
          exact decide_eq_false fun heq => hstarts ⟨rest, by rw [heq]⟩
    have hfields : isoFields d input = [] := by
      cases input with
      | nil => rfl
      | cons c rest =>
          rw [isoFields, if_neg]
          intro heq
          exact hstarts ⟨rest, by rw [heq]⟩
    rw [hfields, parseIso8601, applyRegex, hnone]
    exact ⟨fun _ => ⟨none, rfl, rfl⟩, fun hne => absurd rfl hne⟩

/-- What the parser makes of a text that is no number. -/
theorem parse_eq {floats : Floats} {input : List Char}
    (hfloat : floats.seconds input = .valueError) : parse d floats input =
      if total d (isoFields d input) ≠ 0 then ofSeconds (total d (isoFields d input))
      else if simpleFields d input = [] then
        .error (.parameterException
          ("Invalid time delta - could not parse " ++ String.ofList input))
      else ofSeconds (total d (simpleFields d input)) := by
  obtain ⟨hzero, hne⟩ := parseIso8601_eq (d := d) input
  rw [parse, hfloat]
  dsimp only
  by_cases htotal : total d (isoFields d input) = 0
  · obtain ⟨result, hresult, htruthy⟩ := hzero htotal
    rw [if_neg (not_not.mpr htotal), hresult, parseSimple_eq]
    simp only [bind, Except.bind, htruthy, Bool.false_eq_true, if_false]
    split_ifs
    · rfl
    · cases ofSeconds (total d (simpleFields d input)) <;> rfl
  · rw [if_pos htotal, hne htotal]
    rcases hseconds : ofSeconds (total d (isoFields d input)) with error | x
    · rfl
    · have htruthy : truthy (some x) = true := by
        rw [ofSeconds] at hseconds
        split_ifs at hseconds
        cases hseconds
        simpa [truthy] using htotal
      simp [bind, Except.bind, Functor.map, Except.map, htruthy, pure, Except.pure]

end Parsers

end Trun.TimeDelta
