import Mathlib.Data.Nat.Digits.Lemmas
import Mathlib.Tactic.Linarith
import Trun.Parameter.Reading

/-!
# The texts of durations

A duration is written in ISO 8601, or as a sequence of numbers with units from
the longest to the shortest.  The parser reads the longest beginning of a text
that is one, whatever comes after it.
-/

namespace Trun.TimeDelta

/-! ## Two grammars -/

section Grammar

variable (d : Decimals)

def Key.units : Key → List (List Char)
  | .weeks => ["w".toList, "week".toList, "weeks".toList]
  | .days => ["d".toList, "day".toList, "days".toList]
  | .hours => ["h".toList, "hour".toList, "hours".toList]
  | .minutes => ["m".toList, "minute".toList, "minutes".toList]
  | .seconds => ["s".toList, "second".toList, "seconds".toList]

structure IsNumber (digits : List Char) : Prop where
  ne_nil : digits ≠ []
  decimal : ∀ c ∈ digits, d.isDecimal c = true

def IsBlank (text : List Char) : Prop := text = [] ∨ text = [' ']

/-- At least one number with a unit, each unit once and in the order given. -/
inductive SimpleText : List Key → List Char → ℕ → Prop where
  | skip (k : Key) {ks : List Key} {text : List Char} {v : ℕ} (hrest : SimpleText ks text v) :
      SimpleText (k :: ks) text v
  | last {k : Key} {ks : List Key} {digits blank word : List Char} (hdigits : IsNumber d digits)
      (hblank : IsBlank blank) (hword : word ∈ k.units) :
      SimpleText (k :: ks) (digits ++ (blank ++ word)) (d.int digits * k.length)
  | more {k : Key} {ks : List Key} {digits blank word sep text : List Char} {v : ℕ}
      (hdigits : IsNumber d digits) (hblank : IsBlank blank) (hword : word ∈ k.units)
      (hsep : IsBlank sep) (hrest : SimpleText ks text v) :
      SimpleText (k :: ks) (digits ++ (blank ++ (word ++ (sep ++ text))))
        (d.int digits * k.length + v)

/-- Numbers with the letters of units, in the order given. -/
inductive IsoText : List Key → List Char → ℕ → Prop where
  | nil : IsoText [] [] 0
  | skip (k : Key) {ks : List Key} {text : List Char} {v : ℕ} (hrest : IsoText ks text v) :
      IsoText (k :: ks) text v
  | field {k : Key} {ks : List Key} {digits text : List Char} {v : ℕ} (hdigits : IsNumber d digits)
      (hrest : IsoText ks text v) :
      IsoText (k :: ks) (digits ++ k.upper :: text) (d.int digits * k.length + v)

/-- `PnW` or `PnDTnHnMnS`, with at least one field. -/
inductive IsoDuration : List Char → ℕ → Prop where
  | weeks {digits : List Char} (hdigits : IsNumber d digits) :
      IsoDuration ('P' :: (digits ++ ['W'])) (d.int digits * Key.weeks.length)
  | days {digits : List Char} (hdigits : IsNumber d digits) :
      IsoDuration ('P' :: (digits ++ ['D'])) (d.int digits * Key.days.length)
  | time {days time : List Char} {v w : ℕ} (hdays : IsoText d [.days] days v)
      (htime : IsoText d timeKeys time w) (hne : time ≠ []) :
      IsoDuration ('P' :: (days ++ 'T' :: time)) (v + w)

/-- A text of the length in seconds. -/
def Denotes (text : List Char) (v : ℕ) : Prop := IsoDuration d text v ∨ SimpleText d keys text v

/-- A text that begins with a number and the first letter of a unit. -/
def StartsField (text : List Char) : Prop :=
  ∃ digits blank rest, ∃ k : Key, IsNumber d digits ∧ IsBlank blank ∧
    text = digits ++ (blank ++ k.letter :: rest)

end Grammar

/-! ## Fields in a text -/

section Fields

variable {d : Decimals} {after : After} {k : Key} {ks : List Key}
  {digits blank word sep text front rest : List Char} {v : ℕ}

theorem readField_append (hdigits : IsNumber d digits)
    (htext : ∀ c ∈ text.head?, d.isDecimal c = false) :
    readField d after k (digits ++ text) = (after k text).map fun rest => (digits, rest) := by
  have hnone : text.takeWhile d.isDecimal = [] ∧ text.dropWhile d.isDecimal = text := by
    cases text with
    | nil => exact ⟨rfl, rfl⟩
    | cons c text =>
        have hc := htext c rfl
        rw [List.takeWhile_cons_of_neg (by simp [hc]), List.dropWhile_cons_of_neg (by simp [hc])]
        exact ⟨rfl, rfl⟩
  rw [readField, List.takeWhile_append_of_pos hdigits.decimal,
    List.dropWhile_append_of_pos hdigits.decimal, hnone.1, hnone.2, List.append_nil,
    if_neg hdigits.ne_nil]

theorem readField_of_not (htext : ∀ c ∈ text.head?, d.isDecimal c = false) :
    readField d after k text = none := by
  rw [readField, if_pos]
  cases text with
  | nil => rfl
  | cons c text => rw [List.takeWhile_cons_of_neg (by simp [htext c rfl])]

/-- The parts of a text whose beginning is read. -/
theorem of_readField (hread : readField d after k text = some (digits, rest)) :
    IsNumber d digits ∧ ∃ later, text = digits ++ later ∧ after k later = some rest := by
  rw [readField] at hread
  split_ifs at hread with hempty
  obtain ⟨rest', hafter, heq⟩ := Option.map_eq_some_iff.mp hread
  cases heq
  exact ⟨⟨hempty, fun c hc => List.mem_takeWhile_imp hc⟩, _,
    List.takeWhile_append_dropWhile.symm, hafter⟩

theorem readFields_nil (after : After) (ks : List Key) : readFields d after ks [] = ([], []) := by
  induction ks with
  | nil => rfl
  | cons k ks ih => rw [readFields, readField_of_not (by simp)]; exact ih

theorem readFields_ne_nil_iff : (readFields d after ks text).1 ≠ [] ↔
    ∃ k ∈ ks, readField d after k text ≠ none := by
  induction ks with
  | nil => simp [readFields]
  | cons k ks ih =>
      rw [readFields, List.exists_mem_cons_iff]
      cases hread : readField d after k text with
      | none => simpa using ih
      | some field => simp

theorem total_nil : total d [] = 0 := rfl

theorem total_cons (k : Key) (digits : List Char) (fields : List (Key × List Char)) :
    total d ((k, digits) :: fields) = d.int digits * k.length + total d fields := by
  rw [total, total, List.map_cons, List.sum_cons]

/-! ## Simple texts -/

theorem dropWord_append (word rest : List Char) : dropWord word (word ++ rest) = rest := by
  rw [dropWord, if_pos (List.prefix_append word rest), List.drop_left]

theorem dropWord_of_ne (b : Char) (word : List Char) (htext : ∀ c ∈ text.head?, c ≠ b) :
    dropWord (b :: word) text = text := by
  rw [dropWord, if_neg]
  rintro ⟨rest, rfl⟩
  exact htext b rfl rfl

/-- A text that ends, or goes on with a number. -/
def GoesOnWithDigits (d : Decimals) (text : List Char) : Prop :=
  ∀ c ∈ text.head?, d.isDecimal c = true

theorem GoesOnWithDigits.ne (hrest : GoesOnWithDigits d rest) (hsep : IsBlank sep) {b : Char}
    (hblank : b ≠ ' ') (hb : d.isDecimal b = false) : ∀ c ∈ (sep ++ rest).head?, c ≠ b := by
  intro c hc
  rcases hsep with rfl | rfl
  · exact ne_of_isDecimal d (hrest c hc) hb
  · cases hc
    exact hblank.symm

theorem dropWord_blank (hrest : GoesOnWithDigits d rest) (hsep : IsBlank sep) :
    dropWord [' '] (sep ++ rest) = rest := by
  rcases hsep with rfl | rfl
  · exact dropWord_of_ne ' ' [] fun c hc => ne_of_isDecimal d (hrest c hc) (isDecimal_blank d)
  · exact dropWord_append [' '] rest

theorem dropWord_blank_letter (hblank : IsBlank blank) (k : Key) (text : List Char) :
    dropWord [' '] (blank ++ k.letter :: text) = k.letter :: text := by
  rcases hblank with rfl | rfl
  · apply dropWord_of_ne
    intro c hc
    cases hc
    cases k <;> decide
  · exact dropWord_append [' '] (k.letter :: text)

/-- The unit begins with its letter, and what comes after it is left out or written out. -/
theorem units_cases (hword : word ∈ k.units) : ∃ tail, word = k.letter :: tail ∧
    (tail = [] ∨ tail = k.middle ∨ tail = k.middle ++ [k.plural]) := by
  have hall : ∀ k : Key, ∀ word ∈ k.units, word = k.letter :: word.tail ∧
      (word.tail = [] ∨ word.tail = k.middle ∨ word.tail = k.middle ++ [k.plural]) := by
    intro k
    cases k <;> decide
  exact ⟨word.tail, hall k word hword⟩

theorem middle_cons (k : Key) : ∃ b rest, k.middle = b :: rest ∧ b ≠ ' ' ∧ b ≠ k.plural ∧
    b.toNat < 128 ∧ b.isDigit = false := by
  cases k <;> exact ⟨_, _, rfl, by decide, by decide, by decide, by decide⟩

theorem simpleAfter_word (hblank : IsBlank blank) (hword : word ∈ k.units) (hsep : IsBlank sep)
    (hrest : GoesOnWithDigits d rest) :
    simpleAfter k (blank ++ (word ++ (sep ++ rest))) = some rest := by
  obtain ⟨tail, rfl, htail⟩ := units_cases hword
  obtain ⟨b, letters, hmiddle, hb, hbPlural, hascii, hbDigit⟩ := middle_cons k
  have hplural : k.plural ≠ ' ' ∧ d.isDecimal k.plural = false := by
    cases k <;> exact ⟨by decide, isDecimal_ascii d (by decide) (by decide)⟩
  have hnoPlural : dropWord [k.plural] (sep ++ rest) = sep ++ rest :=
    dropWord_of_ne _ _ (hrest.ne hsep hplural.1 hplural.2)
  have hnoMiddle : dropWord k.middle (sep ++ rest) = sep ++ rest := by
    rw [hmiddle]
    exact dropWord_of_ne b letters (hrest.ne hsep hb (isDecimal_ascii d hascii hbDigit))
  rw [simpleAfter, List.cons_append, dropWord_blank_letter hblank]
  dsimp only
  rw [if_pos rfl]
  rcases htail with rfl | rfl | rfl
  · rw [List.nil_append, hnoMiddle, hnoPlural, dropWord_blank hrest hsep]
  · rw [dropWord_append, hnoPlural, dropWord_blank hrest hsep]
  · rw [List.append_assoc, dropWord_append, dropWord_append, dropWord_blank hrest hsep]

theorem head?_blank_letter (hblank : IsBlank blank) (k : Key) (text : List Char) :
    ∀ c ∈ (blank ++ k.letter :: text).head?, d.isDecimal c = false := by
  intro c hc
  rcases hblank with rfl | rfl
  · cases hc
    exact isDecimal_letter d k
  · cases hc
    exact isDecimal_blank d

theorem readField_simple (hdigits : IsNumber d digits) (hblank : IsBlank blank)
    (hword : word ∈ k.units) (hsep : IsBlank sep) (hrest : GoesOnWithDigits d rest) :
    readField d simpleAfter k (digits ++ (blank ++ (word ++ (sep ++ rest)))) =
      some (digits, rest) := by
  obtain ⟨tail, heq, -⟩ := units_cases hword
  rw [readField_append hdigits, simpleAfter_word hblank hword hsep hrest]
  · rfl
  · rw [heq, List.cons_append]
    exact head?_blank_letter hblank k _

theorem SimpleText.starts (htext : SimpleText d ks text v) :
    ∃ digits blank rest, ∃ k ∈ ks, IsNumber d digits ∧ IsBlank blank ∧
      text = digits ++ (blank ++ k.letter :: rest) := by
  induction htext with
  | skip k _ ih =>
      obtain ⟨digits, blank, rest, k', hk', hparts⟩ := ih
      exact ⟨digits, blank, rest, k', List.mem_cons_of_mem k hk', hparts⟩
  | last hdigits hblank hword =>
      obtain ⟨tail, rfl, -⟩ := units_cases hword
      exact ⟨_, _, _, _, List.mem_cons_self, hdigits, hblank, rfl⟩
  | more hdigits hblank hword _ _ _ =>
      obtain ⟨tail, rfl, -⟩ := units_cases hword
      exact ⟨_, _, _, _, List.mem_cons_self, hdigits, hblank, rfl⟩

theorem SimpleText.goesOn (htext : SimpleText d ks text v) : GoesOnWithDigits d text := by
  obtain ⟨digits, blank, rest, k, -, hdigits, -, rfl⟩ := htext.starts
  intro c hc
  obtain ⟨b, digits, rfl⟩ := List.exists_cons_of_ne_nil hdigits.ne_nil
  cases hc
  exact hdigits.decimal c List.mem_cons_self

theorem letter_injective : ∀ k k' : Key, k.letter = k'.letter → k = k' := by
  intro k k' heq
  cases k <;> cases k' <;> first | rfl | exact absurd heq (by decide)

theorem readField_letter (hdigits : IsNumber d digits) (hblank : IsBlank blank) {k' : Key}
    (hne : k' ≠ k) (rest : List Char) :
    readField d simpleAfter k (digits ++ (blank ++ k'.letter :: rest)) = none := by
  have hletter : k'.letter ≠ k.letter := fun heq => hne (letter_injective _ _ heq)
  rw [readField_append hdigits (head?_blank_letter hblank k' rest), simpleAfter,
    dropWord_blank_letter hblank]
  exact Option.map_eq_none_iff.mpr (if_neg hletter)

/-- A simple text is read as what it says. -/
theorem SimpleText.reads (htext : SimpleText d ks text v) (hnodup : ks.Nodup) :
    (readFields d simpleAfter ks text).1 ≠ [] ∧
      total d (readFields d simpleAfter ks text).1 = v := by
  induction htext with
  | skip k hrest ih =>
      obtain ⟨hk, hnodup⟩ := List.nodup_cons.mp hnodup
      obtain ⟨digits, blank, rest, k', hk', hdigits, hblank, rfl⟩ := hrest.starts
      have hne : k' ≠ k := by
        rintro rfl
        exact hk hk'
      rw [readFields, readField_letter hdigits hblank hne]
      exact ih hnodup
  | @last k ks digits blank word hdigits hblank hword =>
      have hend : GoesOnWithDigits d [] := by
        rintro c ⟨⟩
      have hread := readField_simple hdigits hblank hword (.inl rfl) hend
      rw [List.append_nil, List.append_nil] at hread
      rw [readFields, hread]
      dsimp only
      rw [readFields_nil, total_cons]
      exact ⟨List.cons_ne_nil _ _, rfl⟩
  | more hdigits hblank hword hsep hrest ih =>
      obtain ⟨-, hnodup⟩ := List.nodup_cons.mp hnodup
      rw [readFields, readField_simple hdigits hblank hword hsep hrest.goesOn]
      dsimp only
      rw [total_cons, (ih hnodup).2]
      exact ⟨List.cons_ne_nil _ _, rfl⟩

theorem simpleFields_ne_nil_iff : simpleFields d text ≠ [] ↔ StartsField d text := by
  rw [simpleFields, readFields_ne_nil_iff]
  constructor
  · rintro ⟨k, -, hread⟩
    obtain ⟨⟨digits, rest⟩, hread⟩ := Option.ne_none_iff_exists'.mp hread
    obtain ⟨hdigits, later, rfl, hafter⟩ := of_readField hread
    rw [simpleAfter] at hafter
    cases hdrop : dropWord [' '] later with
    | nil =>
        rw [hdrop] at hafter
        cases hafter
    | cons c after_ =>
        rw [hdrop] at hafter
        dsimp only at hafter
        split_ifs at hafter with hc
        rw [hc] at hdrop
        rw [dropWord] at hdrop
        split_ifs at hdrop with hstarts
        · obtain ⟨tail, rfl⟩ := hstarts
          exact ⟨digits, [' '], after_, k, hdigits, .inr rfl, by rw [← hdrop]; rfl⟩
        · exact ⟨digits, [], after_, k, hdigits, .inl rfl, by rw [hdrop]; rfl⟩
  · rintro ⟨digits, blank, rest, k, hdigits, hblank, rfl⟩
    refine ⟨k, by cases k <;> decide, ?_⟩
    rw [readField_append hdigits (head?_blank_letter hblank k rest), simpleAfter,
      dropWord_blank_letter hblank]
    dsimp only
    rw [if_pos rfl]
    exact Option.some_ne_none _

/-! ## ISO 8601 -/

theorem head?_upper (k : Key) (text : List Char) :
    ∀ c ∈ (k.upper :: text).head?, d.isDecimal c = false := by
  intro c hc
  cases hc
  exact isDecimal_upper d k

theorem readField_iso (hdigits : IsNumber d digits) (k : Key) (rest : List Char) :
    readField d isoAfter k (digits ++ k.upper :: rest) = some (digits, rest) := by
  rw [readField_append hdigits (head?_upper k rest), isoAfter, if_pos rfl]
  rfl

theorem upper_injective : ∀ k k' : Key, k.upper = k'.upper → k = k' := by
  intro k k' heq
  cases k <;> cases k' <;> first | rfl | exact absurd heq (by decide)

theorem readField_upper (hdigits : IsNumber d digits) {k' : Key} (hne : k' ≠ k)
    (rest : List Char) : readField d isoAfter k (digits ++ k'.upper :: rest) = none := by
  have hupper : k'.upper ≠ k.upper := fun heq => hne (upper_injective _ _ heq)
  rw [readField_append hdigits (head?_upper k' rest), isoAfter, if_neg hupper]
  rfl

theorem IsoText.starts (htext : IsoText d ks text v) : text = [] ∧ v = 0 ∨
    ∃ digits rest, ∃ k ∈ ks, IsNumber d digits ∧ text = digits ++ k.upper :: rest := by
  induction htext with
  | nil => exact .inl ⟨rfl, rfl⟩
  | skip k _ ih =>
      rcases ih with hempty | ⟨digits, rest, k', hk', hparts⟩
      · exact .inl hempty
      · exact .inr ⟨digits, rest, k', List.mem_cons_of_mem k hk', hparts⟩
  | field hdigits _ _ => exact .inr ⟨_, _, _, List.mem_cons_self, hdigits, rfl⟩

/-- Fields at the beginning of a text are read, whatever is read after them. -/
theorem IsoText.reads (htext : IsoText d ks front v) (hnodup : ks.Nodup) (rest : List Char) :
    v ≤ total d (readFields d isoAfter ks (front ++ rest)).1 ∧
      (rest = [] → total d (readFields d isoAfter ks (front ++ rest)).1 = v) := by
  induction htext with
  | nil => exact ⟨Nat.zero_le _, fun _ => rfl⟩
  | @skip k ks front v hrest ih =>
      obtain ⟨hk, hnodup⟩ := List.nodup_cons.mp hnodup
      rcases hrest.starts with ⟨rfl, rfl⟩ | ⟨digits, after_, k', hk', hdigits, rfl⟩
      · refine ⟨Nat.zero_le _, ?_⟩
        rintro rfl
        rw [List.append_nil, readFields_nil]
        rfl
      · have hne : k' ≠ k := by
          rintro rfl
          exact hk hk'
        have hnone : readField d isoAfter k ((digits ++ k'.upper :: after_) ++ rest) = none := by
          rw [List.append_assoc, List.cons_append]
          exact readField_upper hdigits hne _
        rw [readFields, hnone]
        exact ih hnodup
  | @field k ks digits front v hdigits _ ih =>
      obtain ⟨-, hnodup⟩ := List.nodup_cons.mp hnodup
      obtain ⟨hle, heq⟩ := ih hnodup
      rw [List.append_assoc, List.cons_append, readFields, readField_iso hdigits]
      dsimp only
      rw [total_cons]
      exact ⟨Nat.add_le_add_left hle _, fun hrest => by rw [heq hrest]⟩

/-- What is read are fields at the beginning of the text. -/
theorem isoText_readFields (ks : List Key) (text : List Char) :
    ∃ front, text = front ++ (readFields d isoAfter ks text).2 ∧
      IsoText d ks front (total d (readFields d isoAfter ks text).1) := by
  induction ks generalizing text with
  | nil => exact ⟨[], rfl, .nil⟩
  | cons k ks ih =>
      rw [readFields]
      cases hread : readField d isoAfter k text with
      | none =>
          obtain ⟨front, heq, hfront⟩ := ih text
          exact ⟨front, heq, .skip k hfront⟩
      | some field =>
          obtain ⟨digits, rest⟩ := field
          obtain ⟨hdigits, later, rfl, hafter⟩ := of_readField hread
          cases later with
          | nil => cases hafter
          | cons c later =>
              simp only [isoAfter] at hafter
              split_ifs at hafter with hc
              cases hafter
              obtain ⟨front, heq, hfront⟩ := ih rest
              refine ⟨digits ++ k.upper :: front, ?_, ?_⟩
              · rw [hc, List.append_assoc, List.cons_append]
                exact congrArg (fun tail => digits ++ k.upper :: tail) heq
              · dsimp only
                rw [total_cons]
                exact .field hdigits hfront

theorem isoFields_cons (rest : List Char) : isoFields d ('P' :: rest) =
    match readField d isoAfter .weeks rest with
    | some (digits, _) => [(.weeks, digits)]
    | none => (readFields d isoAfter [.days] rest).1 ++
        timeFields d (readFields d isoAfter [.days] rest).2 := by
  unfold isoFields
  exact if_pos rfl

theorem total_append (front back : List (Key × List Char)) :
    total d (front ++ back) = total d front + total d back := by
  rw [total, List.map_append, List.sum_append, total, total]

/-- The day of a duration, before something that is no digit. -/
theorem readFields_days (hdays : IsoText d [.days] front v)
    (hrest : ∀ c ∈ rest.head?, d.isDecimal c = false) :
    readField d isoAfter .weeks (front ++ rest) = none ∧
      total d (readFields d isoAfter [.days] (front ++ rest)).1 = v ∧
      (readFields d isoAfter [.days] (front ++ rest)).2 = rest := by
  cases hdays with
  | skip _ hnil =>
      cases hnil
      rw [List.nil_append, readField_of_not hrest, readFields, readField_of_not hrest]
      exact ⟨rfl, rfl, rfl⟩
  | @field _ _ digits text w hdigits hnil =>
      cases hnil
      rw [List.append_assoc, List.cons_append, List.nil_append,
        readField_upper hdigits (by decide), readFields, readField_iso hdigits]
      exact ⟨rfl, by rw [readFields, total_cons]; rfl, rfl⟩

/-- A duration at the beginning of a text is read, whatever is read after it. -/
theorem IsoDuration.reads (hfront : IsoDuration d front v) (rest : List Char) :
    v ≤ total d (isoFields d (front ++ rest)) ∧
      (rest = [] → total d (isoFields d (front ++ rest)) = v) := by
  cases hfront with
  | @weeks digits hdigits =>
      have hread := readField_iso hdigits .weeks rest
      rw [List.cons_append, List.append_assoc, isoFields_cons, List.singleton_append]
      rw [show digits ++ 'W' :: rest = digits ++ Key.weeks.upper :: rest from rfl, hread]
      have htotal : total d [(Key.weeks, digits)] = d.int digits * Key.weeks.length := by
        rw [total_cons, total_nil, Nat.add_zero]
      exact ⟨htotal.ge, fun _ => htotal⟩
  | @days digits hdigits =>
      rw [List.cons_append, List.append_assoc, isoFields_cons, List.singleton_append]
      rw [show digits ++ 'D' :: rest = digits ++ Key.days.upper :: rest from rfl,
        readField_upper hdigits (by decide), readFields, readField_iso hdigits]
      dsimp only [readFields]
      rw [total_append, total_cons, total_nil, Nat.add_zero]
      refine ⟨Nat.le_add_right _ _, ?_⟩
      rintro rfl
      rw [timeFields, total_nil, Nat.add_zero]
  | @time days time v w hdays htime hne =>
      have hT : ∀ c ∈ ('T' :: (time ++ rest)).head?, d.isDecimal c = false := by
        intro c hc
        cases hc
        exact isDecimal_ascii d (by decide) (by decide)
      obtain ⟨hweeks, htotal, hrest⟩ := readFields_days hdays hT
      obtain ⟨hle, heq⟩ := htime.reads (by decide) rest
      rw [List.cons_append, List.append_assoc, List.cons_append, isoFields_cons, hweeks]
      dsimp only
      rw [hrest, total_append, htotal, timeFields, if_pos rfl]
      exact ⟨Nat.add_le_add_left hle v, fun hnil => by rw [heq hnil]⟩

theorem IsoText.nil_of_zero (htext : IsoText d ks [] v) : v = 0 := by
  rcases htext.starts with hempty | ⟨digits, rest, k, -, hdigits, heq⟩
  · exact hempty.2
  · exact absurd (List.append_eq_nil_iff.mp heq.symm).1 hdigits.ne_nil

theorem IsoText.isoDuration (hdays : IsoText d [.days] front v) (hv : v ≠ 0) :
    IsoDuration d ('P' :: front) v := by
  cases hdays with
  | skip _ hnil =>
      cases hnil
      exact absurd rfl hv
  | field hdigits hnil =>
      cases hnil
      rw [Nat.add_zero]
      exact .days hdigits

/-- Where a duration of some length is read, there is one. -/
theorem exists_isoDuration (hne : total d (isoFields d text) ≠ 0) :
    ∃ front rest v, text = front ++ rest ∧ IsoDuration d front v ∧ v ≠ 0 := by
  cases text with
  | nil => exact absurd rfl hne
  | cons c text =>
      by_cases hc : c = 'P'
      · subst hc
        rw [isoFields_cons] at hne
        cases hweeks : readField d isoAfter .weeks text with
        | some field =>
            obtain ⟨digits, rest⟩ := field
            obtain ⟨hdigits, later, rfl, hafter⟩ := of_readField hweeks
            rw [hweeks] at hne
            dsimp only at hne
            rw [total_cons, total_nil, Nat.add_zero] at hne
            cases later with
            | nil => cases hafter
            | cons c later =>
                simp only [isoAfter] at hafter
                split_ifs at hafter with hc
                exact ⟨_, later, _, by rw [hc]; simp [Key.upper, Key.letter, Key.name],
                  .weeks hdigits, hne⟩
        | none =>
            rw [hweeks] at hne
            dsimp only at hne
            rw [total_append] at hne
            obtain ⟨days, hdays, hdaysText⟩ := isoText_readFields (d := d) [.days] text
            by_cases hv : total d (readFields d isoAfter [.days] text).1 = 0
            · cases hrest : (readFields d isoAfter [.days] text).2 with
              | nil =>
                  rw [hv, hrest, timeFields, total_nil] at hne
                  exact absurd rfl hne
              | cons c time =>
                  rw [hv, hrest, timeFields] at hne
                  split_ifs at hne with hc
                  · obtain ⟨front, htime, hfront⟩ := isoText_readFields (d := d) timeKeys time
                    have hfrontNe : front ≠ [] := by
                      rintro rfl
                      rw [hfront.nil_of_zero] at hne
                      exact hne rfl
                    refine ⟨_, (readFields d isoAfter timeKeys time).2, _, ?_,
                      .time hdaysText hfront hfrontNe, ?_⟩
                    · rw [hc] at hrest
                      rw [hrest] at hdays
                      rw [List.cons_append, List.append_assoc, List.cons_append, ← htime, ← hdays]
                    · rw [hv]
                      exact hne
                  · exact absurd rfl hne
            · exact ⟨_, _, _, by rw [List.cons_append, ← hdays], hdaysText.isoDuration hv, hv⟩
      · rw [isoFields, if_neg hc] at hne
        exact absurd rfl hne

end Fields

/-! ## Parsing -/

section Parsing

variable {d : Decimals} {floats : Floats} {input : List Char} {v : ℕ}

theorem ofSeconds_lt (hv : v < 1000000000 * 86400) :
    ∃ x, ofSeconds v = .ok x ∧ x.micros = v * 1000000 := by
  rw [ofSeconds, dif_pos hv]
  exact ⟨_, rfl, rfl⟩

theorem lt_of_ofSeconds {x : Timedelta} (hx : ofSeconds v = .ok x) : v < 1000000000 * 86400 := by
  rw [ofSeconds] at hx
  split_ifs at hx with hv
  exact hv

theorem ofSeconds_ne_parameterException (message : String) :
    ofSeconds v ≠ .error (.parameterException message) := by
  rw [ofSeconds]
  split_ifs
  · rintro ⟨⟩
  · rintro ⟨⟩

theorem isoFields_of_digit (hinput : StartsField d input) : isoFields d input = [] := by
  obtain ⟨digits, blank, rest, k, hdigits, -, rfl⟩ := hinput
  obtain ⟨c, digits, rfl⟩ := List.exists_cons_of_ne_nil hdigits.ne_nil
  have hP : d.isDecimal 'P' = false := isDecimal_ascii d (by decide) (by decide)
  rw [List.cons_append, isoFields,
    if_neg (ne_of_isDecimal d (hdigits.decimal c List.mem_cons_self) hP)]

theorem SimpleText.startsField (htext : SimpleText d keys input v) : StartsField d input := by
  obtain ⟨digits, blank, rest, k, -, hparts⟩ := htext.starts
  exact ⟨digits, blank, rest, k, hparts⟩

theorem not_startsField_of_iso (hinput : IsoDuration d input v) : ¬StartsField d input := by
  intro hstarts
  obtain ⟨digits, blank, rest, k, hdigits, -, rfl⟩ := hstarts
  obtain ⟨c, digits, rfl⟩ := List.exists_cons_of_ne_nil hdigits.ne_nil
  have hP : d.isDecimal 'P' = false := isDecimal_ascii d (by decide) (by decide)
  have hc := hdigits.decimal c List.mem_cons_self
  have hstartsP : c = 'P' := by
    generalize heq : (c :: digits) ++ (blank ++ k.letter :: rest) = text at hinput
    cases hinput <;> exact (List.cons.inj heq).1
  rw [hstartsP, hP] at hc
  cases hc

/-- A simple text of a length is parsed as it, if it is in range. -/
theorem parse_simpleText (hfloat : floats.seconds input = .valueError)
    (htext : SimpleText d keys input v) : parse d floats input = ofSeconds v := by
  obtain ⟨hne, htotal⟩ := htext.reads (by decide)
  rw [parse_eq hfloat, isoFields_of_digit htext.startsField, total_nil,
    if_neg (not_not.mpr rfl), simpleFields, if_neg hne, htotal]

/-- An ISO 8601 duration is parsed as its length, but not as no time. -/
theorem parse_isoDuration (hfloat : floats.seconds input = .valueError)
    (htext : IsoDuration d input v) : parse d floats input =
      if v = 0 then .error (.parameterException
        ("Invalid time delta - could not parse " ++ String.ofList input))
      else ofSeconds v := by
  have htotal := (htext.reads []).2 rfl
  rw [List.append_nil] at htotal
  have hsimple : simpleFields d input = [] := by
    by_contra hne
    exact not_startsField_of_iso htext (simpleFields_ne_nil_iff.mp hne)
  rw [parse_eq hfloat, htotal, hsimple]
  by_cases hv : v = 0
  · rw [if_neg (not_not.mpr hv), if_pos hv, if_pos rfl]
  · rw [if_pos hv, if_neg hv]

/-- A text of a length is parsed as it, and any other text is rejected. -/
structure ParsesExactly (d : Decimals) (floats : Floats) (input : List Char) : Prop where
  accepts : ∀ v, Denotes d input v →
    ∃ x, parse d floats input = .ok x ∧ x.micros = v * 1000000
  rejects : (∀ v, ¬Denotes d input v) → parse d floats input = .error (.parameterException
    ("Invalid time delta - could not parse " ++ String.ofList input))

/-- The length is in the range of `timedelta`, and not that of an ISO 8601 duration of no time;
or the text does not begin with a field, and with no ISO 8601 duration of some time. -/
structure Admissible (d : Decimals) (input : List Char) : Prop where
  inRange : ∀ v, Denotes d input v → v < 1000000000 * 86400
  someTime : ∀ v, IsoDuration d input v → v ≠ 0
  noField : (∀ v, ¬Denotes d input v) → ¬StartsField d input
  noDuration : (∀ v, ¬Denotes d input v) →
    ∀ front rest v, input = front ++ rest → IsoDuration d front v → v = 0

/-- The parser also takes a text that only begins with a duration, and rejects the ISO 8601
durations of no time. -/
theorem parsesExactly_iff (d : Decimals) (floats : Floats) (input : List Char)
    (hfloat : floats.seconds input = .valueError) :
    ParsesExactly d floats input ↔ Admissible d input := by
  constructor
  · intro hexact
    refine ⟨?_, ?_, ?_, ?_⟩
    · intro v hv
      obtain ⟨x, hx, -⟩ := hexact.accepts v hv
      rcases hv with hiso | hsimple
      · rw [parse_isoDuration hfloat hiso] at hx
        split_ifs at hx
        exact lt_of_ofSeconds hx
      · rw [parse_simpleText hfloat hsimple] at hx
        exact lt_of_ofSeconds hx
    · rintro v hiso rfl
      obtain ⟨x, hx, -⟩ := hexact.accepts 0 (.inl hiso)
      rw [parse_isoDuration hfloat hiso, if_pos rfl] at hx
      cases hx
    · intro hnone hstarts
      have hrejects := hexact.rejects hnone
      rw [parse_eq hfloat, isoFields_of_digit hstarts, total_nil, if_neg (not_not.mpr rfl),
        if_neg (simpleFields_ne_nil_iff.mpr hstarts)] at hrejects
      exact ofSeconds_ne_parameterException _ hrejects
    · rintro hnone front rest v rfl hfront
      by_contra hv
      have hle := (hfront.reads rest).1
      have hrejects := hexact.rejects hnone
      rw [parse_eq hfloat, if_pos (by omega)] at hrejects
      exact ofSeconds_ne_parameterException _ hrejects
  · intro hadmissible
    constructor
    · intro v hv
      have hrange := hadmissible.inRange v hv
      rcases hv with hiso | hsimple
      · rw [parse_isoDuration hfloat hiso, if_neg (hadmissible.someTime v hiso)]
        exact ofSeconds_lt hrange
      · rw [parse_simpleText hfloat hsimple]
        exact ofSeconds_lt hrange
    · intro hnone
      have hzero : total d (isoFields d input) = 0 := by
        by_contra hne
        obtain ⟨front, rest, v, heq, hfront, hv⟩ := exists_isoDuration hne
        exact hv (hadmissible.noDuration hnone front rest v heq hfront)
      have hsimple : simpleFields d input = [] := by
        by_contra hne
        exact hadmissible.noField hnone (simpleFields_ne_nil_iff.mp hne)
      rw [parse_eq hfloat, hzero, if_neg (not_not.mpr rfl), if_pos hsimple]

/-- One hour: the parser and the two grammars agree. -/
theorem parsesExactly_hour : noFloats.seconds "PT1H".toList = .valueError ∧
    (ParsesExactly asciiDecimals noFloats "PT1H".toList ↔ Admissible asciiDecimals "PT1H".toList) :=
  ⟨rfl, parsesExactly_iff asciiDecimals noFloats "PT1H".toList rfl⟩

/-- The end of a simple text is the end of a unit. -/
theorem SimpleText.exists_getLast {ks : List Key} {text : List Char}
    (htext : SimpleText d ks text v) :
    ∃ k : Key, ∃ word ∈ k.units, text.getLast? = word.getLast? := by
  have hne : ∀ k : Key, ∀ word ∈ k.units, word ≠ [] := by
    intro k word hword
    obtain ⟨tail, rfl, -⟩ := units_cases hword
    exact List.cons_ne_nil _ _
  induction htext with
  | skip _ _ ih => exact ih
  | @last k _ _ _ word _ _ hword =>
      refine ⟨k, word, hword, ?_⟩
      rw [List.getLast?_append_of_ne_nil _ (by simp [hne k word hword]),
        List.getLast?_append_of_ne_nil _ (hne k word hword)]
  | @more k _ digits blank word sep text _ hdigits hblank hword hsep hrest ih =>
      obtain ⟨k', word', hword', hlast⟩ := ih
      have htext : text ≠ [] := by
        rintro rfl
        obtain ⟨digits, _, _, _, _, hnumber, _, heq⟩ := hrest.starts
        exact hnumber.ne_nil (List.append_eq_nil_iff.mp heq.symm).1
      refine ⟨k', word', hword', ?_⟩
      rw [← List.append_assoc, ← List.append_assoc, ← List.append_assoc,
        List.getLast?_append_of_ne_nil _ htext, hlast]

/-- No time in ISO 8601 is rejected, and one day with an exclamation mark is not. -/
theorem not_parsesExactly :
    ¬ParsesExactly asciiDecimals noFloats "PT0S".toList ∧
      ¬ParsesExactly asciiDecimals noFloats "1 day!".toList := by
  constructor
  · intro hexact
    have hzero : IsNumber asciiDecimals ['0'] :=
      ⟨List.cons_ne_nil _ _, List.forall_mem_singleton.mpr rfl⟩
    have hdenotes : IsoDuration asciiDecimals "PT0S".toList 0 :=
      .time (.skip .days .nil) (.skip .hours (.skip .minutes (.field hzero .nil)))
        (List.cons_ne_nil _ _)
    obtain ⟨x, hx, -⟩ := hexact.accepts 0 (.inl hdenotes)
    rw [parse_isoDuration rfl hdenotes, if_pos rfl] at hx
    cases hx
  · intro hexact
    have hnone : ∀ v, ¬Denotes asciiDecimals "1 day!".toList v := by
      rintro v (hiso | hsimple)
      · cases hiso
      · obtain ⟨k, word, hword, hlast⟩ := hsimple.exists_getLast
        have hletters : ∀ k : Key, ∀ word ∈ k.units, "1 day!".toList.getLast? ≠ word.getLast? := by
          intro k
          cases k <;> decide
        exact hletters k word hword hlast
    exact absurd (hexact.rejects hnone) (by decide)

end Parsing

/-! ## Serialising -/

section Serialising

variable {d : Decimals} {floats : Floats} {x : Timedelta}

theorem isNumber_toDigits (d : Decimals) (n : ℕ) :
    IsNumber d (Nat.toDigits 10 n) ∧ d.int (Nat.toDigits 10 n) = n := by
  induction n using Nat.strong_induction_on with
  | _ n ih =>
      have hdigit : ∀ m < 10, d.isDecimal (Nat.digitChar m) = true ∧
          d.digit (Nat.digitChar m) = some m := by
        intro m hm
        rw [Decimals.isDecimal, d.ascii m hm]
        exact ⟨rfl, rfl⟩
      by_cases hsmall : n < 10
      · rw [Nat.toDigits_of_lt_base hsmall]
        refine ⟨⟨List.cons_ne_nil _ _, ?_⟩, ?_⟩
        · simpa using (hdigit n hsmall).1
        · simp [Decimals.int, (hdigit n hsmall).2]
      · obtain ⟨hnumber, hint⟩ := ih (n / 10) (by omega)
        have hlast := hdigit (n % 10) (by omega)
        rw [Nat.toDigits_of_base_le (by omega) (not_lt.mp hsmall)]
        refine ⟨⟨by simp, ?_⟩, ?_⟩
        · intro c hc
          cases List.mem_append.mp hc with
          | inl hmem => exact hnumber.decimal c hmem
          | inr hmem =>
              rw [List.mem_singleton.mp hmem]
              exact hlast.1
        · rw [Decimals.int] at hint ⊢
          rw [List.foldl_append, hint, List.foldl_cons, List.foldl_nil, hlast.2]
          simp only [Option.getD_some]
          omega

theorem str_of_nonneg {n : ℤ} (hn : 0 ≤ n) : str n = Nat.toDigits 10 n.toNat := by
  rw [str, if_neg (by omega)]
  congr 1
  omega

/-- A number with a unit, before more of them. -/
theorem SimpleText.cons (k : Key) {ks : List Key} {text : List Char} {v : ℕ} (n : ℕ)
    (hrest : SimpleText d ks text v) : SimpleText d (k :: ks)
      (Nat.toDigits 10 n ++ ([' '] ++ ([k.letter] ++ ([' '] ++ text)))) (n * k.length + v) := by
  obtain ⟨hnumber, hint⟩ := isNumber_toDigits d n
  have hword : [k.letter] ∈ k.units := by cases k <;> decide
  have htext := SimpleText.more hnumber (.inr rfl) hword (.inr rfl) hrest
  rwa [hint] at htext

theorem SimpleText.single (k : Key) (n : ℕ) : SimpleText d [k]
    (Nat.toDigits 10 n ++ ([' '] ++ [k.letter])) (n * k.length) := by
  obtain ⟨hnumber, hint⟩ := isNumber_toDigits d n
  have hword : [k.letter] ∈ k.units := by cases k <;> decide
  have hblank : IsBlank [' '] := .inr rfl
  have htext : SimpleText d [k] _ _ := .last hnumber hblank hword
  rwa [hint] at htext

/-- A duration that is not negative is written as its whole seconds. -/
theorem simpleText_serialize (d : Decimals) (hdays : 0 ≤ x.days) :
    SimpleText d keys (serialize x) (x.micros / 1000000).toNat := by
  have hseconds : 0 ≤ x.seconds ∧ x.seconds < 86400 := by
    rw [Timedelta.seconds]
    omega
  have htext := (((SimpleText.single (d := d) .seconds (x.seconds % 3600 % 60).toNat).cons .minutes
    (x.seconds % 3600 / 60).toNat).cons .hours (x.seconds / 3600).toNat).cons .days
      (x.days % 7).toNat |>.cons .weeks (x.days / 7).toNat
  have hvalue : (x.days / 7).toNat * 604800 + ((x.days % 7).toNat * 86400 +
      ((x.seconds / 3600).toNat * 3600 + ((x.seconds % 3600 / 60).toNat * 60 +
        (x.seconds % 3600 % 60).toNat * 1))) = (x.micros / 1000000).toNat := by
    have hsplit : x.micros / 1000000 = x.days * 86400 + x.seconds := by
      rw [Timedelta.days, Timedelta.seconds]
      omega
    omega
  have hserialize : serialize x = Nat.toDigits 10 (x.days / 7).toNat ++ ([' '] ++ (['w'] ++
      ([' '] ++ (Nat.toDigits 10 (x.days % 7).toNat ++ ([' '] ++ (['d'] ++ ([' '] ++
        (Nat.toDigits 10 (x.seconds / 3600).toNat ++ ([' '] ++ (['h'] ++ ([' '] ++
          (Nat.toDigits 10 (x.seconds % 3600 / 60).toNat ++ ([' '] ++ (['m'] ++ ([' '] ++
            (Nat.toDigits 10 (x.seconds % 3600 % 60).toNat ++ ([' '] ++ ['s'])))))))))))))))))
      := by
    rw [serialize, str_of_nonneg (by omega), str_of_nonneg (by omega), str_of_nonneg (by omega),
      str_of_nonneg (by omega), str_of_nonneg (by omega)]
    simp
  rw [hserialize, ← hvalue]
  exact htext

theorem mem_serialize (x : Timedelta) : 'w' ∈ serialize x := by
  simp [serialize]

/-- The text of a negative duration begins with a sign. -/
theorem parse_serialize_of_neg (d : Decimals) (floats : Floats) (hdays : x.days < 0) :
    ∃ message, parse d floats (serialize x) = .error (.parameterException message) := by
  obtain ⟨rest, hrest⟩ : ∃ rest, serialize x = '-' :: rest := by
    rw [serialize, str, if_pos (by omega)]
    exact ⟨_, rfl⟩
  have hiso : isoFields d ('-' :: rest) = [] := by
    rw [isoFields, if_neg (by decide)]
  have hsimple : simpleFields d ('-' :: rest) = [] := by
    by_contra hne
    obtain ⟨digits, blank, after_, k, hdigits, -, heq⟩ := simpleFields_ne_nil_iff.mp hne
    obtain ⟨c, digits, rfl⟩ := List.exists_cons_of_ne_nil hdigits.ne_nil
    have hc := hdigits.decimal c List.mem_cons_self
    rw [← (List.cons.inj heq).1, isDecimal_ascii d (by decide) (by decide)] at hc
    cases hc
  refine ⟨"Invalid time delta - could not parse " ++ String.ofList (serialize x), ?_⟩
  rw [parse_eq (floats.letters _ (mem_serialize x)), hrest, hiso, total_nil,
    if_neg (not_not.mpr rfl), if_pos hsimple]

/-- A duration comes back exactly if it is not negative and has whole seconds. -/
theorem parse_serialize_iff (d : Decimals) (floats : Floats) (x : Timedelta) :
    parse d floats (serialize x) = .ok x ↔ 0 ≤ x.days ∧ x.microseconds = 0 := by
  by_cases hdays : 0 ≤ x.days
  · have hmicros : 0 ≤ x.micros ∧ x.micros < 1000000000 * 86400000000 := by
      rw [Timedelta.days] at hdays
      exact ⟨by omega, x.inRange.2⟩
    have hlt : (x.micros / 1000000).toNat < 1000000000 * 86400 := by omega
    obtain ⟨y, hy, hvalue⟩ := ofSeconds_lt hlt
    rw [parse_simpleText (floats.letters _ (mem_serialize x)) (simpleText_serialize d hdays), hy,
      Timedelta.microseconds]
    constructor
    · intro heq
      cases heq
      exact ⟨hdays, by omega⟩
    · rintro ⟨-, hwhole⟩
      exact congrArg Except.ok (Timedelta.ext_micros (by omega))
  · obtain ⟨message, herror⟩ := parse_serialize_of_neg d floats (not_le.mp hdays)
    rw [herror]
    exact iff_of_false (fun h => nomatch h) fun hboth => hdays hboth.1

/-- One microsecond, and one day less than no time. -/
theorem parse_serialize_lossy :
    parse asciiDecimals noFloats (serialize ⟨1, by decide⟩) ≠ .ok ⟨1, by decide⟩ ∧
      parse asciiDecimals noFloats (serialize ⟨-86400000000, by decide⟩) ≠
        .ok ⟨-86400000000, by decide⟩ := by
  decide

end Serialising

end Trun.TimeDelta
