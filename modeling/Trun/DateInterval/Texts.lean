import Mathlib.Tactic.IntervalCases
import Trun.DateInterval.Tiles

/-!
# The texts of intervals

The text of an interval is taken by the pattern of its class and by none that is tried before,
and its numbers are those that made the interval.
-/

namespace Trun.DateInterval

open Calendar

variable {i : DateInterval}

/-! ## Digits -/

theorem isDigit_digitChar {n : ℕ} (hn : n < 10) : (Nat.digitChar n).isDigit = true := by
  interval_cases n <;> decide

theorem toInt_append_digitChar (text : List Char) {n : ℕ} (hn : n < 10) :
    toInt (text ++ [Nat.digitChar n]) = toInt text * 10 + n := by
  have hvalue : ((Nat.digitChar n).toNat : ℤ) - 48 = n := by interval_cases n <;> decide
  unfold toInt
  rw [List.filter_append, List.foldl_append,
    List.filter_cons_of_pos (by simpa using isDigit_digitChar hn)]
  simp [hvalue]

/-- The last digit comes off the end. -/
theorem padded_succ {width : ℕ} (hwidth : 0 < width) {n : ℤ} (hn : 0 ≤ n) :
    padded (width + 1) n = padded width (n / 10) ++ [Nat.digitChar (n.toNat % 10)] := by
  obtain ⟨m, rfl⟩ := Int.eq_ofNat_of_zero_le hn
  have hdiv : ((m : ℤ) / 10).toNat = m / 10 := by omega
  unfold padded decimal List.leftpad
  rw [hdiv, Int.toNat_natCast]
  by_cases hsmall : m < 10
  · rw [Nat.toDigits_of_lt_base hsmall, Nat.div_eq_of_lt hsmall, Nat.mod_eq_of_lt hsmall,
      Nat.toDigits_zero, List.length_singleton, List.length_singleton, Nat.add_sub_cancel]
    obtain ⟨less, rfl⟩ := Nat.exists_eq_add_one.mpr hwidth
    rw [Nat.add_sub_cancel, List.replicate_succ']
  · rw [Nat.toDigits_of_base_le (by omega) (not_lt.mp hsmall), List.length_append,
      List.length_singleton, Nat.add_sub_add_right, List.append_assoc]

/-- A text of so many digits, and its number. -/
structure Digits (text : List Char) (width : ℕ) (n : ℤ) : Prop where
  length : text.length = width
  digits : ∀ c ∈ text, c.isDigit = true
  number : toInt text = n

theorem digits_padded (width : ℕ) {n : ℤ} (hn : 0 ≤ n) (hlt : n < 10 ^ (width + 1)) :
    Digits (padded (width + 1) n) (width + 1) n := by
  induction width generalizing n with
  | zero =>
      obtain ⟨m, rfl⟩ := Int.eq_ofNat_of_zero_le hn
      have hsmall : m < 10 := by omega
      have htext : padded 1 m = [Nat.digitChar m] := by
        unfold padded decimal
        rw [Int.toNat_natCast, Nat.toDigits_of_lt_base hsmall]
        rfl
      have hnumber := toInt_append_digitChar [] hsmall
      rw [List.nil_append] at hnumber
      rw [htext]
      constructor
      · rfl
      · simpa using isDigit_digitChar hsmall
      · rw [hnumber]
        simp [toInt]
  | succ width ih =>
      have hdigit : n.toNat % 10 < 10 := Nat.mod_lt _ (by omega)
      obtain ⟨hlength, hdigits, hnumber⟩ := ih (n := n / 10) (by omega) (by
        rw [pow_succ] at hlt
        omega)
      rw [padded_succ (Nat.succ_pos width) hn]
      constructor
      · rw [List.length_append, hlength, List.length_singleton]
      · intro c hc
        rcases List.mem_append.mp hc with hc | hc
        · exact hdigits c hc
        · rw [List.mem_singleton.mp hc]
          exact isDigit_digitChar hdigit
      · rw [toInt_append_digitChar _ hdigit, hnumber]
        omega

/-- A number that fills the width is not filled up. -/
theorem decimal_eq_padded {n : ℤ} (hn : 1000 ≤ n) : decimal n = padded 4 n := by
  have hlength : 4 ≤ (Nat.toDigits 10 n.toNat).length := by
    by_contra hshort
    have h := (Nat.length_toDigits_le_iff (n := n.toNat) (k := 3) (b := 10) (by omega)
      (by omega)).mp (by omega)
    omega
  unfold padded decimal List.leftpad
  rw [Nat.sub_eq_zero_of_le hlength]
  rfl

section Texts

variable {text front back rest : List Char} {pieces : List Piece} {width : ℕ} {n : ℤ} {c : Char}

theorem Digits.ne_dash (hdigits : Digits text width n) (hc : c ∈ text) : c ≠ '-' := by
  rintro rfl
  have h := hdigits.digits _ hc
  revert h
  decide

/-! ## Patterns -/

theorem matchesPattern_replicate (hdigits : ∀ c ∈ text, c.isDigit = true) :
    matchesPattern (List.replicate text.length .digit ++ pieces) (text ++ rest) =
      matchesPattern pieces rest := by
  induction text with
  | nil => rfl
  | cons c text ih =>
      obtain ⟨hc, htext⟩ := List.forall_mem_cons.mp hdigits
      rw [List.length_cons, List.replicate_succ, List.cons_append, List.cons_append,
        matchesPattern, ih htext]
      simp [Piece.accepts, hc]

theorem Digits.matches_append (hdigits : Digits text width n) (pieces : List Piece)
    (rest : List Char) :
    matchesPattern (List.replicate width .digit ++ pieces) (text ++ rest) =
      matchesPattern pieces rest := by
  rw [← hdigits.length]
  exact matchesPattern_replicate hdigits.digits

theorem Digits.matches_all (hdigits : Digits text width n) :
    matchesPattern (List.replicate width .digit) text = true := by
  have h := hdigits.matches_append [] []
  rw [List.append_nil, List.append_nil] at h
  rw [h]
  rfl

theorem matchesPattern_char (c : Char) :
    matchesPattern (.char c :: pieces) (c :: rest) = matchesPattern pieces rest := by
  rw [matchesPattern]
  simp [Piece.accepts]

theorem matchesPattern_dash : matchesPattern [] ('-' :: rest) = false := by
  simp [matchesPattern]

/-- Digits do not start with a `W`. -/
theorem Digits.not_matches_week (hdigits : Digits text (width + 1) n) :
    matchesPattern (.char 'W' :: pieces) (text ++ rest) = false := by
  cases text with
  | nil => cases hdigits.length
  | cons c text =>
      have hne : c ≠ 'W' := by
        rintro rfl
        have h := hdigits.digits _ List.mem_cons_self
        revert h
        decide
      rw [List.cons_append, matchesPattern]
      simp [Piece.accepts, hne]

/-! ## Splitting -/

theorem splitAfter_skip (separator : List Char) (front back : List Char) :
    splitAfter separator front.length (front ++ back) = splitAfter separator 0 back := by
  induction front with
  | nil => rfl
  | cons c front ih =>
      rw [List.length_cons, List.cons_append, splitAfter, ih]

theorem splitAfter_append (tail : List Char) (hfront : ∀ c ∈ front, c ≠ '-') :
    splitAfter ('-' :: tail) 0 (front ++ '-' :: (tail ++ back)) =
      front :: splitAfter ('-' :: tail) 0 back := by
  induction front with
  | nil =>
      have hprefix : ('-' :: tail).isPrefixOf ('-' :: (tail ++ back)) = true := by
        rw [List.isPrefixOf_iff_prefix]
        exact List.prefix_append ('-' :: tail) back
      rw [List.nil_append, splitAfter, if_pos hprefix, List.length_cons, Nat.add_sub_cancel,
        splitAfter_skip]
  | cons c front ih =>
      obtain ⟨hc, hfront⟩ := List.forall_mem_cons.mp hfront
      rw [List.cons_append, splitAfter, ih hfront, if_neg (by simp [Ne.symm hc])]

theorem splitAfter_last (tail : List Char) (htext : ∀ c ∈ text, c ≠ '-') :
    splitAfter ('-' :: tail) 0 text = [text] := by
  induction text with
  | nil => rfl
  | cons c text ih =>
      obtain ⟨hc, htext⟩ := List.forall_mem_cons.mp htext
      rw [splitAfter, ih htext, if_neg (by simp [Ne.symm hc])]

theorem Digits.numbers_append (hdigits : Digits text width n) (tail back : List Char) :
    numbers ('-' :: tail) (text ++ '-' :: (tail ++ back)) = n :: numbers ('-' :: tail) back := by
  unfold numbers
  rw [splitAfter_append tail fun c => hdigits.ne_dash, List.map_cons, hdigits.number]

theorem Digits.numbers_last (hdigits : Digits text width n) (tail : List Char) :
    numbers ('-' :: tail) text = [n] := by
  unfold numbers
  rw [splitAfter_last tail fun c => hdigits.ne_dash, List.map_singleton, hdigits.number]

end Texts

/-! ## The round trip -/

section Parsing

variable {s : List Char}

theorem parseFirst_found {kind : Kind} {rest : List Kind}
    (hfound : parseKind kind s = .ok (some i)) : parseFirst (kind :: rest) s = .ok i := by
  rw [parseFirst, hfound]

def patternOf : Kind → List Piece
  | .year => yearPattern
  | .month => monthPattern
  | .week => weekPattern
  | .date => datePattern
  | .custom => customPattern

theorem parseKind_none {kind : Kind} (hmatch : matchesPattern (patternOf kind) s = false) :
    parseKind kind s = .ok none := by
  cases kind with
  | date | week | month | year | custom =>
      unfold patternOf at hmatch
      unfold parseKind
      dsimp only at hmatch ⊢
      rw [hmatch]
      rfl

theorem parseFirst_skip {kind : Kind} {rest : List Kind}
    (hmatch : matchesPattern (patternOf kind) s = false) :
    parseFirst (kind :: rest) s = parseFirst rest s := by
  rw [parseFirst, parseKind_none hmatch]

end Parsing

theorem yearPattern_eq : yearPattern = List.replicate 4 .digit ++ [] := rfl

theorem monthPattern_eq :
    monthPattern = List.replicate 4 .digit ++ .char '-' :: List.replicate 2 .digit := rfl

theorem weekPattern_eq : weekPattern =
    List.replicate 4 .digit ++ .char '-' :: .char 'W' :: List.replicate 2 .digit := rfl

theorem datePattern_eq : datePattern = List.replicate 4 .digit ++ .char '-' ::
    (List.replicate 2 .digit ++ .char '-' :: List.replicate 2 .digit) := rfl

theorem customPattern_eq : customPattern = List.replicate 4 .digit ++ .char '-' ::
    (List.replicate 2 .digit ++ .char '-' ::
      (List.replicate 2 .digit ++ .char '-' :: datePattern)) := rfl

section Formats

variable {year month day : List Char} {y m d : ℤ} {rest : List Char}

/-- After a year and a dash. -/
theorem not_matches_year (hyear : Digits year 4 y) :
    matchesPattern (patternOf .year) (year ++ '-' :: rest) = false := by
  rw [patternOf, yearPattern_eq, hyear.matches_append, matchesPattern_dash]

theorem not_matches_month (hyear : Digits year 4 y) (hmonth : Digits month 2 m) :
    matchesPattern (patternOf .month) (year ++ '-' :: (month ++ '-' :: rest)) = false := by
  have hend : matchesPattern (List.replicate 2 .digit ++ []) (month ++ '-' :: rest) = false := by
    rw [hmonth.matches_append, matchesPattern_dash]
  rw [patternOf, monthPattern_eq, hyear.matches_append, matchesPattern_char]
  simpa using hend

theorem not_matches_week (hyear : Digits year 4 y) (hmonth : Digits month 2 m) :
    matchesPattern (patternOf .week) (year ++ '-' :: (month ++ rest)) = false := by
  rw [patternOf, weekPattern_eq, hyear.matches_append, matchesPattern_char, hmonth.not_matches_week]

theorem parse_year (hyear : Digits year 4 y) (hmade : newYear y = .ok i) :
    parse year = .ok i := by
  apply parseFirst_found
  unfold parseKind
  dsimp only
  rw [yearPattern_eq, List.append_nil, hyear.matches_all, hyear.number, hmade]
  rfl

theorem parse_month (hyear : Digits year 4 y) (hmonth : Digits month 2 m)
    (hmade : newMonth y m = .ok i) : parse (year ++ '-' :: month) = .ok i := by
  have hnumbers : numbers ['-'] (year ++ '-' :: month) = [y, m] := by
    have h := hyear.numbers_append [] month
    rwa [List.nil_append, hmonth.numbers_last] at h
  unfold parse
  rw [parseFirst_skip (not_matches_year hyear)]
  apply parseFirst_found
  unfold parseKind
  dsimp only
  rw [monthPattern_eq, hyear.matches_append, matchesPattern_char, hmonth.matches_all, hnumbers]
  dsimp only
  rw [hmade]
  rfl

theorem parse_week {week : List Char} {w : ℤ} (hyear : Digits year 4 y) (hweek : Digits week 2 w)
    (hmade : newWeek y w = .ok i) : parse (year ++ '-' :: 'W' :: week) = .ok i := by
  have hnumbers : numbers ['-', 'W'] (year ++ '-' :: 'W' :: week) = [y, w] := by
    have h := hyear.numbers_append ['W'] week
    rwa [hweek.numbers_last] at h
  have hnotMonth : matchesPattern (patternOf .month) (year ++ '-' :: 'W' :: week) = false := by
    rw [patternOf, monthPattern_eq, hyear.matches_append, matchesPattern_char]
    rfl
  unfold parse
  rw [parseFirst_skip (not_matches_year hyear),
    parseFirst_skip hnotMonth]
  apply parseFirst_found
  unfold parseKind
  dsimp only
  rw [weekPattern_eq, hyear.matches_append, matchesPattern_char, matchesPattern_char,
    hweek.matches_all, hnumbers]
  dsimp only
  rw [hmade]
  rfl

theorem numbers_date (hyear : Digits year 4 y) (hmonth : Digits month 2 m) :
    numbers ['-'] (year ++ '-' :: (month ++ '-' :: rest)) = y :: m :: numbers ['-'] rest := by
  have h := hyear.numbers_append [] (month ++ '-' :: rest)
  have h' := hmonth.numbers_append [] rest
  rw [List.nil_append] at h h'
  rw [h, h']

theorem parse_date (hyear : Digits year 4 y) (hmonth : Digits month 2 m) (hday : Digits day 2 d)
    (hmade : newDate y m d = .ok i) :
    parse (year ++ '-' :: (month ++ '-' :: day)) = .ok i := by
  unfold parse
  rw [parseFirst_skip (not_matches_year hyear),
    parseFirst_skip (not_matches_month hyear hmonth),
    parseFirst_skip (not_matches_week hyear hmonth)]
  apply parseFirst_found
  unfold parseKind
  dsimp only
  rw [datePattern_eq, hyear.matches_append, matchesPattern_char, hmonth.matches_append,
    matchesPattern_char, hday.matches_all, numbers_date hyear hmonth, hday.numbers_last]
  dsimp only
  rw [hmade]
  rfl

theorem parse_custom {year' month' day' : List Char} {y' m' d' a b : ℤ} (hyear : Digits year 4 y)
    (hmonth : Digits month 2 m) (hday : Digits day 2 d) (hyear' : Digits year' 4 y')
    (hmonth' : Digits month' 2 m') (hday' : Digits day' 2 d') (ha : date y m d = .ok a)
    (hb : date y' m' d' = .ok b) :
    parse ((year ++ '-' :: (month ++ '-' :: day)) ++ '-' ::
      (year' ++ '-' :: (month' ++ '-' :: day'))) = .ok ⟨.custom, a, b⟩ := by
  have htext : (year ++ '-' :: (month ++ '-' :: day)) ++ '-' ::
      (year' ++ '-' :: (month' ++ '-' :: day')) =
        year ++ '-' :: (month ++ '-' :: (day ++ '-' ::
          (year' ++ '-' :: (month' ++ '-' :: day')))) := by simp
  have hnotDate : matchesPattern (patternOf .date) (year ++ '-' :: (month ++ '-' :: (day ++
      '-' :: (year' ++ '-' :: (month' ++ '-' :: day'))))) = false := by
    have hend : matchesPattern (List.replicate 2 .digit ++ []) (day ++ '-' ::
        (year' ++ '-' :: (month' ++ '-' :: day'))) = false := by
      rw [hday.matches_append, matchesPattern_dash]
    rw [patternOf, datePattern_eq, hyear.matches_append, matchesPattern_char,
      hmonth.matches_append, matchesPattern_char]
    simpa using hend
  have hdayNumbers := hday.numbers_append [] (year' ++ '-' :: (month' ++ '-' :: day'))
  rw [List.nil_append] at hdayNumbers
  rw [htext]
  unfold parse
  rw [parseFirst_skip (not_matches_year hyear),
    parseFirst_skip (not_matches_month hyear hmonth),
    parseFirst_skip (not_matches_week hyear hmonth),
    parseFirst_skip hnotDate]
  apply parseFirst_found
  unfold parseKind
  dsimp only
  rw [customPattern_eq, hyear.matches_append, matchesPattern_char, hmonth.matches_append,
    matchesPattern_char, hday.matches_append, matchesPattern_char, datePattern_eq,
    hyear'.matches_append, matchesPattern_char, hmonth'.matches_append, matchesPattern_char,
    hday'.matches_all, numbers_date hyear hmonth, hdayNumbers, numbers_date hyear' hmonth',
    hday'.numbers_last]
  dsimp only
  rw [if_pos rfl, ha]
  change (Except.bind (date y' m' d') _ : Except DateError (Option DateInterval)) = _
  rw [hb]
  rfl

end Formats

/-! ## The fields of dates -/

theorem digits_year {y : ℤ} (hlow : 1 ≤ y) (hhigh : y ≤ 9999) : Digits (padded 4 y) 4 y :=
  digits_padded 3 (by omega) (by omega)

theorem digits_two {n : ℤ} (hlow : 0 ≤ n) (hhigh : n ≤ 99) : Digits (padded 2 n) 2 n :=
  digits_padded 1 hlow (by omega)

theorem one_le_yearOf {d : ℤ} (hlow : 1 ≤ d) : 1 ≤ yearOf d :=
  le_yearOf (show daysBeforeYear 1 < d from hlow)

theorem digits_fields {d : ℤ} (hlow : 1 ≤ d) (hhigh : d ≤ maxOrdinal) :
    Digits (padded 4 (yearOf d)) 4 (yearOf d) ∧ Digits (padded 2 (monthOf d)) 2 (monthOf d) ∧
      Digits (padded 2 (dayOf d)) 2 (dayOf d) := by
  obtain ⟨hone, htwelve, -⟩ := monthOf_spec d
  obtain ⟨hday, hlast⟩ := dayOf_bounds d
  have hmonth := daysInMonth_le (yearOf d) hone htwelve
  have hyear : yearOf d ≤ 9999 :=
    year_le_of_daysBeforeYear_lt ((daysBeforeYear_yearOf d).trans_le hhigh)
  exact ⟨digits_year (one_le_yearOf hlow) hyear, digits_two (by omega) (by omega),
    digits_two (by omega) (by omega)⟩

/-- The text of an interval is parsed to the interval.  Weeks have no zeros before their year. -/
theorem parse_toString (hmade : Made i)
    (hweek : i.kind = .week → 1000 ≤ (isocalendar i.dateA).1) : parse i.toString = .ok i := by
  cases hmade with
  | @date y m d i hmade =>
      obtain ⟨a, ha, hrest⟩ := bind_eq_ok hmade
      obtain ⟨b, hb, heq⟩ := bind_eq_ok hrest
      cases heq
      obtain ⟨hyear, hmonth, hday, rfl⟩ := date_eq_ok ha
      have hlast := daysInMonth_le y hmonth.1 hmonth.2
      unfold toString dateText
      dsimp only
      rw [yearOf_toOrdinal hmonth hday, monthOf_toOrdinal hmonth hday, dayOf_toOrdinal hmonth hday]
      exact parse_date (digits_year hyear.1 hyear.2) (digits_two (by omega) (by omega))
        (digits_two (by omega) (by omega)) hmade
  | @week y w i hmade =>
      obtain ⟨a, ha, hrest⟩ := bind_eq_ok hmade
      obtain ⟨b, hb, heq⟩ := bind_eq_ok hrest
      cases heq
      have hcalendar := findWeek_eq_ok ha
      obtain ⟨-, hlow, hhigh, -⟩ := isocalendar_monday hcalendar
      have hthousand := hweek rfl
      unfold toString
      dsimp only at hthousand ⊢
      rw [hcalendar] at hthousand ⊢
      dsimp only at hthousand ⊢
      rw [decimal_eq_padded hthousand]
      exact parse_week (digits_year (by omega) (year_of_findWeek ha).2)
        (digits_two (by omega) (by omega)) hmade
  | @month y m i hmade =>
      obtain ⟨a, ha, hrest⟩ := bind_eq_ok hmade
      obtain ⟨b, hb, heq⟩ := bind_eq_ok hrest
      cases heq
      obtain ⟨hyear, hmonth, hday, rfl⟩ := date_eq_ok ha
      unfold toString
      dsimp only
      rw [yearOf_toOrdinal hmonth hday, monthOf_toOrdinal hmonth hday]
      exact parse_month (digits_year hyear.1 hyear.2) (digits_two (by omega) (by omega)) hmade
  | @year y i hmade =>
      obtain ⟨a, ha, hrest⟩ := bind_eq_ok hmade
      obtain ⟨b, hb, heq⟩ := bind_eq_ok hrest
      cases heq
      obtain ⟨hyear, hmonth, hday, rfl⟩ := date_eq_ok ha
      unfold toString
      dsimp only
      rw [yearOf_toOrdinal hmonth hday]
      exact parse_year (digits_year hyear.1 hyear.2) hmade
  | @custom a b ha hb =>
      obtain ⟨hyear, hmonth, hday⟩ := digits_fields ha.1 ha.2
      obtain ⟨hyear', hmonth', hday'⟩ := digits_fields hb.1 hb.2
      exact parse_custom hyear hmonth hday hyear' hmonth' hday'
        (date_fields (one_le_yearOf ha.1) ha.2) (date_fields (one_le_yearOf hb.1) hb.2)

/-- Date intervals tile the years from 1000 to 9998, and their texts are parsed to them. -/
theorem tile_and_parse :
    (∀ kind d, kind ≠ .custom → 1000 ≤ yearOf d → yearOf d ≤ 9998 → ∃ i, Tiles kind d i) ∧
      ∀ i, Made i → (i.kind = .week → 1000 ≤ (isocalendar i.dateA).1) →
        parse i.toString = .ok i :=
  ⟨fun kind d hkind hlow hhigh => ⟨tile kind ((tiling kind).index d), tiles_tile hkind hlow hhigh⟩,
    fun _ hmade hweek => parse_toString hmade hweek⟩

/-- The week of 15 November 2014, and the interval from that day to itself. -/
theorem tile_and_parse_november : (∃ i, Tiles .week 735552 i) ∧
    parse (toString ⟨.custom, 735552, 735552⟩) = .ok ⟨.custom, 735552, 735552⟩ :=
  ⟨tile_and_parse.1 .week 735552 nofun (by decide) (by decide),
    tile_and_parse.2 _ (.custom (by decide) (by decide)) nofun⟩

example : toString ⟨.week, 735547, 735554⟩ = "2014-W46".toList := by decide

end Trun.DateInterval
