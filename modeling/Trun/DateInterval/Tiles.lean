import Mathlib.Tactic.Ring
import Trun.DateInterval.Interval
import Trun.Program.Tiling

/-!
# The intervals of a class tile the calendar

Each class is a tiling of the days: its intervals are the tiles, and `from_date` finds the tile of
a day.
-/

namespace Trun.DateInterval

open Calendar

/-- The first day of a month, counted through all years. -/
def monthStart (k : ℤ) : ℤ := toOrdinal (k / 12) (k % 12 + 1) 1

theorem monthStart_eq (year : ℤ) {month : ℤ} (hmonth : 1 ≤ month ∧ month ≤ 12) :
    monthStart (year * 12 + month - 1) = toOrdinal year month 1 := by
  have hyear : (year * 12 + month - 1) / 12 = year := by omega
  have hrest : (year * 12 + month - 1) % 12 + 1 = month := by omega
  unfold monthStart
  rw [hyear, hrest]

/-- The next month starts where the days of this one end. -/
theorem monthStart_next (year : ℤ) {month : ℤ} (hmonth : 1 ≤ month ∧ month ≤ 12) :
    monthStart (year * 12 + month) =
      daysBeforeYear year + daysBeforeMonth year (month + 1) + 1 := by
  rcases hmonth.2.eq_or_lt with rfl | hlt
  · have h := monthStart_eq (year + 1) (show (1 : ℤ) ≤ 1 ∧ (1 : ℤ) ≤ 12 from ⟨le_rfl, by omega⟩)
    rw [show (year + 1) * 12 + 1 - 1 = year * 12 + 12 by ring] at h
    rw [h, toOrdinal_first, daysBeforeYear_succ,
      show daysBeforeMonth year (12 + 1) = 365 + leapDay year from rfl]
    ring
  · have h := monthStart_eq year (show 1 ≤ month + 1 ∧ month + 1 ≤ 12 from ⟨by omega, by omega⟩)
    rw [show year * 12 + (month + 1) - 1 = year * 12 + month by ring] at h
    rw [h]
    rfl

theorem monthStart_lt_succ (k : ℤ) : monthStart k < monthStart (k + 1) := by
  have hmonth : 1 ≤ k % 12 + 1 ∧ k % 12 + 1 ≤ 12 := by omega
  have hk : k / 12 * 12 + (k % 12 + 1) = k + 1 := by omega
  have hthis := monthStart_eq (k / 12) hmonth
  have hnext := monthStart_next (k / 12) hmonth
  rw [hk, add_sub_cancel_right] at hthis
  rw [hk] at hnext
  rw [hthis, hnext]
  have hlt := daysBeforeMonth_lt_succ (k / 12) hmonth.1 hmonth.2
  unfold toOrdinal
  omega

theorem monthStart_index_le (d : ℤ) : monthStart (yearOf d * 12 + monthOf d - 1) ≤ d := by
  obtain ⟨hlow, hhigh, hle, -⟩ := monthOf_spec d
  rw [monthStart_eq _ ⟨hlow, hhigh⟩]
  unfold dayOfYear at hle
  unfold toOrdinal
  omega

theorem lt_monthStart_index (d : ℤ) :
    d < monthStart (yearOf d * 12 + monthOf d - 1 + 1) := by
  obtain ⟨hlow, hhigh, -, hlt⟩ := monthOf_spec d
  rw [sub_add_cancel, monthStart_next _ ⟨hlow, hhigh⟩]
  unfold dayOfYear at hlt
  omega

/-- Days, from Monday to Monday, from first to first, or from 1 January to 1 January. -/
def tiling : Kind → Tiling
  | .week =>
    { start := fun k => k * 7 + 1
      index := fun d => (d - 1) / 7
      start_lt_succ := fun k => by omega
      start_index_le := fun d => by omega
      lt_start_index := fun d => by omega }
  | .month =>
    { start := monthStart
      index := fun d => yearOf d * 12 + monthOf d - 1
      start_lt_succ := monthStart_lt_succ
      start_index_le := monthStart_index_le
      lt_start_index := lt_monthStart_index }
  | .year =>
    { start := fun k => toOrdinal k 1 1
      index := yearOf
      start_lt_succ := fun k => by
        have h := strictMono_daysBeforeYear (Int.lt_succ k)
        rw [toOrdinal_first, toOrdinal_first]
        exact Int.add_lt_add_right h 1
      start_index_le := fun d => by
        have h := daysBeforeYear_yearOf d
        rw [toOrdinal_first]
        omega
      lt_start_index := fun d => by
        have h := le_daysBeforeYear_yearOf d
        rw [toOrdinal_first]
        omega }
  | _ =>
    { start := fun k => k
      index := fun d => d
      start_lt_succ := fun k => by omega
      start_index_le := fun d => le_rfl
      lt_start_index := fun d => by omega }

/-- The tile of a class with an index. -/
def tile (kind : Kind) (k : ℤ) : DateInterval :=
  ⟨kind, (tiling kind).start k, (tiling kind).start (k + 1)⟩

/-- The intervals of the classes that can be made. -/
inductive Made : DateInterval → Prop
  | date {y m d : ℤ} {i : DateInterval} (hmade : newDate y m d = .ok i) : Made i
  | week {y w : ℤ} {i : DateInterval} (hmade : newWeek y w = .ok i) : Made i
  | month {y m : ℤ} {i : DateInterval} (hmade : newMonth y m = .ok i) : Made i
  | year {y : ℤ} {i : DateInterval} (hmade : newYear y = .ok i) : Made i
  | custom {a b : ℤ} (ha : 1 ≤ a ∧ a ≤ maxOrdinal) (hb : 1 ≤ b ∧ b ≤ maxOrdinal) :
      Made ⟨.custom, a, b⟩

/-! ## The intervals are tiles -/

variable {kind : Kind} {i : DateInterval} {d k : ℤ}

theorem date_eq_ok {year month day ordinal : ℤ} (hdate : date year month day = .ok ordinal) :
    (1 ≤ year ∧ year ≤ 9999) ∧ (1 ≤ month ∧ month ≤ 12) ∧
      (1 ≤ day ∧ day ≤ daysInMonth year month) ∧ ordinal = toOrdinal year month day := by
  unfold date at hdate
  split at hdate
  next hvalid =>
    cases hdate
    exact ⟨hvalid.1, hvalid.2.1, hvalid.2.2, rfl⟩
  next => cases hdate

theorem addDays_eq_ok {ordinal days result : ℤ} (hadd : addDays ordinal days = .ok result) :
    result = ordinal + days ∧ 1 ≤ result ∧ result ≤ maxOrdinal := by
  unfold addDays at hadd
  split at hadd
  next hvalid =>
    cases hadd
    exact ⟨rfl, hvalid⟩
  next => cases hadd

theorem findWeek_eq_ok {y w found : ℤ} {offsets : List ℤ}
    (hfind : findWeek y w offsets = .ok found) : isocalendar found = (y, w, 1) := by
  induction offsets with
  | nil => cases hfind
  | cons offset rest ih =>
      unfold findWeek at hfind
      split at hfind
      next => cases hfind
      next =>
        split at hfind
        next hcalendar =>
          cases hfind
          exact hcalendar
        next => exact ih hfind

theorem bind_eq_ok {α β : Type} {x : Except DateError α} {f : α → Except DateError β} {b : β}
    (h : x.bind f = .ok b) : ∃ a, x = .ok a ∧ f a = .ok b := by
  cases x with
  | error error => cases h
  | ok a => exact ⟨a, rfl, h⟩

theorem year_of_findWeek {y w found : ℤ} {offsets : List ℤ}
    (hfind : findWeek y w offsets = .ok found) : 1 ≤ y ∧ y ≤ 9999 := by
  cases offsets with
  | nil => cases hfind
  | cons offset rest =>
      unfold findWeek at hfind
      split at hfind
      next => cases hfind
      next hadd =>
        obtain ⟨first, hfirst, -⟩ := bind_eq_ok hadd
        exact (date_eq_ok hfirst).1

/-- The first day of a week is a Monday. -/
theorem isocalendar_monday {y w found : ℤ} (hcalendar : isocalendar found = (y, w, 1)) :
    found = isoWeek1Monday y + (w - 1) * 7 ∧ 1 ≤ w ∧ w ≤ 53 ∧ found % 7 = 1 := by
  obtain ⟨year, hlow, hhigh, heq⟩ := exists_isocalendar found
  rw [hcalendar] at heq
  obtain ⟨rfl, hweek, hday⟩ : y = year ∧ w = (found - isoWeek1Monday year) / 7 + 1 ∧
      1 = (found - isoWeek1Monday year) % 7 + 1 := by simpa using heq
  have hmonday := (isoWeek1Monday_bounds y).1
  have hnext := (isoWeek1Monday_succ y).2
  omega

/-- An interval that can be made is a tile of its class. -/
theorem Made.exists_tile (hmade : Made i) (hkind : i.kind ≠ .custom) :
    ∃ k, i = tile i.kind k := by
  cases hmade with
  | date hmade =>
      obtain ⟨a, ha, hrest⟩ := bind_eq_ok hmade
      obtain ⟨b, hb, heq⟩ := bind_eq_ok hrest
      cases heq
      exact ⟨a, by rw [(addDays_eq_ok hb).1]; rfl⟩
  | week hmade =>
      obtain ⟨a, ha, hrest⟩ := bind_eq_ok hmade
      obtain ⟨b, hb, heq⟩ := bind_eq_ok hrest
      cases heq
      obtain ⟨-, -, -, hmonday⟩ := isocalendar_monday (findWeek_eq_ok ha)
      refine ⟨(a - 1) / 7, ?_⟩
      have hstart : (a - 1) / 7 * 7 + 1 = a := by omega
      have hnext : ((a - 1) / 7 + 1) * 7 + 1 = a + 7 := by omega
      unfold tile tiling
      dsimp only
      rw [hstart, hnext, (addDays_eq_ok hb).1]
  | @month y m i hmade =>
      obtain ⟨a, ha, hrest⟩ := bind_eq_ok hmade
      obtain ⟨b, hb, heq⟩ := bind_eq_ok hrest
      cases heq
      obtain ⟨-, hmonth, -, rfl⟩ := date_eq_ok ha
      obtain ⟨-, -, -, rfl⟩ := date_eq_ok hb
      refine ⟨y * 12 + m - 1, ?_⟩
      have hnext : toOrdinal (y + m / 12) (1 + m % 12) 1 = monthStart (y * 12 + m - 1 + 1) := by
        have hyear : (y * 12 + m - 1 + 1) / 12 = y + m / 12 := by omega
        have hrest : (y * 12 + m - 1 + 1) % 12 + 1 = 1 + m % 12 := by omega
        unfold monthStart
        rw [hyear, hrest]
      unfold tile tiling
      dsimp only
      rw [monthStart_eq _ hmonth, hnext]
  | @year y i hmade =>
      obtain ⟨a, ha, hrest⟩ := bind_eq_ok hmade
      obtain ⟨b, hb, heq⟩ := bind_eq_ok hrest
      cases heq
      obtain ⟨-, -, -, rfl⟩ := date_eq_ok ha
      obtain ⟨-, -, -, rfl⟩ := date_eq_ok hb
      exact ⟨y, rfl⟩
  | custom => exact absurd rfl hkind

theorem contains_iff (i : DateInterval) (d : ℤ) :
    i.contains d = true ↔ i.dateA ≤ d ∧ d < i.dateB := by
  unfold contains dates
  rw [decide_eq_true_eq, List.mem_map]
  constructor
  · rintro ⟨n, hn, rfl⟩
    rw [List.mem_range] at hn
    omega
  · rintro ⟨hlow, hhigh⟩
    exact ⟨(d - i.dateA).toNat, List.mem_range.mpr (by omega), by omega⟩

theorem contains_tile (kind : Kind) (k d : ℤ) :
    (tile kind k).contains d = true ↔ (tiling kind).index d = k := by
  rw [contains_iff]
  constructor
  · rintro ⟨hlow, hhigh⟩
    exact (tiling kind).index_eq hlow hhigh
  · rintro rfl
    exact ⟨(tiling kind).start_index_le d, (tiling kind).lt_start_index d⟩

/-! ## `from_date` finds the tile -/

theorem daysBeforeYear_max : daysBeforeYear 10000 = maxOrdinal := rfl

theorem date_of_valid {year month day : ℤ} (hyear : 1 ≤ year ∧ year ≤ 9999)
    (hmonth : 1 ≤ month ∧ month ≤ 12) (hday : 1 ≤ day ∧ day ≤ daysInMonth year month) :
    date year month day = .ok (toOrdinal year month day) := by
  unfold date
  rw [if_pos ⟨hyear, hmonth, hday⟩]

theorem date_first {year : ℤ} (hyear : 1 ≤ year ∧ year ≤ 9999) :
    date year 1 1 = .ok (toOrdinal year 1 1) :=
  date_of_valid hyear ⟨le_rfl, by omega⟩ ⟨le_rfl, (show (1 : ℤ) ≤ 31 by omega)⟩

theorem date_fields (hlow : 1 ≤ yearOf d) (hhigh : d ≤ maxOrdinal) :
    date (yearOf d) (monthOf d) (dayOf d) = .ok d := by
  have hyear : yearOf d < 10000 := strictMono_daysBeforeYear.lt_iff_lt.mp
    ((daysBeforeYear_yearOf d).trans_le (hhigh.trans_eq daysBeforeYear_max.symm))
  obtain ⟨hone, htwelve, -⟩ := monthOf_spec d
  rw [date_of_valid ⟨hlow, by omega⟩ ⟨hone, htwelve⟩ (dayOf_bounds d), toOrdinal_fields]

theorem addDays_of_valid {ordinal days : ℤ} (hlow : 1 ≤ ordinal + days)
    (hhigh : ordinal + days ≤ maxOrdinal) : addDays ordinal days = .ok (ordinal + days) := by
  unfold addDays
  rw [if_pos ⟨hlow, hhigh⟩]

/-- A year is not later than the last if one of its days is not. -/
theorem year_le_of_daysBeforeYear_lt {year : ℤ} (h : daysBeforeYear year < maxOrdinal) :
    year ≤ 9999 := by
  have hlt : year < 10000 :=
    strictMono_daysBeforeYear.lt_iff_lt.mp (h.trans_eq daysBeforeYear_max.symm)
  omega

/-- The search comes to the Monday of the week before it leaves the calendar. -/
theorem findWeek_of_isocalendar {y w found : ℤ} (hyear : 2 ≤ y ∧ y ≤ 9999)
    (hcalendar : isocalendar found = (y, w, 1)) (hhigh : found ≤ maxOrdinal) {first count : ℕ}
    (hfirst : toOrdinal y 1 1 + (first - 10) ≤ found)
    (hlast : found < toOrdinal y 1 1 + (first + count - 10)) :
    findWeek y w ((List.range' first count).map fun n : ℕ => (n : ℤ) - 10) = .ok found := by
  have hstart : 366 ≤ toOrdinal y 1 1 := by
    have hmono := strictMono_daysBeforeYear.monotone hyear.1
    rw [show daysBeforeYear 2 = 365 from rfl] at hmono
    rw [toOrdinal_first]
    omega
  induction count generalizing first with
  | zero => omega
  | succ count ih =>
      rw [List.range'_succ, List.map_cons, findWeek, date_first ⟨by omega, hyear.2⟩]
      dsimp only [Except.bind]
      rw [addDays_of_valid (by omega) (by omega)]
      dsimp only
      split
      next hhere =>
        rw [(isocalendar_monday hhere).1, (isocalendar_monday hcalendar).1]
      next helse =>
        have hne : toOrdinal y 1 1 + ((first : ℤ) - 10) ≠ found := by
          intro heq
          rw [heq] at helse
          exact helse hcalendar
        exact ih (by push_cast; omega) (by push_cast; omega)

/-- The Monday of a day has its week. -/
theorem isocalendar_index (d : ℤ) : ∃ y w day, isocalendar d = (y, w, day) ∧
    isocalendar ((d - 1) / 7 * 7 + 1) = (y, w, 1) ∧ isoWeek1Monday y ≤ d ∧
      d < isoWeek1Monday (y + 1) ∧ (d - 1) / 7 * 7 + 1 ≤ isoWeek1Monday y + 364 := by
  obtain ⟨y, hlow, hhigh, heq⟩ := exists_isocalendar d
  have hmonday := (isoWeek1Monday_bounds y).1
  have hnext := (isoWeek1Monday_succ y).2
  refine ⟨y, _, _, heq, ?_, hlow, hhigh, by omega⟩
  rw [isocalendar_eq y (by omega) (by omega)]
  have hweek : ((d - 1) / 7 * 7 + 1 - isoWeek1Monday y) / 7 = (d - isoWeek1Monday y) / 7 := by omega
  have hday : ((d - 1) / 7 * 7 + 1 - isoWeek1Monday y) % 7 = 0 := by omega
  rw [hweek, hday]
  rfl

/-- `from_date`, for days after the second year whose interval ends within the calendar. -/
theorem fromDate_eq (hkind : kind ≠ .custom) (hlow : 3 ≤ yearOf d)
    (hhigh : (tiling kind).start ((tiling kind).index d + 1) ≤ maxOrdinal) :
    fromDate kind d = .ok (tile kind ((tiling kind).index d)) := by
  have hinside : d < maxOrdinal := ((tiling kind).lt_start_index d).trans_le hhigh
  have hyear : yearOf d ≤ 9999 :=
    year_le_of_daysBeforeYear_lt ((daysBeforeYear_yearOf d).trans hinside)
  have hafter : 1 ≤ d := by
    have hmono := strictMono_daysBeforeYear.monotone hlow
    rw [show daysBeforeYear 3 = 730 from rfl] at hmono
    have hbefore := daysBeforeYear_yearOf d
    omega
  cases kind with
  | custom => exact absurd rfl hkind
  | date =>
      unfold fromDate newDate
      dsimp only
      rw [date_fields (by omega) hinside.le]
      change d + 1 ≤ maxOrdinal at hhigh
      change (addDays d 1).bind _ = _
      rw [addDays_of_valid (by omega) hhigh]
      rfl
  | week =>
      obtain ⟨y, w, day, heq, hmonday, hbefore, hbehind, hnear⟩ := isocalendar_index d
      obtain ⟨hmod, hfirst, hfirst'⟩ := isoWeek1Monday_bounds y
      have hsecond := (isoWeek1Monday_bounds (y + 1)).2.2
      change ((d - 1) / 7 + 1) * 7 + 1 ≤ maxOrdinal at hhigh
      have hy : 2 ≤ y := by
        have hmono : daysBeforeYear 2 < daysBeforeYear (y + 1) := by
          have hmono' := strictMono_daysBeforeYear.monotone hlow
          have hstart := daysBeforeYear_yearOf d
          rw [show daysBeforeYear 3 = 730 from rfl] at hmono'
          rw [show daysBeforeYear 2 = 365 from rfl]
          omega
        have hlt := strictMono_daysBeforeYear.lt_iff_lt.mp hmono
        omega
      have hy' : y ≤ 9999 := year_le_of_daysBeforeYear_lt (by omega)
      unfold fromDate newWeek weekOffsets
      rw [heq]
      dsimp only
      rw [findWeek_of_isocalendar ⟨hy, hy'⟩ hmonday (by omega)
        (by rw [toOrdinal_first]; push_cast; omega) (by rw [toOrdinal_first]; push_cast; omega)]
      change (addDays _ 7).bind _ = _
      rw [addDays_of_valid (by omega) (by omega)]
      change Except.ok _ = Except.ok _
      unfold tile tiling
      dsimp only
      rw [show ((d - 1) / 7 + 1) * 7 + 1 = (d - 1) / 7 * 7 + 1 + 7 by ring]
  | month =>
      obtain ⟨hone, htwelve, -⟩ := monthOf_spec d
      have hday : 1 ≤ daysInMonth (yearOf d) (monthOf d) := by
        obtain ⟨h, h'⟩ := dayOf_bounds d
        omega
      change monthStart (yearOf d * 12 + monthOf d - 1 + 1) ≤ maxOrdinal at hhigh
      rw [sub_add_cancel] at hhigh
      have hnext : toOrdinal (yearOf d + monthOf d / 12) (1 + monthOf d % 12) 1 =
          monthStart (yearOf d * 12 + monthOf d) := by
        have hyear : (yearOf d * 12 + monthOf d) / 12 = yearOf d + monthOf d / 12 := by omega
        have hrest : (yearOf d * 12 + monthOf d) % 12 + 1 = 1 + monthOf d % 12 := by omega
        unfold monthStart
        rw [hyear, hrest]
      have hmonth : 1 ≤ 1 + monthOf d % 12 ∧ 1 + monthOf d % 12 ≤ 12 := by omega
      have hdays : 1 ≤ daysInMonth (yearOf d + monthOf d / 12) (1 + monthOf d % 12) := by
        have hlt := daysBeforeMonth_lt_succ (yearOf d + monthOf d / 12) hmonth.1 hmonth.2
        unfold daysInMonth
        omega
      have hnextYear : yearOf d + monthOf d / 12 ≤ 9999 := by
        apply year_le_of_daysBeforeYear_lt
        have hbefore := (daysBeforeMonth_bounds (yearOf d + monthOf d / 12) hmonth.1
          hmonth.2).1
        rw [← hnext] at hhigh
        unfold toOrdinal at hhigh
        omega
      unfold fromDate newMonth
      dsimp only
      rw [date_of_valid ⟨by omega, hyear⟩ ⟨hone, htwelve⟩ ⟨le_rfl, hday⟩]
      change (date _ _ 1).bind _ = _
      rw [date_of_valid ⟨by omega, hnextYear⟩ hmonth ⟨le_rfl, hdays⟩, hnext,
        ← monthStart_eq _ ⟨hone, htwelve⟩]
      change Except.ok _ = Except.ok _
      unfold tile tiling
      dsimp only
      rw [sub_add_cancel]
  | year =>
      change toOrdinal (yearOf d + 1) 1 1 ≤ maxOrdinal at hhigh
      rw [toOrdinal_first] at hhigh
      have hnext : yearOf d + 1 ≤ 9999 := year_le_of_daysBeforeYear_lt (by omega)
      unfold fromDate newYear
      dsimp only
      rw [date_first ⟨by omega, hyear⟩]
      change (date (yearOf d + 1) 1 1).bind _ = _
      rw [date_first ⟨by omega, hnext⟩]
      rfl

/-! ## The laws of the tiles -/

theorem le_start_index (kind : Kind) (d : ℤ) :
    daysBeforeYear (yearOf d) - 6 ≤ (tiling kind).start ((tiling kind).index d) := by
  have hbefore := daysBeforeYear_yearOf d
  cases kind with
  | date | custom =>
      change _ ≤ d
      omega
  | week =>
      change _ ≤ (d - 1) / 7 * 7 + 1
      omega
  | month =>
      obtain ⟨hone, htwelve, -⟩ := monthOf_spec d
      have hmonth := (daysBeforeMonth_bounds (yearOf d) hone htwelve).1
      change _ ≤ monthStart (yearOf d * 12 + monthOf d - 1)
      rw [monthStart_eq _ ⟨hone, htwelve⟩]
      unfold toOrdinal
      omega
  | year =>
      change _ ≤ toOrdinal (yearOf d) 1 1
      rw [toOrdinal_first]
      omega

theorem start_succ_index_le (kind : Kind) (d : ℤ) :
    (tiling kind).start ((tiling kind).index d + 1) ≤ daysBeforeYear (yearOf d + 1) + 7 := by
  have hafter := le_daysBeforeYear_yearOf d
  cases kind with
  | date | custom =>
      change d + 1 ≤ _
      omega
  | week =>
      change ((d - 1) / 7 + 1) * 7 + 1 ≤ _
      omega
  | month =>
      obtain ⟨hone, htwelve, -⟩ := monthOf_spec d
      have hmonth := (daysBeforeMonth_bounds (yearOf d) hone htwelve).2
      change monthStart (yearOf d * 12 + monthOf d - 1 + 1) ≤ _
      rw [sub_add_cancel, monthStart_next _ ⟨hone, htwelve⟩, daysBeforeYear_succ]
      omega
  | year =>
      change toOrdinal (yearOf d + 1) 1 1 ≤ _
      rw [toOrdinal_first]
      omega

/-- All tiles but the years are short. -/
theorem start_succ_le (hkind : kind ≠ .year) (k : ℤ) :
    (tiling kind).start (k + 1) ≤ (tiling kind).start k + 31 := by
  cases kind with
  | date | custom =>
      change k + 1 ≤ k + 31
      omega
  | week =>
      change (k + 1) * 7 + 1 ≤ k * 7 + 1 + 31
      omega
  | month =>
      have hmonth : 1 ≤ k % 12 + 1 ∧ k % 12 + 1 ≤ 12 := by omega
      have hk : k / 12 * 12 + (k % 12 + 1) = k + 1 := by omega
      have hdays := daysInMonth_le (k / 12) hmonth.1 hmonth.2
      have hnext := monthStart_next (k / 12) hmonth
      rw [hk] at hnext
      change monthStart (k + 1) ≤ monthStart k + 31
      rw [hnext]
      unfold daysInMonth at hdays
      unfold monthStart toOrdinal
      omega
  | year => exact absurd rfl hkind

/-- `from_date` of a day in a tile whose end is within the calendar. -/
theorem fromDate_of_index (hkind : kind ≠ .custom) (hlow : 3 ≤ yearOf d)
    (hindex : (tiling kind).index d = k) (hhigh : (tiling kind).start (k + 1) ≤ maxOrdinal) :
    fromDate kind d = .ok (tile kind k) := by
  subst hindex
  exact fromDate_eq hkind hlow hhigh

theorem next_tile (hkind : kind ≠ .custom) (hlow : 3 ≤ yearOf ((tiling kind).start (k + 1)))
    (hhigh : (tiling kind).start (k + 1 + 1) ≤ maxOrdinal) :
    (tile kind k).next = .ok (tile kind (k + 1)) :=
  fromDate_of_index hkind hlow ((tiling kind).index_start (k + 1)) hhigh

theorem prev_tile (hkind : kind ≠ .custom) (hlow : 3 ≤ yearOf ((tiling kind).start k - 1))
    (hhigh : (tiling kind).start k ≤ maxOrdinal) :
    (tile kind k).prev = .ok (tile kind (k - 1)) := by
  have hvalid : 1 ≤ (tiling kind).start k + -1 := by
    have hmono := strictMono_daysBeforeYear.monotone hlow
    rw [show daysBeforeYear 3 = 730 from rfl] at hmono
    have hbefore := daysBeforeYear_yearOf ((tiling kind).start k - 1)
    omega
  unfold prev
  change (addDays ((tiling kind).start k) (-1)).bind _ = _
  rw [addDays_of_valid hvalid (by omega)]
  apply fromDate_of_index hkind hlow ((tiling kind).index_before_start k)
  rwa [sub_add_cancel]

/-- What holds of the interval of a day. -/
structure Tiles (kind : Kind) (d : ℤ) (i : DateInterval) : Prop where
  found : fromDate kind d = .ok i
  isOf : i.kind = kind
  contains : i.contains d = true
  only : ∀ other, Made other → other.kind = kind → other.contains d = true → other = i
  foundAgain : fromDate kind i.dateA = .ok i
  /-- The interval after the one of the year 9998 would end after the last day of the calendar. -/
  next : (kind = .year → yearOf d < 9998) → ∃ following, i.next = .ok following ∧
    following.dateA = i.dateB ∧ following.prev = .ok i
  prev : ∃ preceding, i.prev = .ok preceding ∧ preceding.next = .ok i

theorem tiles_tile (hkind : kind ≠ .custom) (hlow : 1000 ≤ yearOf d) (hhigh : yearOf d ≤ 9998) :
    Tiles kind d (tile kind ((tiling kind).index d)) := by
  set k := (tiling kind).index d with hk
  have hfirst : daysBeforeYear 3 + 1 < (tiling kind).start k := by
    have hmono := strictMono_daysBeforeYear.monotone hlow
    have hstart := le_start_index kind d
    rw [← hk] at hstart
    rw [show daysBeforeYear 1000 = 364877 from rfl] at hmono
    rw [show daysBeforeYear 3 = 730 from rfl]
    omega
  have hmono := strictMono_daysBeforeYear.monotone (show yearOf d + 1 ≤ 9999 by omega)
  have hbound := start_succ_index_le kind d
  rw [← hk] at hbound
  rw [show daysBeforeYear 9999 = 3651694 from rfl] at hmono
  have hmax : maxOrdinal = 3652059 := rfl
  have hlast : (tiling kind).start (k + 1) ≤ maxOrdinal := by omega
  have hsucc := (tiling kind).start_lt_succ k
  constructor
  · exact fromDate_of_index hkind (by omega) hk.symm hlast
  · rfl
  · exact (contains_tile kind k d).mpr hk.symm
  · intro other hmade hother hmem
    subst hother
    obtain ⟨l, hl⟩ := hmade.exists_tile hkind
    rw [hl] at hmem ⊢
    rw [← (contains_tile _ l d).mp hmem]
    rfl
  · have hyear : 3 ≤ yearOf ((tiling kind).start k) := le_yearOf (by omega)
    exact fromDate_of_index hkind hyear ((tiling kind).index_start k) hlast
  · intro hyear
    have hnext : (tiling kind).start (k + 1 + 1) ≤ maxOrdinal := by
      by_cases hisYear : kind = .year
      · subst hisYear
        have hmono' := strictMono_daysBeforeYear.monotone
          (show yearOf d + 1 + 1 ≤ 9999 by have h := hyear rfl; omega)
        rw [show daysBeforeYear 9999 = 3651694 from rfl] at hmono'
        change toOrdinal (yearOf d + 1 + 1) 1 1 ≤ maxOrdinal
        rw [toOrdinal_first]
        omega
      · have hshort := start_succ_le hisYear (k + 1)
        omega
    refine ⟨tile kind (k + 1), next_tile hkind (le_yearOf (by omega)) hnext, rfl, ?_⟩
    rw [prev_tile hkind (le_yearOf (by omega)) hlast, add_sub_cancel_right]
  · refine ⟨tile kind (k - 1), prev_tile hkind (le_yearOf (by omega)) (by omega), ?_⟩
    have hnext := next_tile (k := k - 1) hkind (by
      rw [sub_add_cancel]
      exact le_yearOf (by omega)) (by
      rw [sub_add_cancel]
      exact hlast)
    rwa [sub_add_cancel] at hnext

end Trun.DateInterval
