import Mathlib.Tactic.IntervalCases
import Trun.Tools.Range

/-!
# The instants that a range requires

What `requires` returns, for the three grids: the incomplete instants of the
interval in order, or the latest of them from the newest on, unless the limit is
zero in reverse.
-/

namespace Trun.Tools

universe u

/-! ## Datetimes -/

/-- A computation that returns has run both parts. -/
theorem except_bind_eq_ok {ε α β : Type} {first : Except ε α} {next : α → Except ε β} {last : β} :
    first >>= next = .ok last ↔ ∃ value, first = .ok value ∧ next value = .ok last := by
  cases first with
  | error _ => simp [bind, Except.bind]
  | ok value => simp [bind, Except.bind]

theorem datetimeAt_eq_ok {micros : ℤ} {t : Datetime} :
    datetimeAt micros = .ok t ↔ (t.1 : ℤ) = micros := by
  unfold datetimeAt
  split
  next h =>
    rw [Except.ok.injEq, Subtype.ext_iff]
    dsimp only
    omega
  next h =>
    have := t.2
    constructor
    · exact nofun
    · intro ht
      exact absurd ⟨by omega, by omega⟩ h

theorem datetimeAt_eq_error {micros : ℤ} (h : ¬(0 ≤ micros ∧ micros < endOfTime)) :
    datetimeAt micros = .error .overflow := by
  unfold datetimeAt
  rw [dif_neg]
  omega

theorem exists_datetimeAt {micros : ℤ} (h : 0 ≤ micros ∧ micros < endOfTime) :
    ∃ t : Datetime, datetimeAt micros = .ok t ∧ (t.1 : ℤ) = micros :=
  ⟨⟨micros.toNat, by omega⟩, datetimeAt_eq_ok.mpr (by dsimp only; omega), by dsimp only; omega⟩

theorem range_of_datetimeAt {micros : ℤ} {t : Datetime} (h : datetimeAt micros = .ok t) :
    0 ≤ micros ∧ micros < endOfTime := by
  have ht := datetimeAt_eq_ok.mp h
  have := t.2
  omega

/-! ## Grids -/

section Gather

variable {unit fuel : ℕ} {finiteStart finiteStop t : Datetime}

/-- The loop comes up with the points from `t` on, in order. -/
theorem gather_ok (hunit : 0 < unit) (ht : unit ∣ t.1) (hfuel : endOfTime ≤ fuel + t.1)
    (hstop : finiteStop.1 + unit ≤ endOfTime) :
    ∃ points, gather unit finiteStart finiteStop fuel t = .ok points ∧
      points.Pairwise (· < ·) ∧
      ∀ x : Datetime, x ∈ points ↔ unit ∣ x.1 ∧ t ≤ x ∧ finiteStart ≤ x ∧ x < finiteStop := by
  induction fuel generalizing t with
  | zero =>
      have := t.2
      omega
  | succ fuel ih =>
      unfold gather
      by_cases hdone : finiteStop ≤ t
      · rw [if_pos hdone]
        refine ⟨[], rfl, List.Pairwise.nil, fun x => ⟨nofun, fun h => ?_⟩⟩
        exact absurd (lt_of_lt_of_le h.2.2.2 hdone) (not_lt_of_ge h.2.1)
      · rw [if_neg hdone]
        have hlt : t.1 < finiteStop.1 := not_le.mp hdone
        obtain ⟨next, hnext, hvalue⟩ := @exists_datetimeAt (t.1 + unit) (by omega)
        have hvalue' : next.1 = t.1 + unit := by omega
        obtain ⟨points, hpoints, hsorted, hmem⟩ := ih
          (t := next) (hvalue' ▸ Nat.dvd_add ht dvd_rfl) (by omega)
        rw [show t.add unit = .ok next from hnext]
        dsimp only
        rw [hpoints]
        -- a point from `t` on is `t` itself or comes after the next one
        have hcases : ∀ x : Datetime, unit ∣ x.1 → (t ≤ x ↔ x = t ∨ next ≤ x) := by
          intro x hx
          constructor
          · intro hle
            rcases eq_or_lt_of_le hle with heq | hlt
            · exact .inl heq.symm
            · right
              have hless : t.1 < x.1 := hlt
              have hsub : unit ∣ x.1 - t.1 := Nat.dvd_sub hx ht
              have := Nat.le_of_dvd (by omega) hsub
              change next.1 ≤ x.1
              omega
          · rintro (rfl | hle)
            · exact le_rfl
            · exact le_trans (show t.1 ≤ next.1 by omega) hle
        refine ⟨_, rfl, ?_, fun x => ?_⟩
        · split
          · refine List.pairwise_cons.mpr ⟨fun x hx => ?_, hsorted⟩
            have hle : next.1 ≤ x.1 := ((hmem x).mp hx).2.1
            change t.1 < x.1
            omega
          · exact hsorted
        · by_cases hdvd : unit ∣ x.1
          · rw [hcases x hdvd]
            split
            next hstart =>
              rw [List.mem_cons, hmem]
              constructor
              · rintro (rfl | h)
                · exact ⟨hdvd, .inl rfl, hstart, hlt⟩
                · exact ⟨h.1, .inr h.2.1, h.2.2⟩
              · rintro ⟨-, rfl | hle, hrest⟩
                · exact .inl rfl
                · exact .inr ⟨hdvd, hle, hrest⟩
            next hstart =>
              rw [hmem]
              constructor
              · exact fun h => ⟨h.1, .inr h.2.1, h.2.2⟩
              · rintro ⟨-, rfl | hle, hrest⟩
                · exact absurd hrest.1 hstart
                · exact ⟨hdvd, hle, hrest⟩
          · have hout : x ∉ points := fun h => hdvd ((hmem x).mp h).1
            have hne : x ≠ t := by
              rintro rfl
              exact hdvd ht
            split <;> simp [hout, hne, hdvd]

/-- The loop runs beyond the year 9999 to find a point that is not before the stop. -/
theorem gather_overflow (hend : unit ∣ endOfTime) (ht : unit ∣ t.1)
    (hstop : endOfTime < finiteStop.1 + unit) :
    gather unit finiteStart finiteStop fuel t = .error .overflow := by
  induction fuel generalizing t with
  | zero => rfl
  | succ fuel ih =>
      unfold gather
      have hroom : t.1 + unit ≤ endOfTime := by
        have := t.2
        have := Nat.le_of_dvd (by omega) (Nat.dvd_sub hend ht)
        omega
      have hlt : ¬finiteStop ≤ t := not_le.mpr (show t.1 < finiteStop.1 by omega)
      rw [if_neg hlt]
      by_cases hnext : (t.1 + unit : ℤ) < endOfTime
      · obtain ⟨next, hnext, hvalue⟩ := @exists_datetimeAt (t.1 + unit) (by omega)
        have hvalue' : next.1 = t.1 + unit := by omega
        rw [show t.add unit = .ok next from hnext]
        dsimp only
        rw [ih (t := next) (hvalue' ▸ Nat.dvd_add ht dvd_rfl)]
      · rw [show t.add unit = .error .overflow from datetimeAt_eq_error (by omega)]

end Gather

namespace RangeClass

variable {P : Type} {kind : RangeClass P} {unit : ℕ}

/-- The class finds the points of a grid. -/
structure Steps (kind : RangeClass P) (unit : ℕ) : Prop where
  pos : 0 < unit
  dvd : unit ∣ endOfTime
  finite : ∀ finiteStart finiteStop, kind.finiteDatetimes finiteStart finiteStop =
    gather unit finiteStart finiteStop endOfTime (finiteStart.floor unit)

theorem dvd_floor (t : Datetime) (unit : ℕ) : unit ∣ (t.floor unit).1 := Nat.dvd_sub_mod t.1

theorem Steps.ok (hsteps : kind.Steps unit) (finiteStart : Datetime) {finiteStop : Datetime}
    (hstop : finiteStop.1 + unit ≤ endOfTime) :
    ∃ points, kind.finiteDatetimes finiteStart finiteStop = .ok points ∧
      points.Pairwise (· < ·) ∧
      ∀ x : Datetime, x ∈ points ↔ unit ∣ x.1 ∧ finiteStart ≤ x ∧ x < finiteStop := by
  obtain ⟨points, hpoints, hsorted, hmem⟩ := @gather_ok unit endOfTime finiteStart finiteStop
    (finiteStart.floor unit) hsteps.pos (dvd_floor finiteStart unit) (Nat.le_add_right ..) hstop
  refine ⟨points, (hsteps.finite ..).trans hpoints, hsorted, fun x => (hmem x).trans ?_⟩
  constructor
  · exact fun h => ⟨h.1, h.2.2⟩
  · exact fun h => ⟨h.1, le_trans (Nat.sub_le ..) h.2.1, h.2⟩

theorem Steps.stop_of_ok (hsteps : kind.Steps unit) {finiteStart finiteStop : Datetime}
    {points : List Datetime} (hok : kind.finiteDatetimes finiteStart finiteStop = .ok points) :
    finiteStop.1 + unit ≤ endOfTime := by
  by_contra hstop
  rw [hsteps.finite, gather_overflow hsteps.dvd (dvd_floor finiteStart unit)
    (not_le.mp hstop)] at hok
  cases hok

end RangeClass

theorem rangeDailyBase_steps : rangeDailyBase.Steps day := ⟨by decide, by decide, fun _ _ => rfl⟩

theorem rangeHourlyBase_steps : rangeHourlyBase.Steps hour :=
  ⟨by decide, by decide, fun _ _ => rfl⟩

/-- The minute is rounded down within its hour. -/
theorem startOfInterval_eq (t : Datetime) {interval : ℕ} (hlt : interval < 60)
    (hdvd : 60 % interval = 0) (hpos : 0 < interval) :
    startOfInterval t interval = .ok (t.floor (interval * minute)) := by
  apply datetimeAt_eq_ok.mpr
  unfold Datetime.floor
  dsimp only [hour, minute, second]
  interval_cases interval <;> first | (exact absurd hdvd (by decide)) | omega

theorem rangeByMinutesBase_steps {interval : ℤ} (hpos : 0 < interval) (hlt : interval < 60)
    (hdvd : interval ∣ 60) :
    (rangeByMinutesBase interval).Steps (interval.toNat * minute) := by
  obtain ⟨interval, rfl⟩ := Int.eq_ofNat_of_zero_le hpos.le
  have hdvd' : interval ∣ 60 := Int.natCast_dvd_natCast.mp hdvd
  constructor
  · exact Nat.mul_pos (by omega) (by decide)
  · have hend : 60 * minute ∣ endOfTime := by decide
    exact (Nat.mul_dvd_mul_right hdvd' minute).trans hend
  · intro finiteStart finiteStop
    have hstart := startOfInterval_eq finiteStart (show interval < 60 by omega)
      (Nat.mod_eq_zero_of_dvd hdvd') (by omega)
    have hmod : ¬(60 % (interval : ℤ) ≠ 0) := not_not.mpr (Int.emod_eq_zero_of_dvd hdvd)
    simp only [rangeByMinutesBase, Int.toNat_natCast]
    rw [if_neg (not_not.mpr ⟨hpos, hlt⟩), if_neg hmod, hstart]

/-! ## What is required -/

namespace Range

variable {P : Type} [LinearOrder P] {V : Type u} {S : Type} (range : Range P V S)

/-- The step for a datetime, which is passed under the name. -/
def stepAt (name : String) (t : Datetime) : S :=
  range.of.make (range.ofParams.set name (range.embed (range.kind.toParameter t)))

/-- The time from which the moving bounds are reckoned. -/
def nowMicros : ℤ := range.now.elim (range.clock.1 : ℤ) fun seconds => epoch + seconds * second

def movingStart : ℤ := range.nowMicros - range.back * range.kind.extent
def movingStop : ℤ := range.nowMicros + range.forward * range.kind.extent

/-- The interval: `max(start, now-back) <= t < min(stop, now+forward)`. -/
structure Within (t : Datetime) : Prop where
  movingStart : range.movingStart ≤ t.1
  start : ∀ start ∈ range.start, range.kind.toDatetime start ≤ t
  movingStop : (t.1 : ℤ) < range.movingStop
  stop : ∀ stop ∈ range.stop, t < range.kind.toDatetime stop

/-- An incomplete instant of the interval. -/
structure Missing (unit : ℕ) (name : String) (t : Datetime) : Prop where
  onGrid : unit ∣ t.1
  within : range.Within t
  incomplete : range.of.complete (range.stepAt name t) = false

/-- One step per instant, for the first `step_limit` of the incomplete instants of the interval,
or for the last `step_limit`, the newest first. -/
def RequiresExactly (unit : ℕ) (name : String) : Prop :=
  ∃ instants : List Datetime, instants.Pairwise (· < ·) ∧
    (∀ t, t ∈ instants ↔ range.Missing unit name t) ∧
    range.requires = .ok (((if range.reverse then instants.reverse else instants).take
      range.stepLimit.toNat).map (range.stepAt name))

/-- The parameters are those of a range. -/
structure Asked : Prop where
  given : range.start.isSome ∨ range.stop.isSome
  direction : range.start.isSome ∨ range.reverse = true
  ordered : ∀ start ∈ range.start, ∀ stop ∈ range.stop, start ≤ stop
  back : 0 ≤ range.back
  forward : 0 ≤ range.forward
  stepLimit : 0 ≤ range.stepLimit

/-- No datetime that is computed on the way lies outside of the years 1 to 9999. -/
structure Representable (unit : ℕ) : Prop where
  now : 0 ≤ range.nowMicros ∧ range.nowMicros < endOfTime
  start : 0 ≤ range.movingStart
  stop : range.movingStop < endOfTime
  beyond : range.stop.elim range.movingStop (fun stop => (range.kind.toDatetime stop).1) + unit ≤
    endOfTime

variable {range} {unit : ℕ} {name : String}

omit [LinearOrder P] in
theorem utcnow_eq_ok {now : Datetime} :
    range.utcnow = .ok now ↔ (now.1 : ℤ) = range.nowMicros := by
  unfold utcnow nowMicros
  cases range.now with
  | none =>
      rw [Except.ok.injEq, Subtype.ext_iff, Option.elim_none, Int.natCast_inj]
      exact eq_comm
  | some seconds => exact datetimeAt_eq_ok

omit [LinearOrder P] in
theorem instantiate_eq (hname : range.paramNameOf = .ok name) (t : Datetime) :
    range.instantiate t = .ok (range.stepAt name t) := by
  rw [instantiate, hname]
  rfl

omit [LinearOrder P] in
theorem mapM_instantiate (hname : range.paramNameOf = .ok name) (instants : List Datetime) :
    instants.mapM range.instantiate = .ok (instants.map (range.stepAt name)) := by
  induction instants with
  | nil => rfl
  | cons t rest ih =>
      rw [List.mapM_cons, ih, instantiate_eq hname]
      rfl

omit [LinearOrder P] in
theorem missingDatetimes_eq (hname : range.paramNameOf = .ok name) (datetimes : List Datetime) :
    range.missingDatetimes datetimes =
      .ok (datetimes.filter fun t => !range.of.complete (range.stepAt name t)) := by
  induction datetimes with
  | nil => rfl
  | cons t rest ih =>
      rw [missingDatetimes, instantiate_eq hname, ih]
      cases hcomplete : range.of.complete (range.stepAt name t) <;> simp [hcomplete]

omit [LinearOrder P] in
/-- Sorted datetimes stay in their order. -/
theorem findMissing_eq (hname : range.paramNameOf = .ok name) {datetimes : List Datetime}
    (hsorted : datetimes.Pairwise (· < ·)) :
    range.findMissing datetimes =
      .ok (datetimes.filter fun t => !range.of.complete (range.stepAt name t)) := by
  unfold findMissing
  split
  next hempty => rw [List.isEmpty_iff.mp hempty]; rfl
  next =>
    rw [missingDatetimes_eq hname]
    change Except.ok _ = Except.ok _
    rw [List.Pairwise.insertionSort_eq ((hsorted.imp le_of_lt).filter _)]

omit [LinearOrder P] in
/-- The metrics are reported unless they reach beyond the year 9999. -/
theorem emitMetrics_ok (hsteps : range.kind.Steps unit) {missing : List Datetime}
    {finiteStart finiteStop : Datetime}
    (hmissing : ∀ t ∈ missing, unit ∣ t.1 ∧ finiteStart ≤ t ∧ t < finiteStop)
    (hstop : (range.stop.elim finiteStop fun stop =>
      max finiteStop (range.kind.toDatetime stop)).1 + unit ≤ endOfTime) :
    ∃ metrics, range.emitMetrics missing finiteStart finiteStop = .ok metrics := by
  obtain ⟨points, hpoints, -, hmem⟩ := hsteps.ok
    (range.start.elim finiteStart fun start => min finiteStart (range.kind.toDatetime start)) hstop
  unfold emitMetrics
  rw [hpoints]
  cases missing with
  | nil => cases points <;> exact ⟨_, rfl⟩
  | cons first rest =>
      obtain ⟨hgrid, hstart, hlt⟩ := hmissing first (List.mem_cons_self ..)
      have hfirst : first ∈ points := by
        refine (hmem first).mpr ⟨hgrid, ?_, ?_⟩
        · cases range.start with
          | none => exact hstart
          | some start => exact (min_le_left ..).trans hstart
        · cases range.stop with
          | none => exact hlt
          | some stop => exact hlt.trans_le (le_max_left ..)
      cases points with
      | nil => cases hfirst
      | cons point others =>
          have hindex : indexOf (point :: others) first =
              .ok ((point :: others).idxOf first) := if_pos hfirst
          simp only [bind, Except.bind, hindex]
          exact ⟨_, rfl⟩

/-- The bounds that `requires` computes. -/
def finiteStart (movingStart : Datetime) : Datetime :=
  range.start.elim movingStart fun start => max (range.kind.toDatetime start) movingStart

def finiteStop (movingStop : Datetime) : Datetime :=
  range.stop.elim movingStop fun stop => min (range.kind.toDatetime stop) movingStop

omit [LinearOrder P] in
theorem finiteStart_le_iff {movingStart t : Datetime} :
    range.finiteStart movingStart ≤ t ↔
      movingStart ≤ t ∧ ∀ start ∈ range.start, range.kind.toDatetime start ≤ t := by
  unfold finiteStart
  cases range.start with
  | none => simp
  | some start =>
      simp only [Option.elim_some, max_le_iff, Option.mem_some_iff, forall_eq']
      exact and_comm

omit [LinearOrder P] in
theorem lt_finiteStop_iff {movingStop t : Datetime} :
    t < range.finiteStop movingStop ↔
      t < movingStop ∧ ∀ stop ∈ range.stop, t < range.kind.toDatetime stop := by
  unfold finiteStop
  cases range.stop with
  | none => simp
  | some stop =>
      simp only [Option.elim_some, lt_min_iff, Option.mem_some_iff, forall_eq']
      exact and_comm

omit [LinearOrder P] in
/-- The stop of the metrics is the stop of the range, or the moving one. -/
theorem metricsStop_eq (movingStop : Datetime) :
    (range.stop.elim (range.finiteStop movingStop) fun stop =>
        max (range.finiteStop movingStop) (range.kind.toDatetime stop)) =
      range.stop.elim movingStop range.kind.toDatetime := by
  unfold finiteStop
  cases range.stop with
  | none => rfl
  | some stop => exact max_eq_right (min_le_left ..)

theorem requires_of_asked (hasked : range.Asked) : range.requires = range.requiresChecked := by
  unfold requires
  rw [if_neg, if_neg, if_neg]
  · rintro ⟨start, hstart, stop, hstop, hlt⟩
    exact absurd (hasked.ordered start hstart stop hstop) (not_le.mpr hlt)
  · rintro ⟨hnone, hreverse⟩
    rcases hasked.direction with h | h
    · rw [Option.isNone_iff_eq_none.mp hnone] at h
      cases h
    · rw [hreverse] at h
      cases h
  · rintro ⟨hstart, hstop⟩
    rcases hasked.given with h | h
    · rw [Option.isNone_iff_eq_none.mp hstart] at h
      cases h
    · rw [Option.isNone_iff_eq_none.mp hstop] at h
      cases h

omit [LinearOrder P] in
/-- Where no datetime overflows, `requires` slices the incomplete instants. -/
theorem requiresChecked_eq (hsteps : range.kind.Steps unit) (hname : range.paramNameOf = .ok name)
    (hfits : range.Representable unit) (hback : 0 ≤ range.back) (hforward : 0 ≤ range.forward) :
    ∃ missing : List Datetime, missing.Pairwise (· < ·) ∧
      (∀ t, t ∈ missing ↔ range.Missing unit name t) ∧
      range.requiresChecked = .ok ((range.required missing).map (range.stepAt name)) := by
  obtain ⟨now, hnow⟩ : ∃ now : Datetime, (now.1 : ℤ) = range.nowMicros :=
    ⟨⟨range.nowMicros.toNat, by have := hfits.now; omega⟩, by
      have := hfits.now
      dsimp only
      omega⟩
  have hlower : range.movingStart ≤ range.nowMicros :=
    Int.sub_le_self _ (Int.mul_nonneg hback (Int.natCast_nonneg _))
  have hupper : range.nowMicros ≤ range.movingStop :=
    Int.le_add_of_nonneg_right (Int.mul_nonneg hforward (Int.natCast_nonneg _))
  obtain ⟨first, hfirst, hfirst'⟩ := exists_datetimeAt
    (⟨hfits.start, hlower.trans_lt hfits.now.2⟩ : 0 ≤ range.movingStart ∧ _)
  obtain ⟨last, hlast, hlast'⟩ := exists_datetimeAt
    (⟨hfits.now.1.trans hupper, hfits.stop⟩ : 0 ≤ range.movingStop ∧ _)
  have hbeyond : (range.stop.elim last range.kind.toDatetime).1 + unit ≤ endOfTime := by
    have := hfits.beyond
    cases hstop : range.stop <;> rw [hstop] at this <;>
      simp only [Option.elim_none, Option.elim_some] at this ⊢ <;> omega
  have hstop : (range.finiteStop last).1 + unit ≤ endOfTime := by
    refine le_trans (Nat.add_le_add_right ?_ unit) hbeyond
    unfold finiteStop
    cases range.stop with
    | none => exact le_rfl
    | some stop => exact min_le_left (range.kind.toDatetime stop) last
  obtain ⟨points, hpoints, hsorted, hmem⟩ : ∃ points,
      range.datetimes (range.finiteStart first) (range.finiteStop last) = .ok points ∧
      points.Pairwise (· < ·) ∧
      ∀ x : Datetime, x ∈ points ↔
        unit ∣ x.1 ∧ range.finiteStart first ≤ x ∧ x < range.finiteStop last := by
    unfold datetimes
    by_cases hle : range.finiteStart first ≤ range.finiteStop last
    · rw [if_pos hle]
      exact hsteps.ok (range.finiteStart first) hstop
    · rw [if_neg hle]
      refine ⟨[], rfl, List.Pairwise.nil, fun x => ⟨nofun, fun h => ?_⟩⟩
      exact absurd (h.2.1.trans h.2.2.le) hle
  set missing := points.filter fun t => !range.of.complete (range.stepAt name t) with hmissing
  have hmem' : ∀ t, t ∈ missing ↔ range.Missing unit name t := by
    intro t
    rw [hmissing, List.mem_filter, hmem, finiteStart_le_iff, lt_finiteStop_iff]
    have hfirst_le : first ≤ t ↔ range.movingStart ≤ t.1 := by
      change first.1 ≤ t.1 ↔ _
      omega
    have hlt_last : t < last ↔ (t.1 : ℤ) < range.movingStop := by
      change t.1 < last.1 ↔ _
      omega
    rw [hfirst_le, hlt_last]
    constructor
    · rintro ⟨⟨hgrid, ⟨hstart, hstarts⟩, hstop, hstops⟩, hcomplete⟩
      exact ⟨hgrid, ⟨hstart, hstarts, hstop, hstops⟩, by simpa using hcomplete⟩
    · rintro ⟨hgrid, ⟨hstart, hstarts, hstop, hstops⟩, hcomplete⟩
      exact ⟨⟨hgrid, ⟨hstart, hstarts⟩, hstop, hstops⟩, by simpa using hcomplete⟩
  obtain ⟨metrics, hmetrics⟩ := @emitMetrics_ok P V S range unit hsteps missing
    (range.finiteStart first) (range.finiteStop last)
    (fun t ht => (hmem t).mp (List.mem_of_mem_filter ht))
    (by rw [metricsStop_eq]; exact hbeyond)
  refine ⟨missing, hsorted.filter _, hmem', ?_⟩
  have hadd : ∀ delta, now.add delta = datetimeAt (range.nowMicros + delta) := fun delta => by
    rw [Datetime.add, hnow]
  unfold requiresChecked
  simp only [except_bind_eq_ok]
  refine ⟨now, utcnow_eq_ok.mpr hnow, first, ?_, last, ?_, points, hpoints, missing,
    findMissing_eq hname hsorted, metrics, hmetrics, mapM_instantiate hname _⟩
  · rw [hadd, ← Int.sub_eq_add_neg]
    exact hfirst
  · rw [hadd]
    exact hlast

omit [LinearOrder P] in
/-- Where `requires` returns, no datetime overflowed. -/
theorem representable_of_ok (hsteps : range.kind.Steps unit) {steps : List S}
    (hok : range.requiresChecked = .ok steps) : range.Representable unit := by
  unfold requiresChecked at hok
  simp only [except_bind_eq_ok] at hok
  obtain ⟨now, hnow, first, hfirst, last, hlast, points, -, missing, -, metrics, hmetrics, -⟩ := hok
  rw [utcnow_eq_ok] at hnow
  have hadd : ∀ delta, now.add delta = datetimeAt (range.nowMicros + delta) := fun delta => by
    rw [Datetime.add, hnow]
  rw [hadd, ← Int.sub_eq_add_neg] at hfirst
  rw [hadd] at hlast
  have hlast' : (last.1 : ℤ) = range.movingStop := datetimeAt_eq_ok.mp hlast
  have := now.2
  refine ⟨by omega, (range_of_datetimeAt hfirst).1, (range_of_datetimeAt hlast).2, ?_⟩
  unfold emitMetrics at hmetrics
  obtain ⟨datetimes, hdatetimes, -⟩ := except_bind_eq_ok.mp hmetrics
  have hstop := hsteps.stop_of_ok hdatetimes
  have heq := @metricsStop_eq P V S range last
  unfold finiteStop at heq
  rw [heq] at hstop
  cases hcase : range.stop <;> rw [hcase] at hstop <;>
    simp only [Option.elim_none, Option.elim_some] at hstop ⊢ <;> omega

/-- In reverse, a limit of zero is none, where there is something to require. -/
def LimitLifted (range : Range P V S) (unit : ℕ) (name : String) : Prop :=
  range.reverse = true ∧ range.stepLimit = 0 ∧ ∃ t, range.Missing unit name t

/-- Exactly the right instants are required if no datetime overflows on the way, except that in
reverse a limit of zero lifts the limit. -/
theorem requires_exactly_iff (hsteps : range.kind.Steps unit)
    (hname : range.paramNameOf = .ok name) (hasked : range.Asked) :
    range.RequiresExactly unit name ↔
      range.Representable unit ∧ ¬range.LimitLifted unit name := by
  unfold RequiresExactly
  rw [requires_of_asked hasked]
  constructor
  · rintro ⟨instants, hsorted, hmem, hok⟩
    have hfits := representable_of_ok hsteps hok
    refine ⟨hfits, ?_⟩
    rintro ⟨hreverse, hlimit, t, ht⟩
    obtain ⟨missing, -, hmissing, hok'⟩ :=
      requiresChecked_eq hsteps hname hfits hasked.back hasked.forward
    rw [hok', Except.ok.injEq, required, if_pos hreverse, hlimit, sliceFrom_neg_zero,
      Int.toNat_zero, List.take_zero, List.map_nil, List.map_eq_nil_iff,
      List.reverse_eq_nil_iff] at hok
    have := (hmissing t).mpr ht
    rw [hok] at this
    cases this
  · rintro ⟨hfits, hlimit⟩
    obtain ⟨missing, hsorted, hmissing, hok⟩ :=
      requiresChecked_eq hsteps hname hfits hasked.back hasked.forward
    refine ⟨missing, hsorted, hmissing, hok.trans ?_⟩
    congr 2
    unfold required
    split
    next hreverse =>
      rcases hasked.stepLimit.lt_or_eq with hpos | hzero
      · exact reverse_sliceFrom_neg missing hpos
      · have hnil : missing = [] := by
          rw [List.eq_nil_iff_forall_not_mem]
          exact fun t ht => hlimit ⟨hreverse, hzero.symm, t, (hmissing t).mp ht⟩
        rw [hnil]
        simp [sliceFrom]
    next => exact sliceTo_of_nonneg missing hasked.stepLimit

/-- The three classes require exactly the right instants of their grids, under the condition of
`requires_exactly_iff`. -/
theorem base_classes_require_exactly {V : Type u} {S : Type} :
    (∀ (range : Range Date V S) (name : String), range.kind = rangeDailyBase →
        range.paramNameOf = .ok name → range.Asked →
        (range.RequiresExactly day name ↔
          range.Representable day ∧ ¬range.LimitLifted day name)) ∧
      (∀ (range : Range Datetime V S) (name : String), range.kind = rangeHourlyBase →
        range.paramNameOf = .ok name → range.Asked →
        (range.RequiresExactly hour name ↔
          range.Representable hour ∧ ¬range.LimitLifted hour name)) ∧
      ∀ (interval : ℤ), 0 < interval → interval < 60 → interval ∣ 60 →
        ∀ (range : Range Datetime V S) (name : String),
          range.kind = rangeByMinutesBase interval →
          range.paramNameOf = .ok name → range.Asked →
          (range.RequiresExactly (interval.toNat * minute) name ↔
            range.Representable (interval.toNat * minute) ∧
              ¬range.LimitLifted (interval.toNat * minute) name) := by
  refine ⟨?_, ?_, ?_⟩
  · intro range name hkind hname hasked
    exact requires_exactly_iff (hkind ▸ rangeDailyBase_steps) hname hasked
  · intro range name hkind hname hasked
    exact requires_exactly_iff (hkind ▸ rangeHourlyBase_steps) hname hasked
  · intro interval hpos hlt hdvd range name hkind hname hasked
    exact requires_exactly_iff (hkind ▸ rangeByMinutesBase_steps hpos hlt hdvd) hname hasked

/-- The two days before the eleventh day of 1970, of which none is complete. -/
def lastDays (stepLimit : ℤ) : Range Date Date (Dict String Date) where
  kind := rangeDailyBase
  of := ⟨[("date", true)], id, fun _ => false⟩
  embed := id
  stop := some ⟨719172, by decide⟩
  reverse := true
  stepLimit := stepLimit
  now := some 864000
  back := 2
  clock := ⟨epoch, by decide⟩

theorem lastDays_asked {stepLimit : ℤ} (hlimit : 0 ≤ stepLimit) : (lastDays stepLimit).Asked where
  given := .inr rfl
  direction := .inr rfl
  ordered := nofun
  back := show (0 : ℤ) ≤ 2 by decide
  forward := show (0 : ℤ) ≤ 0 by decide
  stepLimit := hlimit

/-- Limited to two steps, both days are required. -/
theorem lastDays_require_exactly : (lastDays 2).RequiresExactly day "date" := by
  refine (base_classes_require_exactly.1 (lastDays 2) "date" rfl rfl
    (lastDays_asked (by decide))).mpr ⟨⟨?_, ?_, ?_, ?_⟩, ?_⟩
  · decide
  · decide
  · decide
  · decide
  · rintro ⟨-, h, -⟩
    revert h
    decide

/-- Limited to no step, both days are required as well. -/
theorem reverse_limit_zero : (lastDays 0).Asked ∧ ¬(lastDays 0).RequiresExactly day "date" := by
  have hasked := lastDays_asked (le_refl 0)
  refine ⟨hasked, fun hexactly => ?_⟩
  have hname : (lastDays 0).paramNameOf = .ok "date" := rfl
  apply ((requires_exactly_iff rangeDailyBase_steps hname hasked).mp hexactly).2
  refine ⟨rfl, rfl, ⟨719170 * day, by decide⟩, ?_, ⟨?_, nofun, ?_, ?_⟩, rfl⟩
  · exact Dvd.intro_left _ rfl
  · decide
  · decide
  · rintro stop hstop
    obtain rfl := Option.mem_some_iff.mp hstop
    decide

end Range

end Trun.Tools
