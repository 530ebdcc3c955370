import Mathlib.Algebra.Order.Ring.Rat
import Trun.Finance.Blotter

/-!
# Triggers of orders

`Order::check_triggers` sees one price after the other and keeps no history.  A stop-limit order
turns into a limit order on the way, and yet the order is triggered exactly when the whole
history of the prices calls for it.
-/

namespace Trun.Finance

universe u

variable {Asset : Type u}

/-- An order with what it remembers of the prices. -/
structure WatchedOrder (Asset : Type u) extends Order Asset where
  stopReached : Bool := false
  limitReached : Bool := false

inductive Side where
  | buy
  | sell
  deriving DecidableEq

structure OrderType where
  side : Side
  stop : Bool
  limit : Bool
  deriving DecidableEq

namespace Order

/-- Everything that is not bought is sold. -/
def side (order : Order Asset) : Side := if 0 < order.amount then .buy else .sell

def orderType (order : Order Asset) : OrderType :=
  { side := order.side, stop := order.stop ≠ 0, limit := order.limit ≠ 0 }

/-- The price is beyond the stop. -/
def meetsStop (order : Order Asset) (price : ℚ) : Prop :=
  match order.side with
  | .buy => order.stop ≤ price
  | .sell => price ≤ order.stop

/-- The price is within the limit. -/
def meetsLimit (order : Order Asset) (price : ℚ) : Prop :=
  match order.side with
  | .buy => price ≤ order.limit
  | .sell => order.limit ≤ price

instance (order : Order Asset) (price : ℚ) : Decidable (order.meetsStop price) := by
  unfold meetsStop
  split <;> infer_instance

instance (order : Order Asset) (price : ℚ) : Decidable (order.meetsLimit price) := by
  unfold meetsLimit
  split <;> infer_instance

def placed (order : Order Asset) : WatchedOrder Asset := { order with }

/-- Some price meets the stop, and that or a later one the limit. -/
def MeetsBoth (order : Order Asset) (prices : List ℚ) : Prop :=
  ∃ (i j : ℕ) (p q : ℚ), i ≤ j ∧ prices[i]? = some p ∧ prices[j]? = some q ∧
    order.meetsStop p ∧ order.meetsLimit q

/-- What the prices so far must have been for the order to be triggered. -/
def Calls (order : Order Asset) (prices : List ℚ) : Prop :=
  match order.orderType with
  | ⟨_, true, true⟩ => order.MeetsBoth prices
  | ⟨_, true, false⟩ => ∃ p ∈ prices, order.meetsStop p
  | ⟨_, false, true⟩ => ∃ p ∈ prices, order.meetsLimit p
  | ⟨_, false, false⟩ => True

end Order

namespace WatchedOrder

def isTriggered (order : WatchedOrder Asset) : Bool :=
  if order.stop ≠ 0 ∧ order.stopReached = false then false
  else if order.limit ≠ 0 ∧ order.limitReached = false then false
  else true

/-- `stop_reached`, `limit_reached` and `sl_stop_reached`.  The source asks for a field
`triggered`, which only `isTriggered` can stand for. -/
def checkOrderTriggers (order : WatchedOrder Asset) (currentPrice : ℚ) : Bool × Bool × Bool :=
  if order.isTriggered then (order.stopReached, order.limitReached, false)
  else
    match order.orderType with
    | ⟨.buy, true, true⟩ =>
        if order.stop ≤ currentPrice then (false, currentPrice ≤ order.limit, true)
        else (false, false, false)
    | ⟨.sell, true, true⟩ =>
        if currentPrice ≤ order.stop then (false, order.limit ≤ currentPrice, true)
        else (false, false, false)
    | ⟨.buy, true, false⟩ => (order.stop ≤ currentPrice, false, false)
    | ⟨.sell, true, false⟩ => (currentPrice ≤ order.stop, false, false)
    | ⟨.buy, false, true⟩ => (false, currentPrice ≤ order.limit, false)
    | ⟨.sell, false, true⟩ => (false, order.limit ≤ currentPrice, false)
    | ⟨_, false, false⟩ => (false, false, false)

def checkTriggers (order : WatchedOrder Asset) (price : ℚ) (dt : String) : WatchedOrder Asset :=
  let (stopReached, limitReached, slStopReached) := order.checkOrderTriggers price
  { order with
    dt := if stopReached ≠ order.stopReached ∨ limitReached ≠ order.limitReached then dt
      else order.dt
    stopReached := stopReached
    limitReached := limitReached
    stop := if slStopReached then 0 else order.stop }

/-- One price after the other, each with its time. -/
def watch (order : WatchedOrder Asset) (ticks : List (ℚ × String)) : WatchedOrder Asset :=
  ticks.foldl (fun order tick => order.checkTriggers tick.1 tick.2) order

@[simp] theorem watch_nil (order : WatchedOrder Asset) : order.watch [] = order := rfl

@[simp] theorem watch_cons (order : WatchedOrder Asset) (tick : ℚ × String)
    (ticks : List (ℚ × String)) :
    order.watch (tick :: ticks) = (order.checkTriggers tick.1 tick.2).watch ticks := rfl

theorem watch_append (order : WatchedOrder Asset) (ticks more : List (ℚ × String)) :
    order.watch (ticks ++ more) = (order.watch ticks).watch more := List.foldl_append ..

/-! ## One price -/

section Step

variable {order : WatchedOrder Asset} {price : ℚ} {dt : String}

/-- A triggered order stays as it is. -/
theorem checkTriggers_of_triggered (htriggered : order.isTriggered = true) (price : ℚ)
    (dt : String) : order.checkTriggers price dt = order := by
  unfold checkTriggers checkOrderTriggers
  simp [htriggered]

theorem watch_of_triggered (htriggered : order.isTriggered = true) (ticks : List (ℚ × String)) :
    order.watch ticks = order := by
  induction ticks with
  | nil => rfl
  | cons tick ticks ih => rw [watch_cons, checkTriggers_of_triggered htriggered, ih]

/-- An order without a stop and a limit is always triggered. -/
theorem isTriggered_of_plain (hstop : order.stop = 0) (hlimit : order.limit = 0) :
    order.isTriggered = true := by
  simp [isTriggered, hstop, hlimit]

end Step

end WatchedOrder

namespace Order

variable {order : Order Asset} {price : ℚ} {prices : List ℚ}

theorem meetsStop_buy (hside : order.side = .buy) (price : ℚ) :
    order.meetsStop price ↔ order.stop ≤ price := by
  rw [meetsStop, hside]

theorem meetsStop_sell (hside : order.side = .sell) (price : ℚ) :
    order.meetsStop price ↔ price ≤ order.stop := by
  rw [meetsStop, hside]

theorem meetsLimit_buy (hside : order.side = .buy) (price : ℚ) :
    order.meetsLimit price ↔ price ≤ order.limit := by
  rw [meetsLimit, hside]

theorem meetsLimit_sell (hside : order.side = .sell) (price : ℚ) :
    order.meetsLimit price ↔ order.limit ≤ price := by
  rw [meetsLimit, hside]

theorem calls_of_stopLimit (hstop : order.stop ≠ 0) (hlimit : order.limit ≠ 0) :
    order.Calls prices ↔ order.MeetsBoth prices := by
  simp [Calls, orderType, hstop, hlimit]

theorem calls_of_stop (hstop : order.stop ≠ 0) (hlimit : order.limit = 0) :
    order.Calls prices ↔ ∃ p ∈ prices, order.meetsStop p := by
  simp [Calls, orderType, hstop, hlimit]

theorem calls_of_limit (hstop : order.stop = 0) (hlimit : order.limit ≠ 0) :
    order.Calls prices ↔ ∃ p ∈ prices, order.meetsLimit p := by
  simp [Calls, orderType, hstop, hlimit]

@[simp] theorem not_meetsBoth_nil (order : Order Asset) : ¬order.MeetsBoth [] := by
  rintro ⟨i, j, p, q, -, hp, -⟩
  simp at hp

/-- Either the first price meets the stop, or the later ones are on their own. -/
theorem meetsBoth_cons : order.MeetsBoth (price :: prices) ↔
    (order.meetsStop price ∧ ∃ q ∈ price :: prices, order.meetsLimit q) ∨
      order.MeetsBoth prices := by
  constructor
  · rintro ⟨i, j, p, q, hle, hp, hq, hstop, hlimit⟩
    cases i with
    | zero =>
        obtain rfl : price = p := Option.some.inj hp
        exact .inl ⟨hstop, q, List.mem_of_getElem? hq, hlimit⟩
    | succ i =>
        cases j with
        | zero => exact absurd hle (by omega)
        | succ j => exact .inr ⟨i, j, p, q, by omega, hp, hq, hstop, hlimit⟩
  · rintro (⟨hstop, q, hmem, hlimit⟩ | ⟨i, j, p, q, hle, hp, hq, hstop, hlimit⟩)
    · obtain ⟨j, hq⟩ := List.mem_iff_getElem?.mp hmem
      exact ⟨0, j, price, q, j.zero_le, rfl, hq, hstop, hlimit⟩
    · exact ⟨i + 1, j + 1, p, q, by omega, hp, hq, hstop, hlimit⟩

end Order

namespace WatchedOrder

variable {order : WatchedOrder Asset} {price : ℚ} {dt : String} {prices : List ℚ}

/-- What the next price makes of an order that waits, whatever its side. -/
theorem checkOrderTriggers_of_waiting (hwaits : order.isTriggered = false) (price : ℚ) :
    order.checkOrderTriggers price =
      if order.stop ≠ 0 then
        if order.limit ≠ 0 then
          (false, decide (order.meetsStop price ∧ order.meetsLimit price),
            decide (order.meetsStop price))
        else (decide (order.meetsStop price), false, false)
      else (false, decide (order.limit ≠ 0 ∧ order.meetsLimit price), false) := by
  unfold checkOrderTriggers
  rw [hwaits, if_neg Bool.false_ne_true]
  cases hside : order.side with
  | buy =>
      have htype : order.orderType = ⟨.buy, order.stop ≠ 0, order.limit ≠ 0⟩ := by
        rw [Order.orderType, hside]
      rw [htype]
      simp only [Order.meetsStop_buy hside, Order.meetsLimit_buy hside]
      by_cases hstop : order.stop = 0 <;> by_cases hlimit : order.limit = 0 <;>
        by_cases hprice : order.stop ≤ price <;> simp [hstop, hlimit, hprice]
  | sell =>
      have htype : order.orderType = ⟨.sell, order.stop ≠ 0, order.limit ≠ 0⟩ := by
        rw [Order.orderType, hside]
      rw [htype]
      simp only [Order.meetsStop_sell hside, Order.meetsLimit_sell hside]
      by_cases hstop : order.stop = 0 <;> by_cases hlimit : order.limit = 0 <;>
        by_cases hprice : price ≤ order.stop <;> simp [hstop, hlimit, hprice]

section Fields

variable (order price dt)

@[simp] theorem stop_checkTriggers : (order.checkTriggers price dt).stop =
    if (order.checkOrderTriggers price).2.2 then 0 else order.stop := rfl

@[simp] theorem limit_checkTriggers : (order.checkTriggers price dt).limit = order.limit := rfl

@[simp] theorem side_checkTriggers : (order.checkTriggers price dt).side = order.side := rfl

@[simp] theorem stopReached_checkTriggers : (order.checkTriggers price dt).stopReached =
    (order.checkOrderTriggers price).1 := rfl

@[simp] theorem limitReached_checkTriggers : (order.checkTriggers price dt).limitReached =
    (order.checkOrderTriggers price).2.1 := rfl

end Fields

@[simp] theorem meetsLimit_checkTriggers (q : ℚ) :
    (order.checkTriggers price dt).meetsLimit q ↔ order.meetsLimit q := Iff.rfl

/-- As long as the stop stays, it is met by the same prices. -/
theorem meetsStop_checkTriggers (hkeeps : (order.checkOrderTriggers price).2.2 = false) (q : ℚ) :
    (order.checkTriggers price dt).meetsStop q ↔ order.meetsStop q := by
  unfold Order.meetsStop
  rw [side_checkTriggers, stop_checkTriggers, hkeeps, if_neg Bool.false_ne_true]

/-- A stop-limit order whose stop is met waits as a limit order, and otherwise as before. -/
theorem calls_cons_stopLimit (hwaits : order.isTriggered = false) (hstop : order.stop ≠ 0)
    (hlimit : order.limit ≠ 0) :
    order.Calls (price :: prices) ↔ (order.checkTriggers price dt).isTriggered = true ∨
      (order.checkTriggers price dt).Calls prices := by
  have hcheck := checkOrderTriggers_of_waiting hwaits price
  rw [if_pos hstop, if_pos hlimit] at hcheck
  rw [Order.calls_of_stopLimit hstop hlimit, Order.meetsBoth_cons]
  by_cases hmeets : order.meetsStop price
  · have hnext : (order.checkTriggers price dt).isTriggered = true ↔ order.meetsLimit price := by
      simp [isTriggered, hcheck, hmeets, hlimit]
    have hlater : (order.checkTriggers price dt).Calls prices ↔
        ∃ q ∈ prices, order.meetsLimit q :=
      Order.calls_of_limit (by simp [hcheck, hmeets]) hlimit
    have hboth : order.MeetsBoth prices → ∃ q ∈ prices, order.meetsLimit q := by
      rintro ⟨i, j, p, q, -, -, hq, -, hmeetsLimit⟩
      exact ⟨q, List.mem_of_getElem? hq, hmeetsLimit⟩
    rw [hnext, hlater, List.exists_mem_cons_iff, and_iff_right hmeets]
    exact or_iff_left_of_imp fun h => .inr (hboth h)
  · have hkeeps : (order.checkOrderTriggers price).2.2 = false := by simp [hcheck, hmeets]
    have hstays : (order.checkTriggers price dt).stop ≠ 0 := by simpa [hkeeps] using hstop
    have hnext : (order.checkTriggers price dt).isTriggered = false := by
      rw [isTriggered, if_pos ⟨hstays, by simp [hcheck]⟩]
    have hlater : (order.checkTriggers price dt).Calls prices ↔ order.MeetsBoth prices := by
      rw [Order.calls_of_stopLimit hstays hlimit]
      simp only [Order.MeetsBoth, meetsStop_checkTriggers hkeeps, meetsLimit_checkTriggers]
    rw [hnext, hlater]
    simp [hmeets]

/-- The price calls for an order that waits, or it is up to the later prices. -/
theorem calls_cons (hwaits : order.isTriggered = false) :
    order.Calls (price :: prices) ↔ (order.checkTriggers price dt).isTriggered = true ∨
      (order.checkTriggers price dt).Calls prices := by
  have hcheck := checkOrderTriggers_of_waiting hwaits price
  by_cases hstop : order.stop = 0
  · have hlimit : order.limit ≠ 0 := fun hlimit => by
      rw [isTriggered_of_plain hstop hlimit] at hwaits
      cases hwaits
    have hlater : (order.checkTriggers price dt).Calls prices ↔
        ∃ q ∈ prices, order.meetsLimit q :=
      Order.calls_of_limit (by simp [hstop]) hlimit
    rw [Order.calls_of_limit hstop hlimit, hlater]
    simp [isTriggered, hcheck, hstop, hlimit]
  · by_cases hlimit : order.limit = 0
    · have hkeeps : (order.checkOrderTriggers price).2.2 = false := by
        simp [hcheck, hstop, hlimit]
      have hstays : (order.checkTriggers price dt).stop ≠ 0 := by simpa [hkeeps] using hstop
      have hlater : (order.checkTriggers price dt).Calls prices ↔
          ∃ p ∈ prices, order.meetsStop p := by
        rw [Order.calls_of_stop hstays hlimit]
        simp only [meetsStop_checkTriggers hkeeps]
      rw [Order.calls_of_stop hstop hlimit, hlater]
      simp [isTriggered, hcheck, hstop, hlimit]
    · exact calls_cons_stopLimit hwaits hstop hlimit

/-- Without any price a waiting order is not called for. -/
theorem not_calls_nil (hwaits : order.isTriggered = false) : ¬order.Calls [] := by
  by_cases hstop : order.stop = 0
  · have hlimit : order.limit ≠ 0 := fun hlimit => by
      rw [isTriggered_of_plain hstop hlimit] at hwaits
      cases hwaits
    simp [Order.calls_of_limit hstop hlimit]
  · by_cases hlimit : order.limit = 0
    · simp [Order.calls_of_stop hstop hlimit]
    · simp [Order.calls_of_stopLimit hstop hlimit]

/-- A waiting order is triggered after the prices that call for it. -/
theorem isTriggered_watch_of_waiting (hwaits : order.isTriggered = false)
    (ticks : List (ℚ × String)) :
    (order.watch ticks).isTriggered = true ↔ order.Calls (ticks.map Prod.fst) := by
  induction ticks generalizing order with
  | nil => simp [hwaits, not_calls_nil hwaits]
  | cons tick ticks ih =>
      rw [watch_cons, List.map_cons, calls_cons hwaits]
      cases hnext : (order.checkTriggers tick.1 tick.2).isTriggered with
      | true => simp [watch_of_triggered hnext, hnext]
      | false =>
          rw [ih hnext]
          simp

end WatchedOrder

/-- An order is triggered after exactly the prices that call for it, and then stays so. -/
theorem Order.isTriggered_watch (order : Order Asset) (ticks : List (ℚ × String)) :
    ((order.placed.watch ticks).isTriggered = true ↔ order.Calls (ticks.map Prod.fst)) ∧
      ∀ more, (order.placed.watch ticks).isTriggered = true →
        (order.placed.watch (ticks ++ more)).isTriggered = true := by
  constructor
  · cases hplaced : order.placed.isTriggered with
    | false => exact WatchedOrder.isTriggered_watch_of_waiting hplaced ticks
    | true =>
        rw [WatchedOrder.watch_of_triggered hplaced, hplaced]
        have hplain : order.stop = 0 ∧ order.limit = 0 := by
          by_cases hstop : order.stop = 0 <;> by_cases hlimit : order.limit = 0 <;>
            simp_all [WatchedOrder.isTriggered, placed]
        simp [Calls, orderType, hplain]
  · intro more htriggered
    rw [WatchedOrder.watch_append, WatchedOrder.watch_of_triggered htriggered]
    exact htriggered

end Trun.Finance
