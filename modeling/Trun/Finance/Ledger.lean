import Mathlib.Algebra.BigOperators.Group.List.Basic
import Mathlib.Tactic.Abel
import Mathlib.Tactic.Linarith
import Mathlib.Tactic.Ring
import Trun.Program.Runs
import Trun.Python.Dict

/-!
# The ledger

Positions, the cash of the portfolio and the marking to market of futures, with
prices, multipliers and cash as exact rationals.  A position is kept under its
asset, so the check in `Position::update` that both agree has nothing to do.
Protocol positions, statistics beside the two that `update_portfolio` reads, and
the record of processed transactions are left out.
-/

namespace Trun.Finance

universe u

structure Transaction (Asset : Type u) where
  asset : Asset
  amount : ℤ
  price : ℚ
  /-- Seconds, as `time_t`. -/
  dt : ℕ

structure Position where
  amount : ℤ := 0
  costBasis : ℚ := 0
  lastSalePrice : ℚ := 0
  /-- `0` where nothing was sold yet. -/
  lastSaleDate : ℕ := 0
  deriving DecidableEq

namespace Position

/-- `std::copysign(1, amount)`. -/
def direction (amount : ℤ) : ℤ := if amount < 0 then -1 else 1

variable {Asset : Type u}

/-- The cost basis after a transaction that leaves a position. -/
def newCostBasis (position : Position) (txn : Transaction Asset) : ℚ :=
  if direction position.amount ≠ direction txn.amount then
    if txn.amount.natAbs > position.amount.natAbs then txn.price else position.costBasis
  else (position.costBasis * position.amount + txn.amount * txn.price) /
    (position.amount + txn.amount : ℤ)

def update (position : Position) (txn : Transaction Asset) : Position :=
  let totalShares := position.amount + txn.amount
  if totalShares = 0 then { position with amount := totalShares, costBasis := 0 }
  else
    let priced :=
      if position.lastSaleDate = 0 ∨ position.lastSaleDate < txn.dt then
        { position with lastSalePrice := txn.price, lastSaleDate := txn.dt }
      else position
    { priced with amount := totalShares, costBasis := position.newCostBasis txn }

@[simp] theorem update_amount (position : Position) (txn : Transaction Asset) :
    (position.update txn).amount = position.amount + txn.amount := by
  unfold update
  dsimp only
  split <;> rfl

end Position

/-- What the ledger knows about the assets, and the code of the statistics, which is not part of
the repository. -/
structure Market (Asset : Type u) where
  /-- `dynamic_cast<Future*>` succeeds. -/
  isFuture : Asset → Bool
  priceMultiplier : Asset → ℚ
  /-- `net_value` and `net_exposure` of `calculate_position_tracker_stats`. -/
  stats : Dict Asset Position → ℚ × ℚ

structure Portfolio where
  cashFlow : ℚ := 0
  cash : ℚ
  portfolioValue : ℚ
  positionsValue : ℚ := 0
  positionsExposure : ℚ := 0
  pnl : ℚ := 0
  returns : ℚ := 0
  deriving DecidableEq

structure Ledger (Asset : Type u) where
  dirtyPortfolio : Bool := false
  portfolio : Portfolio
  /-- The positions of the tracker. -/
  positions : Dict Asset Position := ∅
  payoutLastSalePrices : Dict Asset ℚ := ∅

def calculatePayout (multiplier : ℚ) (amount : ℤ) (oldPrice price : ℚ) : ℚ :=
  (price - oldPrice) * multiplier * amount

namespace Ledger

variable {Asset : Type u} [DecidableEq Asset]

/-- The ledger of the constructor. -/
def start (capitalBase : ℚ) : Ledger Asset where
  portfolio := { cash := capitalBase, portfolioValue := capitalBase }

/-- `positions[asset]`, which makes an empty position where there is none. -/
def positionOf (positions : Dict Asset Position) (asset : Asset) : Position :=
  positions.getD asset {}

/-- `Ledger::cash_flow`. -/
def flow (ledger : Ledger Asset) (amount : ℚ) : Ledger Asset :=
  { ledger with
    dirtyPortfolio := true
    portfolio := { ledger.portfolio with
      cashFlow := ledger.portfolio.cashFlow + amount
      cash := ledger.portfolio.cash + amount } }

/-- `PositionTracker::execute_transaction`: a position without shares is dropped. -/
def executeTransaction (positions : Dict Asset Position) (txn : Transaction Asset) :
    Dict Asset Position :=
  let position := (positionOf positions txn.asset).update txn
  if position.amount = 0 then positions.erase txn.asset else positions.set txn.asset position

/-- The cash flow of a transaction, and the last payout prices that it leaves. -/
def settle (market : Market Asset) (ledger : Ledger Asset) (txn : Transaction Asset) :
    Ledger Asset :=
  if market.isFuture txn.asset then
    match ledger.payoutLastSalePrices.get? txn.asset with
    | none =>
        { ledger with
          payoutLastSalePrices := ledger.payoutLastSalePrices.set txn.asset txn.price }
    | some oldPrice =>
        let amount := (positionOf ledger.positions txn.asset).amount
        let paid := ledger.flow
          (calculatePayout (market.priceMultiplier txn.asset) amount oldPrice txn.price)
        if amount + txn.amount = 0 then
          { paid with payoutLastSalePrices := paid.payoutLastSalePrices.erase txn.asset }
        else
          { paid with
            payoutLastSalePrices := paid.payoutLastSalePrices.set txn.asset txn.price }
  else ledger.flow (-(txn.price * txn.amount))

def processTransaction (market : Market Asset) (ledger : Ledger Asset)
    (txn : Transaction Asset) : Ledger Asset :=
  let settled := settle market ledger txn
  { settled with positions := executeTransaction settled.positions txn }

/-- One turn of the loop in `getPayoutTotal`.  `old_price` is a reference to the entry, so it is
read after the entry has been overwritten. -/
def payOut (market : Market Asset) (positions : Dict Asset Position)
    (current : Dict Asset ℚ × ℚ) (asset : Asset) : Dict Asset ℚ × ℚ :=
  let position := positionOf positions asset
  let price := position.lastSalePrice
  let payouts := current.1.set asset price
  let oldPrice := payouts.getD asset 0
  (payouts, current.2 +
    calculatePayout (market.priceMultiplier asset) position.amount oldPrice price)

/-- `Ledger::getPayoutTotal`: the payout prices move to the last sale prices. -/
def getPayoutTotal (market : Market Asset) (positions : Dict Asset Position)
    (payouts : Dict Asset ℚ) : Dict Asset ℚ × ℚ :=
  payouts.keys.foldl (payOut market positions) (payouts, 0)

/-- The end of `update_portfolio`. -/
def revalue (portfolio : Portfolio) (stats : ℚ × ℚ) : Portfolio :=
  let endValue := portfolio.cash + stats.1
  let pnl := endValue - portfolio.portfolioValue
  let returns := if portfolio.portfolioValue ≠ 0 then pnl / portfolio.portfolioValue else 0
  { portfolio with
    portfolioValue := endValue
    positionsValue := stats.1
    positionsExposure := stats.2
    pnl := portfolio.pnl + pnl
    returns := (1 + portfolio.returns) * (1 + returns) - 1 }

def updatePortfolio (market : Market Asset) (ledger : Ledger Asset) : Ledger Asset :=
  if !ledger.dirtyPortfolio then ledger
  else
    let (payouts, total) := getPayoutTotal market ledger.positions ledger.payoutLastSalePrices
    let paid := { ledger with payoutLastSalePrices := payouts }.flow total
    { paid with
      portfolio := revalue paid.portfolio (market.stats ledger.positions)
      dirtyPortfolio := false }

/-- `Ledger::sync_last_sale_prices`.  The loop over the positions is not part of the repository:
it gives each of them whatever price and date. -/
def syncLastSalePrices (ledger : Ledger Asset) (prices : Asset → Position → ℚ × ℕ) :
    Ledger Asset where
  dirtyPortfolio := true
  portfolio := ledger.portfolio
  payoutLastSalePrices := ledger.payoutLastSalePrices
  positions := ledger.positions.mapValues fun asset position =>
    { position with
      lastSalePrice := (prices asset position).1
      lastSaleDate := (prices asset position).2 }

/-! ## What the cash flows come to -/

def held (ledger : Ledger Asset) (asset : Asset) : ℤ := (positionOf ledger.positions asset).amount

/-- The last payout price of an asset, or zero without one. -/
def lastPayoutPrice (ledger : Ledger Asset) (asset : Asset) : ℚ :=
  ledger.payoutLastSalePrices.getD asset 0

/-- What can happen to the ledger. -/
inductive Event (Asset : Type u) where
  | transaction (txn : Transaction Asset)
  | sync (prices : Asset → Position → ℚ × ℕ)
  | update

def step (market : Market Asset) (ledger : Ledger Asset) : Event Asset → Ledger Asset
  | .transaction txn => ledger.processTransaction market txn
  | .sync prices => ledger.syncLastSalePrices prices
  | .update => ledger.updatePortfolio market

def run (market : Market Asset) (ledger : Ledger Asset) (events : List (Event Asset)) :
    Ledger Asset := runAll (step market) ledger events

/-- The amounts of the transactions times their prices. -/
def traded : List (Event Asset) → ℚ
  | [] => 0
  | .transaction txn :: rest => txn.amount * txn.price + traded rest
  | _ :: rest => traded rest

/-- Payouts are made for no other asset, and where none is due nothing is held. -/
structure PaysOnly (future : Asset) (ledger : Ledger Asset) : Prop where
  alone : ∀ asset, asset ≠ future → ledger.payoutLastSalePrices.get? asset = none
  flat : ledger.payoutLastSalePrices.get? future = none → ledger.held future = 0

/-- The cash flows so far, less what the position is worth at the last payout price. -/
def balance (market : Market Asset) (future : Asset) (ledger : Ledger Asset) : ℚ :=
  ledger.portfolio.cashFlow -
    market.priceMultiplier future * ledger.held future * ledger.lastPayoutPrice future

variable {market : Market Asset} {ledger : Ledger Asset} {future : Asset}

/-- A transaction changes the amount of its own asset only, by its amount. -/
theorem positionOf_executeTransaction (positions : Dict Asset Position)
    (txn : Transaction Asset) :
    (positionOf (executeTransaction positions txn) txn.asset).amount =
      (positionOf positions txn.asset).amount + txn.amount := by
  unfold executeTransaction
  dsimp only
  split
  next hzero =>
    rw [Position.update_amount] at hzero
    rw [hzero]
    simp [positionOf, Dict.getD]
  next => simp [positionOf]

theorem held_processTransaction (txn : Transaction Asset) :
    (ledger.processTransaction market txn).held txn.asset =
      ledger.held txn.asset + txn.amount := by
  have hpositions : (settle market ledger txn).positions = ledger.positions := by
    unfold settle
    dsimp only
    split
    · split
      · rfl
      · split <;> rfl
    · rfl
  unfold held processTransaction
  dsimp only
  rw [positionOf_executeTransaction, hpositions]

/-- A transaction of a future is paid for by what the position gains or loses. -/
theorem processTransaction_spec {txn : Transaction Asset} (hpays : PaysOnly txn.asset ledger)
    (hfuture : market.isFuture txn.asset = true) :
    PaysOnly txn.asset (ledger.processTransaction market txn) ∧
      balance market txn.asset (ledger.processTransaction market txn) =
        balance market txn.asset ledger -
          market.priceMultiplier txn.asset * (txn.amount * txn.price) := by
  have hheld := @held_processTransaction _ _ market ledger txn
  have hold : (positionOf ledger.positions txn.asset).amount = ledger.held txn.asset := rfl
  cases hget : ledger.payoutLastSalePrices.get? txn.asset with
  | none =>
      have hzero := hpays.flat hget
      have hpayouts : (ledger.processTransaction market txn).payoutLastSalePrices =
          ledger.payoutLastSalePrices.set txn.asset txn.price := by
        simp only [processTransaction, settle, hfuture, if_true, hget]
      have hflow : (ledger.processTransaction market txn).portfolio = ledger.portfolio := by
        simp only [processTransaction, settle, hfuture, if_true, hget]
      refine ⟨⟨fun asset hasset => ?_, fun h => ?_⟩, ?_⟩
      · rw [hpayouts, Dict.get?_set, if_neg hasset]
        exact hpays.alone asset hasset
      · rw [hpayouts, Dict.get?_set, if_pos rfl] at h
        cases h
      · simp only [balance, lastPayoutPrice, hheld, hzero, hpayouts, hflow, Dict.getD_set, if_true]
        push_cast
        ring
  | some oldPrice =>
      have hprice : ledger.lastPayoutPrice txn.asset = oldPrice := by
        simp [lastPayoutPrice, Dict.getD, hget]
      by_cases hclosed : ledger.held txn.asset + txn.amount = 0
      · have hpayouts : (ledger.processTransaction market txn).payoutLastSalePrices =
            ledger.payoutLastSalePrices.erase txn.asset := by
          simp only [processTransaction, settle, hfuture, if_true, hget, hold, hclosed, flow]
        have hflow : (ledger.processTransaction market txn).portfolio.cashFlow =
            ledger.portfolio.cashFlow + calculatePayout (market.priceMultiplier txn.asset)
              (ledger.held txn.asset) oldPrice txn.price := by
          simp only [processTransaction, settle, hfuture, if_true, hget, hold, hclosed, flow]
        refine ⟨⟨fun asset hasset => ?_, fun _ => hheld.trans hclosed⟩, ?_⟩
        · rw [hpayouts, Dict.get?_erase, if_neg hasset]
          exact hpays.alone asset hasset
        · have hamount : (txn.amount : ℚ) = -(ledger.held txn.asset : ℚ) := by
            rw [← Int.cast_neg]
            congr 1
            omega
          simp only [balance, hheld, hclosed, hflow, hprice, calculatePayout, hamount]
          push_cast
          ring
      · have hpayouts : (ledger.processTransaction market txn).payoutLastSalePrices =
            ledger.payoutLastSalePrices.set txn.asset txn.price := by
          simp only [processTransaction, settle, hfuture, if_true, hget, hold, hclosed, if_false,
            flow]
        have hflow : (ledger.processTransaction market txn).portfolio.cashFlow =
            ledger.portfolio.cashFlow + calculatePayout (market.priceMultiplier txn.asset)
              (ledger.held txn.asset) oldPrice txn.price := by
          simp only [processTransaction, settle, hfuture, if_true, hget, hold, hclosed, if_false,
            flow]
        refine ⟨⟨fun asset hasset => ?_, fun h => ?_⟩, ?_⟩
        · rw [hpayouts, Dict.get?_set, if_neg hasset]
          exact hpays.alone asset hasset
        · rw [hpayouts, Dict.get?_set, if_pos rfl] at h
          cases h
        · have hlast : (ledger.processTransaction market txn).lastPayoutPrice txn.asset =
              txn.price := by
            simp [lastPayoutPrice, hpayouts]
          simp only [balance, hheld, hflow, hlast, hprice, calculatePayout]
          push_cast
          ring

/-- New sale prices change no amount. -/
theorem syncLastSalePrices_spec (hpays : PaysOnly future ledger)
    (prices : Asset → Position → ℚ × ℕ) :
    PaysOnly future (ledger.syncLastSalePrices prices) ∧
      balance market future (ledger.syncLastSalePrices prices) = balance market future ledger := by
  have hheld : ∀ asset, (ledger.syncLastSalePrices prices).held asset = ledger.held asset := by
    intro asset
    simp only [held, syncLastSalePrices, positionOf, Dict.getD, Dict.get?_mapValues]
    cases ledger.positions.get? asset <;> rfl
  refine ⟨⟨hpays.alone, fun h => (hheld future).trans (hpays.flat h)⟩, ?_⟩
  simp only [balance, hheld]
  rfl

theorem foldl_payOut (positions : Dict Asset Position) (assets : List Asset)
    (current : Dict Asset ℚ × ℚ) :
    (∀ asset, (assets.foldl (payOut market positions) current).1.get? asset =
      if asset ∈ assets then some (positionOf positions asset).lastSalePrice
      else current.1.get? asset) ∧
    (assets.foldl (payOut market positions) current).2 = current.2 := by
  induction assets generalizing current with
  | nil => exact ⟨fun asset => by simp, rfl⟩
  | cons first rest ih =>
      obtain ⟨hprices, htotal⟩ := ih (payOut market positions current first)
      rw [List.foldl_cons]
      refine ⟨fun asset => ?_, htotal.trans ?_⟩
      · rw [hprices]
        by_cases hfirst : asset = first
        · simp [hfirst, payOut]
        · simp [hfirst, payOut]
      · simp [payOut, calculatePayout]

/-- The payout prices are the last sale prices, and nothing is paid. -/
theorem getPayoutTotal_spec (positions : Dict Asset Position) (payouts : Dict Asset ℚ) :
    (∀ asset, (getPayoutTotal market positions payouts).1.get? asset =
      (payouts.get? asset).map fun _ => (positionOf positions asset).lastSalePrice) ∧
    (getPayoutTotal market positions payouts).2 = 0 := by
  obtain ⟨hprices, htotal⟩ := @foldl_payOut _ _ market positions payouts.keys (payouts, 0)
  refine ⟨fun asset => (hprices asset).trans ?_, htotal⟩
  have hkey := payouts.mem_keys_iff asset
  cases hget : payouts.get? asset with
  | none =>
      rw [if_neg fun hmem => ?_]
      · rfl
      · obtain ⟨price, hprice⟩ := hkey.mp hmem
        rw [hget] at hprice
        cases hprice
  | some price =>
      rw [if_pos (hkey.mpr ⟨price, hget⟩)]
      rfl

/-- What an update does not pay: the portfolio is dirty, and the last sale price is not the last
payout price. -/
def unpaid (market : Market Asset) (future : Asset) (ledger : Ledger Asset) : ℚ :=
  if ledger.dirtyPortfolio then
    market.priceMultiplier future * ledger.held future *
      ((positionOf ledger.positions future).lastSalePrice - ledger.lastPayoutPrice future)
  else 0

/-- The portfolio is brought up to date. -/
theorem updatePortfolio_spec (hpays : PaysOnly future ledger) :
    PaysOnly future (ledger.updatePortfolio market) ∧
      balance market future (ledger.updatePortfolio market) =
        balance market future ledger - unpaid market future ledger := by
  unfold updatePortfolio unpaid
  cases hdirty : ledger.dirtyPortfolio with
  | false => exact ⟨hpays, by simp⟩
  | true =>
      obtain ⟨hprices, htotal⟩ :=
        @getPayoutTotal_spec _ _ market ledger.positions ledger.payoutLastSalePrices
      generalize getPayoutTotal market ledger.positions ledger.payoutLastSalePrices = paid
        at hprices htotal
      refine ⟨⟨fun asset hasset => ?_, fun h => ?_⟩, ?_⟩
      · exact (hprices asset).trans (by rw [hpays.alone asset hasset]; rfl)
      · have hnone := (hprices future).symm.trans h
        exact hpays.flat (Option.map_eq_none_iff.mp hnone)
      · change ledger.portfolio.cashFlow + paid.2 - market.priceMultiplier future *
          ledger.held future * paid.1.getD future 0 = _
        rw [htotal, Dict.getD, hprices, if_pos rfl]
        unfold balance
        cases hget : ledger.payoutLastSalePrices.get? future with
        | none =>
            rw [hpays.flat hget]
            simp
        | some price =>
            rw [Option.map_some, Option.getD_some]
            ring

/-- The transactions are all of one future. -/
def Trades (future : Asset) (events : List (Event Asset)) : Prop :=
  ∀ txn, .transaction txn ∈ events → txn.asset = future

def unpaidBy (market : Market Asset) (future : Asset) (ledger : Ledger Asset) : Event Asset → ℚ
  | .update => unpaid market future ledger
  | _ => 0

theorem step_spec (hfuture : market.isFuture future = true) {event : Event Asset}
    (htrades : Trades future [event]) (hpays : PaysOnly future ledger) :
    PaysOnly future (ledger.step market event) ∧
      balance market future (ledger.step market event) = balance market future ledger -
        market.priceMultiplier future * traded [event] - unpaidBy market future ledger event := by
  cases event with
  | transaction txn =>
      obtain rfl := htrades txn (List.mem_cons_self ..)
      simpa [traded, step, unpaidBy] using processTransaction_spec hpays hfuture
  | sync prices => simpa [traded, step, unpaidBy] using syncLastSalePrices_spec hpays prices
  | update => simpa [traded, step, unpaidBy] using updatePortfolio_spec hpays

omit [DecidableEq Asset] in
theorem traded_cons (event : Event Asset) (rest : List (Event Asset)) :
    traded (event :: rest) = traded [event] + traded rest := by
  cases event <;> simp [traded]

/-- The balance tells the trades at every moment exactly if no event leaves anything unpaid. -/
theorem balance_run_iff (hfuture : market.isFuture future = true) {events : List (Event Asset)}
    (htrades : Trades future events) (hpays : PaysOnly future ledger) :
    (∀ before after, events = before ++ after →
      balance market future (ledger.run market before) =
        balance market future ledger - market.priceMultiplier future * traded before) ↔
      Along (step market) (fun ledger event => unpaidBy market future ledger event = 0) ledger
        events := by
  induction events generalizing ledger with
  | nil =>
      refine iff_of_true (fun before after heq => ?_) trivial
      obtain ⟨rfl, -⟩ := List.append_eq_nil_iff.mp heq.symm
      simp [run, traded]
  | cons event rest ih =>
      have hrest : Trades future rest := fun txn h => htrades txn (List.mem_cons_of_mem _ h)
      have hfirst : Trades future [event] := fun txn h =>
        htrades txn (by rw [List.mem_singleton.mp h]; exact List.mem_cons_self ..)
      obtain ⟨hpays', hstep⟩ := step_spec hfuture hfirst hpays
      rw [along_cons, ← ih hrest hpays']
      constructor
      · intro hall
        have hone := hall [event] rest rfl
        change balance market future (ledger.step market event) = _ at hone
        have hpaid : unpaidBy market future ledger event = 0 := by linarith
        refine ⟨hpaid, fun before after heq => ?_⟩
        have hlater := hall (event :: before) after (by rw [heq]; rfl)
        change balance market future ((ledger.step market event).run market before) = _ at hlater
        rw [hlater, hstep, hpaid, traded_cons]
        ring
      · rintro ⟨hpaid, hall⟩ before after heq
        cases before with
        | nil => simp [run, traded]
        | cons first before =>
            obtain ⟨rfl, htail⟩ := List.cons_eq_cons.mp heq
            have hlater := hall before after htail
            change balance market future ((ledger.step market event).run market before) = _
            rw [hlater, hstep, hpaid, traded_cons event before]
            ring

/-- From a flat start the cash flows are at every moment what the trades cost and the position is
worth at the last payout price, and thus what the trades cost whenever the future is flat, exactly
if no update finds the portfolio dirty and the future held at a last sale price other than the last
payout price. -/
theorem cashFlow_run_iff (hfuture : market.isFuture future = true)
    (hflat : ledger.held future = 0)
    (hnone : ∀ asset, asset ≠ future → ledger.payoutLastSalePrices.get? asset = none)
    (events : List (Event Asset)) (htrades : Trades future events) :
    (∀ before after, events = before ++ after →
      (ledger.run market before).portfolio.cashFlow - ledger.portfolio.cashFlow =
          -(market.priceMultiplier future * traded before) +
            market.priceMultiplier future * (ledger.run market before).held future *
              (ledger.run market before).lastPayoutPrice future ∧
        ((ledger.run market before).held future = 0 →
          (ledger.run market before).portfolio.cashFlow - ledger.portfolio.cashFlow =
            -(market.priceMultiplier future * traded before))) ↔
      ∀ before after, events = before ++ .update :: after →
        (ledger.run market before).dirtyPortfolio = true →
        market.priceMultiplier future ≠ 0 → (ledger.run market before).held future ≠ 0 →
          (positionOf (ledger.run market before).positions future).lastSalePrice =
            (ledger.run market before).lastPayoutPrice future := by
  have hstart : balance market future ledger = ledger.portfolio.cashFlow := by
    simp [balance, hflat]
  have hbalance : ∀ before : List (Event Asset),
      balance market future (ledger.run market before) =
          balance market future ledger - market.priceMultiplier future * traded before ↔
        (ledger.run market before).portfolio.cashFlow - ledger.portfolio.cashFlow =
            -(market.priceMultiplier future * traded before) +
              market.priceMultiplier future * (ledger.run market before).held future *
                (ledger.run market before).lastPayoutPrice future ∧
          ((ledger.run market before).held future = 0 →
            (ledger.run market before).portfolio.cashFlow - ledger.portfolio.cashFlow =
              -(market.priceMultiplier future * traded before)) := by
    intro before
    rw [hstart, balance]
    constructor
    · intro heq
      refine ⟨by linarith, fun hlast => ?_⟩
      rw [hlast] at heq
      simp only [Int.cast_zero, mul_zero, zero_mul, sub_zero] at heq
      linarith
    · rintro ⟨heq, -⟩
      linarith
  have hunpaid : ∀ state : Ledger Asset, unpaid market future state = 0 ↔
      (state.dirtyPortfolio = true → market.priceMultiplier future ≠ 0 →
        state.held future ≠ 0 →
          (positionOf state.positions future).lastSalePrice = state.lastPayoutPrice future) := by
    intro state
    unfold unpaid
    cases state.dirtyPortfolio with
    | false => simp
    | true =>
        simp only [if_true, mul_eq_zero, Int.cast_eq_zero, sub_eq_zero, forall_const, ne_eq]
        tauto
  simp only [← hbalance]
  rw [balance_run_iff hfuture htrades ⟨hnone, fun _ => hflat⟩, along_iff_forall_split]
  constructor
  · intro hall before after heq
    exact (hunpaid _).mp (hall before .update after heq)
  · intro hall before event after heq
    cases event with
    | update => exact (hunpaid _).mpr (hall before after heq)
    | _ => rfl

/-- The multiplier of the futures that are traded here. -/
def fiftyFold : Market String := ⟨fun _ => true, fun _ => 50, fun _ => (0, 0)⟩

/-- A future is bought at 10, updated, sold short at 11 and bought back at 9. -/
theorem cashFlow_run_roundTrip :
    let events : List (Event String) :=
      [.transaction ⟨"F", 2, 10, 1⟩, .sync fun _ _ => (10, 2), .update,
        .transaction ⟨"F", -5, 11, 3⟩, .transaction ⟨"F", 3, 9, 4⟩]
    ((start 1000 : Ledger String).run fiftyFold events).portfolio.cashFlow = 400 := by
  intro events
  have htrades : Trades "F" events := by
    intro txn h
    simp only [events, List.mem_cons, Event.transaction.injEq, reduceCtorEq, List.not_mem_nil,
      or_false, false_or] at h
    rcases h with rfl | rfl | rfl <;> rfl
  have hpaid : ∀ before after, events = before ++ .update :: after →
      ((start 1000 : Ledger String).run fiftyFold before).dirtyPortfolio = true →
      fiftyFold.priceMultiplier "F" ≠ 0 →
      ((start 1000 : Ledger String).run fiftyFold before).held "F" ≠ 0 →
        (positionOf ((start 1000 : Ledger String).run fiftyFold before).positions
          "F").lastSalePrice =
            ((start 1000 : Ledger String).run fiftyFold before).lastPayoutPrice "F" := by
    intro before after heq _ _ _
    rcases before with _ | ⟨first, _ | ⟨second, _ | ⟨third, _ | ⟨fourth, _ | ⟨fifth, rest⟩⟩⟩⟩⟩ <;>
      simp [events] at heq
    obtain ⟨rfl, rfl, -⟩ := heq
    decide +kernel
  have hall := (cashFlow_run_iff (rfl : fiftyFold.isFuture "F" = true)
    (rfl : (start 1000 : Ledger String).held "F" = 0)
    (fun _ _ => rfl) events htrades).mpr hpaid
  have hflat : ((start 1000 : Ledger String).run fiftyFold events).held "F" = 0 := by
    decide +kernel
  have hflow := (hall events [] (List.append_nil _).symm).2 hflat
  have htraded : traded events = -8 := by norm_num [events, traded]
  rw [htraded] at hflow
  norm_num [start, fiftyFold] at hflow ⊢
  exact hflow

/-- A future is bought at 10, marked at 12 and sold at 11: the gain of the mark is not paid, the
loss from there is. -/
theorem marked_gain_is_lost :
    let events : List (Event String) :=
      [.transaction ⟨"F", 2, 10, 1⟩, .sync fun _ _ => (12, 2), .update,
        .transaction ⟨"F", -2, 11, 3⟩]
    ((start 1000 : Ledger String).run fiftyFold events).portfolio.cashFlow = -100 ∧
      ((start 1000 : Ledger String).run fiftyFold events).held "F" = 0 ∧
      -(50 * traded events) = 100 := by
  refine ⟨by decide +kernel, by decide +kernel, by norm_num [traded]⟩

end Ledger

end Trun.Finance
