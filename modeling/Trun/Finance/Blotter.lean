import Mathlib.Algebra.BigOperators.Group.List.Basic
import Mathlib.Algebra.Order.Round
import Mathlib.Data.Rat.Floor
import Mathlib.Logic.Function.Basic
import Trun.Program.Runs
import Trun.Python.Dict

/-!
# The blotter

`SimulationBlotter` hands out pointers to its orders, so the orders lie on a heap and the
lists hold references.  The triggers of an order and the fields that nothing here reads are
left out, as are cancel policies, which only decide when all orders of an asset are cancelled.
-/

namespace Trun.Finance

universe u

inductive OrderStatus where
  | isOpen
  | filled
  | cancelled
  | rejected
  | held
  deriving DecidableEq

structure Order (Asset : Type u) where
  id : String
  dt : String
  reason : String := ""
  asset : Asset
  amount : ℤ
  filled : ℤ := 0
  commission : ℚ := 0
  /-- `_status`. -/
  status : OrderStatus := .isOpen
  stop : ℚ
  limit : ℚ
  deriving DecidableEq

namespace Order

variable {Asset : Type u}

def openAmount (order : Order Asset) : ℤ := order.amount - order.filled

/-- It does not look at the amounts. -/
def isOpen (order : Order Asset) : Bool :=
  order.status = .isOpen || order.status = .held

def cancel (order : Order Asset) : Order Asset := { order with status := .cancelled }

def hold (order : Order Asset) (reason : String) : Order Asset :=
  { order with status := .held, reason := reason }

/-- `static_cast<int>`. -/
def truncate (x : ℚ) : ℤ := if 0 ≤ x then ⌊x⌋ else ⌈x⌉

/-- `std::round`: halves go away from zero. -/
def roundAway (x : ℚ) : ℤ := if 0 ≤ x then ⌊x + 1 / 2⌋ else ⌈x - 1 / 2⌉

/-- `std::round(price * ratio * 100) / 100`. -/
def splitPrice (toDouble : ℚ → ℚ) (price ratio : ℚ) : ℚ :=
  if price ≠ 0 then toDouble (roundAway (toDouble (toDouble (price * ratio) * 100)) / 100)
  else price

/-- `handle_split`; `toDouble` rounds to the nearest double.  The filled amount stays. -/
def handleSplit (toDouble : ℚ → ℚ) (order : Order Asset) (ratio : ℚ) : Order Asset :=
  { order with
    amount := truncate (toDouble (order.amount / ratio))
    limit := splitPrice toDouble order.limit ratio
    stop := splitPrice toDouble order.stop ratio }

end Order

structure ExecutionStyle where
  getStopPrice : Bool → ℚ
  getLimitPrice : Bool → ℚ

/-- An order with what a slippage model has filled of it. -/
structure Fill where
  /-- The order. -/
  ref : ℕ
  amount : ℤ
  dt : String
  deriving DecidableEq

/-- The slippage and the commission models of all classes of assets. -/
structure Models (Asset : Type u) where
  simulate : Asset → List ℕ → List Fill
  calculate : Order Asset → Fill → ℚ

/-- What the blotter uses besides its own code: the rounding to doubles, and
`Order::reject`, which the sources leave out. -/
structure Setting (Asset : Type u) where
  toDouble : ℚ → ℚ
  reject : Order Asset → String → Order Asset
  reject_status : ∀ order reason, (reject order reason).status = .rejected
  reject_id : ∀ order reason, (reject order reason).id = order.id
  reject_asset : ∀ order reason, (reject order reason).asset = order.asset

structure Blotter (Asset : Type u) where
  /-- The orders that are allocated. -/
  heap : ℕ → Option (Order Asset) := fun _ => none
  /-- Where the next order is allocated. -/
  next : ℕ := 0
  orders : Dict String ℕ := ∅
  openOrders : Dict Asset (List ℕ) := ∅
  newOrders : List ℕ := []
  currentDt : String := ""

/-- `max_shares_`, which nothing changes.  `1e11` does not fit an `int` and ends up as the largest
one. -/
def maxShares : ℤ := 2 ^ 31 - 1

namespace Blotter

variable {Asset : Type u}

def modifyOrder (s : Blotter Asset) (ref : ℕ) (change : Order Asset → Order Asset) :
    Blotter Asset :=
  { s with heap := Function.update s.heap ref ((s.heap ref).map change) }

/-- The order, if there is one with that id, and where it lies. -/
def find (s : Blotter Asset) (orderId : String) : Option (ℕ × Order Asset) :=
  (s.orders.get? orderId).bind fun ref => (s.heap ref).map fun order => (ref, order)

def setDate (s : Blotter Asset) (dt : String) : Blotter Asset := { s with currentDt := dt }

def hold (s : Blotter Asset) (orderId reason : String) : Blotter Asset :=
  match s.find orderId with
  | none => s
  | some (ref, order) =>
      if order.isOpen then
        { s.modifyOrder ref fun order => { order.hold reason with dt := s.currentDt } with
          newOrders := s.newOrders.filter (· ≠ ref) ++ [ref] }
      else s

variable [DecidableEq Asset]

/-- `open_orders_[asset]`. -/
def listed (s : Blotter Asset) (asset : Asset) : List ℕ := s.openOrders.getD asset []

/-- Take a reference out of the list of its asset. -/
def unlist (s : Blotter Asset) (asset : Asset) (ref : ℕ) : Blotter Asset :=
  { s with openOrders := s.openOrders.set asset ((s.listed asset).filter (· ≠ ref)) }

/-- How a call of `order` ends. -/
inductive Ordering (Asset : Type u) where
  | returned (id : String) (s : Blotter Asset)
  /-- `std::overflow_error`. -/
  | overflow (what : String)
  /-- `order->id` is read through a null pointer, in this state. -/
  | crashed (s : Blotter Asset)

/-- `order`, with `madeId` as the answer of `make_id`.  It returns `order->id` after `order` was
moved from. -/
def order (s : Blotter Asset) (asset : Asset) (amount : ℤ) (style : ExecutionStyle)
    (orderId madeId : String) : Ordering Asset :=
  if amount = 0 then .returned "" s
  else if amount > maxShares then
    .overflow ("Can't order more than " ++ toString maxShares ++ " shares")
  else
    let isBuy : Bool := amount > 0
    let id := if orderId = "" then madeId else orderId
    let order : Order Asset :=
      { id, dt := s.currentDt, asset, amount, stop := style.getStopPrice isBuy
        limit := style.getLimitPrice isBuy }
    let openOrders := s.openOrders.set asset (s.listed asset ++ [s.next])
    -- Assigning to `orders_[id]` destroys the order that it owned.
    let kept :=
      match s.orders.get? id with
      | some old => Function.update s.heap old none
      | none => s.heap
    .crashed { s with
      heap := Function.update kept s.next (some order)
      next := s.next + 1
      orders := s.orders.set id s.next
      openOrders
      newOrders := s.newOrders ++ [s.next] }

def cancel (s : Blotter Asset) (orderId : String) (relayStatus : Bool) : Blotter Asset :=
  match s.find orderId with
  | none => s
  | some (ref, order) =>
      if order.isOpen then
        let newOrders := s.newOrders.filter (· ≠ ref)
        { (s.unlist order.asset ref).modifyOrder ref fun order =>
            { order.cancel with dt := s.currentDt } with
          newOrders := if relayStatus then newOrders ++ [ref] else newOrders }
      else s

/-- One round of the loop of `cancel_all_orders_for_asset`.  The loop keeps the iterators that it
began with: it reads the buffer of the vector, in which erasing an element moves up those
behind it and leaves the last one standing. -/
def cancelAt (asset : Asset) (relayStatus : Bool) (current : Blotter Asset × List ℕ)
    (position : ℕ) : Blotter Asset × List ℕ :=
  match (current.2[position]?).bind current.1.heap with
  | none => current
  | some order =>
      let after := current.1.cancel order.id relayStatus
      (after, after.listed asset ++ current.2.drop (after.listed asset).length)

/-- `orders.clear()`. -/
def clearList (s : Blotter Asset) (asset : Asset) : Blotter Asset :=
  { s with openOrders := s.openOrders.set asset [] }

def cancelAllOrdersForAsset (s : Blotter Asset) (asset : Asset) (relayStatus : Bool) :
    Blotter Asset :=
  let looped := (List.range (s.listed asset).length).foldl (cancelAt asset relayStatus)
    (s, s.listed asset)
  looped.1.clearList asset

def reject (setting : Setting Asset) (s : Blotter Asset) (orderId reason : String) :
    Blotter Asset :=
  match s.find orderId with
  | none => s
  | some (ref, order) =>
      { (s.unlist order.asset ref).modifyOrder ref fun order =>
          { setting.reject order reason with dt := s.currentDt } with
        newOrders := s.newOrders.filter (· ≠ ref) ++ [ref] }

def processSplit (setting : Setting Asset) (s : Blotter Asset) (split : Asset × ℚ) :
    Blotter Asset :=
  if s.openOrders.contains split.1 then
    (s.listed split.1).foldl (fun current ref =>
      current.modifyOrder ref (Order.handleSplit setting.toDouble · split.2)) s
  else s

def processSplits (setting : Setting Asset) (s : Blotter Asset) (splits : List (Asset × ℚ)) :
    Blotter Asset :=
  splits.foldl (processSplit setting) s

/-- The blotter with what `get_transactions` collects. -/
structure Collected (Asset : Type u) where
  blotter : Blotter Asset
  transactions : List Fill := []
  commissions : List (Asset × ℕ × ℚ) := []
  closedOrders : List ℕ := []

/-- The order once some of it was filled. -/
def filledBy (calculate : Order Asset → Fill → ℚ) (fill : Fill) (order : Order Asset) :
    Order Asset :=
  { order with
    filled := order.filled + fill.amount
    commission := order.commission + calculate order fill
    dt := fill.dt }

/-- One round of the inner loop of `get_transactions`. -/
def applyFill (calculate : Order Asset → Fill → ℚ) (current : Collected Asset) (fill : Fill) :
    Collected Asset :=
  match current.blotter.heap fill.ref with
  | none => current
  | some order =>
      let additional := calculate order fill
      { blotter := current.blotter.modifyOrder fill.ref (filledBy calculate fill)
        transactions := current.transactions ++ [fill]
        commissions :=
          if 0 < additional then current.commissions ++ [(order.asset, fill.ref, additional)]
          else current.commissions
        closedOrders :=
          if (filledBy calculate fill order).isOpen then current.closedOrders
          else current.closedOrders ++ [fill.ref] }

def getTransactions (s : Blotter Asset) (models : Models Asset) : Collected Asset :=
  s.openOrders.entries.foldl (fun current entry =>
    (models.simulate entry.1 entry.2).foldl (applyFill models.calculate) current) { blotter := s }

/-- One round of the first loop of `prune_orders`. -/
def pruneOrder (s : Blotter Asset) (ref : ℕ) : Blotter Asset :=
  match s.heap ref with
  | none => s
  | some order => s.unlist order.asset ref

def pruneOrders (s : Blotter Asset) (closedOrders : List ℕ) : Blotter Asset :=
  let pruned := closedOrders.foldl pruneOrder s
  { pruned with
    openOrders := ⟨pruned.openOrders.entries.filter fun entry => entry.2 ≠ [],
      pruned.openOrders.nodup_keys.sublist (List.filter_sublist.map _)⟩ }

end Blotter

end Trun.Finance
