import Mathlib.Tactic.Ring
import Trun.Finance.Blotter

/-!
# The open orders of the blotter

An order is listed exactly while its status is open or held.  Its open amount plays no part in
that, so the lists are those of the open orders as long as no fill and no split closes an order.
No order gets on the lists of a new blotter, since `order` crashes where it accepts one.
-/

namespace Trun.Finance.Blotter

universe u

variable {Asset : Type u} [DecidableEq Asset]

inductive Event (Asset : Type u) where
  | setDate (dt : String)
  | order (asset : Asset) (amount : ℤ) (style : ExecutionStyle) (orderId madeId : String)
  | cancel (orderId : String) (relayStatus : Bool)
  | cancelAllOrdersForAsset (asset : Asset) (relayStatus : Bool)
  | reject (orderId reason : String)
  | hold (orderId reason : String)
  | processSplits (splits : List (Asset × ℚ))
  /-- `get_transactions`, then `prune_orders` on the orders that it found closed. -/
  | getTransactions (models : Models Asset)

/-- The state in which a call ends; one that throws changes nothing. -/
def after (setting : Setting Asset) (s : Blotter Asset) : Event Asset → Blotter Asset
  | .setDate dt => s.setDate dt
  | .order asset amount style orderId madeId =>
    match s.order asset amount style orderId madeId with
    | .returned _ ordered => ordered
    | .overflow _ => s
    | .crashed ordered => ordered
  | .cancel orderId relayStatus => s.cancel orderId relayStatus
  | .cancelAllOrdersForAsset asset relayStatus => s.cancelAllOrdersForAsset asset relayStatus
  | .reject orderId reason => s.reject setting orderId reason
  | .hold orderId reason => s.hold orderId reason
  | .processSplits splits => s.processSplits setting splits
  | .getTransactions models =>
    let collected := s.getTransactions models
    collected.blotter.pruneOrders collected.closedOrders

/-- The lists hold each order once whose open amount is not 0 and that was neither cancelled nor
rejected, and nothing else. -/
structure ListsOpen (s : Blotter Asset) : Prop where
  nodup : ∀ asset, (s.listed asset).Nodup
  listed : ∀ asset ref, ref ∈ s.listed asset ↔ ∃ order, s.heap ref = some order ∧
    order.asset = asset ∧ order.openAmount ≠ 0 ∧ order.status ≠ .cancelled ∧
      order.status ≠ .rejected

/-- The call comes back, with a value or an exception. -/
def Returns (s : Blotter Asset) : Event Asset → Prop
  | .order asset amount style orderId madeId =>
      ∀ ordered, s.order asset amount style orderId madeId ≠ .crashed ordered
  | _ => True

/-- The call comes back, after it the lists hold the open orders, and cancelling all orders of an
asset cancels each one that was open. -/
structure Keeps (setting : Setting Asset) (s : Blotter Asset) (event : Event Asset) : Prop where
  returns : s.Returns event
  lists : (s.after setting event).ListsOpen
  cancels : ∀ asset relayStatus, event = .cancelAllOrdersForAsset asset relayStatus →
    ∀ ref order, s.heap ref = some order → order.asset = asset → order.isOpen = true →
      ∃ cancelled, (s.after setting event).heap ref = some cancelled ∧
        cancelled.status = .cancelled

def splitBy (toDouble : ℚ → ℚ) (splits : List (Asset × ℚ)) (order : Order Asset) :
    Order Asset :=
  splits.foldl (fun current split =>
    if split.1 = order.asset then current.handleSplit toDouble split.2 else current) order

def filledAmount (s : Blotter Asset) (models : Models Asset) (ref : ℕ) : ℤ :=
  ((s.openOrders.entries.flatMap fun entry => models.simulate entry.1 entry.2).map
    fun fill => if fill.ref = ref then fill.amount else 0).sum

omit [DecidableEq Asset] in
/-- No order is accepted. -/
def Declines : Event Asset → Prop
  | .order _ amount _ _ _ => amount = 0 ∨ maxShares < amount
  | _ => True

/-- No order is accepted, at most two listed orders are cancelled together, and neither a split
nor a fill closes a listed order. -/
def Meets (setting : Setting Asset) (s : Blotter Asset) : Event Asset → Prop
  | .order _ amount _ _ _ => amount = 0 ∨ maxShares < amount
  | .cancelAllOrdersForAsset asset _ => (s.listed asset).length ≤ 2
  | .processSplits splits => ∀ asset, ∀ ref ∈ s.listed asset, ∀ order,
      s.heap ref = some order → (splitBy setting.toDouble splits order).openAmount ≠ 0
  | .getTransactions models => ∀ asset, ∀ ref ∈ s.listed asset, ∀ order,
      s.heap ref = some order → order.openAmount ≠ s.filledAmount models ref
  | _ => True

/-- Each order that is allocated is kept under its id, and listed exactly while its status is
open or held. -/
structure Shape (s : Blotter Asset) : Prop where
  fresh : ∀ ref, s.next ≤ ref → s.heap ref = none
  stored : ∀ id ref, s.orders.get? id = some ref ↔ ∃ order, s.heap ref = some order ∧ order.id = id
  listed : ∀ asset ref, ref ∈ s.listed asset ↔
    ∃ order, s.heap ref = some order ∧ order.asset = asset ∧ order.isOpen = true
  nodup : ∀ asset, (s.listed asset).Nodup
  settled : ∀ ref order, s.heap ref = some order → order.status ≠ .filled

variable {setting : Setting Asset} {s t : Blotter Asset} {ref : ℕ} {order : Order Asset}

omit [DecidableEq Asset] in
theorem isOpen_iff (hsettled : order.status ≠ .filled) :
    order.isOpen = true ↔ order.status ≠ .cancelled ∧ order.status ≠ .rejected := by
  unfold Order.isOpen
  cases hstatus : order.status <;> simp_all

/-- The lists are right exactly if no order is closed by its amounts alone. -/
theorem Shape.listsOpen_iff (hshape : s.Shape) : s.ListsOpen ↔
    ∀ ref order, s.heap ref = some order → order.isOpen = true → order.openAmount ≠ 0 := by
  constructor
  · intro hlists ref order hheap hopen
    obtain ⟨found, hfound, -, hamount, -⟩ := (hlists.listed order.asset ref).mp
      ((hshape.listed order.asset ref).mpr ⟨order, hheap, rfl, hopen⟩)
    rw [hheap] at hfound
    cases hfound
    exact hamount
  · intro hamounts
    constructor
    · exact hshape.nodup
    · intro asset ref
      rw [hshape.listed asset ref]
      constructor
      · rintro ⟨order, hheap, hasset, hopen⟩
        exact ⟨order, hheap, hasset, hamounts ref order hheap hopen,
          (isOpen_iff (hshape.settled ref order hheap)).mp hopen⟩
      · rintro ⟨order, hheap, hasset, -, hstatus⟩
        exact ⟨order, hheap, hasset, (isOpen_iff (hshape.settled ref order hheap)).mpr hstatus⟩

/-- Orders change in other respects than their id, their asset and being open. -/
theorem Shape.change (hshape : s.Shape) (change : ℕ → Order Asset → Order Asset)
    (hheap : ∀ ref, t.heap ref = (s.heap ref).map (change ref)) (hnext : t.next = s.next)
    (horders : t.orders = s.orders) (hlisted : ∀ asset, t.listed asset = s.listed asset)
    (hid : ∀ ref order, (change ref order).id = order.id)
    (hasset : ∀ ref order, (change ref order).asset = order.asset)
    (hopen : ∀ ref order, s.heap ref = some order → (change ref order).isOpen = order.isOpen)
    (hsettled : ∀ ref order, s.heap ref = some order → (change ref order).status ≠ .filled) :
    t.Shape := by
  have hsome : ∀ ref order, t.heap ref = some order ↔
      ∃ old, s.heap ref = some old ∧ change ref old = order := by
    intro ref order
    rw [hheap, Option.map_eq_some_iff]
  constructor
  · intro ref href
    rw [hheap, hshape.fresh ref (hnext ▸ href)]
    rfl
  · intro id ref
    rw [horders, hshape.stored]
    constructor
    · rintro ⟨order, h, rfl⟩
      exact ⟨_, (hsome _ _).mpr ⟨order, h, rfl⟩, hid ref order⟩
    · rintro ⟨order, h, rfl⟩
      obtain ⟨old, hold, rfl⟩ := (hsome _ _).mp h
      exact ⟨old, hold, (hid ref old).symm⟩
  · intro asset ref
    rw [hlisted, hshape.listed]
    constructor
    · rintro ⟨order, h, rfl, hstatus⟩
      exact ⟨_, (hsome _ _).mpr ⟨order, h, rfl⟩, hasset ref order,
        (hopen ref order h).trans hstatus⟩
    · rintro ⟨order, h, rfl, hstatus⟩
      obtain ⟨old, hold, rfl⟩ := (hsome _ _).mp h
      exact ⟨old, hold, (hasset ref old).symm, (hopen ref old hold).symm.trans hstatus⟩
  · intro asset
    rw [hlisted]
    exact hshape.nodup asset
  · intro ref order h
    obtain ⟨old, hold, rfl⟩ := (hsome _ _).mp h
    exact hsettled ref old hold

/-- One order is closed and leaves its list. -/
theorem Shape.close (hshape : s.Shape) (hfound : s.heap ref = some order) {closed : Order Asset}
    (hheap : t.heap = Function.update s.heap ref (some closed)) (hnext : t.next = s.next)
    (horders : t.orders = s.orders)
    (hlisted : ∀ asset, t.listed asset =
      if asset = order.asset then (s.listed asset).filter (· ≠ ref) else s.listed asset)
    (hid : closed.id = order.id) (hopen : closed.isOpen = false)
    (hsettled : closed.status ≠ .filled) : t.Shape := by
  have hother : ∀ other, other ≠ ref → t.heap other = s.heap other := by
    intro other h
    rw [hheap, Function.update_of_ne h]
  have hself : t.heap ref = some closed := by
    rw [hheap, Function.update_self]
  constructor
  · intro other h
    have hne : other ≠ ref := by
      rintro rfl
      rw [hnext] at h
      rw [hshape.fresh _ h] at hfound
      cases hfound
    rw [hother other hne]
    exact hshape.fresh other (hnext ▸ h)
  · intro id other
    rw [horders, hshape.stored]
    by_cases hne : other = ref
    · subst hne
      rw [hself, hfound]
      simp only [Option.some.injEq, exists_eq_left']
      rw [hid]
    · rw [hother other hne]
  · intro asset other
    rw [hlisted]
    by_cases hne : other = ref
    · subst hne
      rw [hself]
      simp only [Option.some.injEq, exists_eq_left', hopen, Bool.false_eq_true, and_false,
        iff_false]
      split
      · simp
      · next hasset =>
          rw [hshape.listed]
          rintro ⟨found, h, rfl, -⟩
          rw [hfound] at h
          cases h
          exact hasset rfl
    · rw [hother other hne, ← hshape.listed]
      split
      · simp [hne]
      · rfl
  · intro asset
    rw [hlisted]
    split
    · exact (hshape.nodup asset).filter _
    · exact hshape.nodup asset
  · intro other found h
    by_cases hne : other = ref
    · subst hne
      rw [hself] at h
      cases h
      exact hsettled
    · rw [hother other hne] at h
      exact hshape.settled other found h

theorem Shape.find_eq_some (hshape : s.Shape) {id : String} :
    s.find id = some (ref, order) ↔ s.heap ref = some order ∧ order.id = id := by
  unfold find
  constructor
  · intro h
    obtain ⟨other, hget, hmap⟩ := Option.bind_eq_some_iff.mp h
    obtain ⟨found, hheap, hpair⟩ := Option.map_eq_some_iff.mp hmap
    cases hpair
    obtain ⟨same, hsame, hid⟩ := (hshape.stored id ref).mp hget
    rw [hheap] at hsame
    cases hsame
    exact ⟨hheap, hid⟩
  · rintro ⟨hheap, hid⟩
    rw [(hshape.stored id ref).mpr ⟨order, hheap, hid⟩, Option.bind_some, hheap]
    rfl

/-! ## Calls for one order -/

/-- Open orders are as they were, up to what does not make their open amount. -/
def SameAmounts (s t : Blotter Asset) : Prop :=
  ∀ ref order, t.heap ref = some order → order.isOpen = true →
    ∃ old, s.heap ref = some old ∧ old.isOpen = true ∧ old.openAmount = order.openAmount

omit [DecidableEq Asset] in
theorem SameAmounts.refl (s : Blotter Asset) : SameAmounts s s :=
  fun _ order hheap hopen => ⟨order, hheap, hopen, rfl⟩

omit [DecidableEq Asset] in
theorem SameAmounts.trans {u : Blotter Asset} (hst : SameAmounts s t) (htu : SameAmounts t u) :
    SameAmounts s u := by
  intro ref order hheap hopen
  obtain ⟨between, hbetween, hopen', hamount⟩ := htu ref order hheap hopen
  obtain ⟨old, hold, hopen'', hamount'⟩ := hst ref between hbetween hopen'
  exact ⟨old, hold, hopen'', hamount'.trans hamount⟩

omit [DecidableEq Asset] in
theorem SameAmounts.of_close {closed : Order Asset}
    (hheap : t.heap = Function.update s.heap ref (some closed)) (hopen : closed.isOpen = false) :
    SameAmounts s t := by
  intro other found hfound hopen'
  by_cases hother : other = ref
  · subst hother
    rw [hheap, Function.update_self] at hfound
    cases hfound
    rw [hopen] at hopen'
    cases hopen'
  · rw [hheap, Function.update_of_ne hother] at hfound
    exact ⟨found, hfound, hopen', rfl⟩

theorem SameAmounts.listsOpen (hsame : SameAmounts s t) (hs : s.Shape) (hlists : s.ListsOpen)
    (ht : t.Shape) : t.ListsOpen := by
  rw [ht.listsOpen_iff]
  intro ref order hheap hopen
  obtain ⟨old, hold, hopen', hamount⟩ := hsame ref order hheap hopen
  rw [← hamount]
  exact hs.listsOpen_iff.mp hlists ref old hold hopen'

@[simp] theorem listed_unlist (s : Blotter Asset) (asset other : Asset) (ref : ℕ) :
    (s.unlist asset ref).listed other =
      if other = asset then (s.listed other).filter (· ≠ ref) else s.listed other := by
  unfold unlist listed
  dsimp only
  rw [Dict.getD_set]
  by_cases hother : other = asset
  · subst hother
    simp
  · simp [hother]

/-- What `cancel` does to an open order. -/
structure Cancels (s t : Blotter Asset) (ref : ℕ) (order : Order Asset) : Prop where
  heap : t.heap = Function.update s.heap ref (some { order.cancel with dt := s.currentDt })
  next : t.next = s.next
  orders : t.orders = s.orders
  listed : ∀ asset, t.listed asset =
    if asset = order.asset then (s.listed asset).filter (· ≠ ref) else s.listed asset

theorem Shape.cancels (hshape : s.Shape) (hheap : s.heap ref = some order)
    (hopen : order.isOpen = true) (relayStatus : Bool) :
    Cancels s (s.cancel order.id relayStatus) ref order := by
  have hfind : s.find order.id = some (ref, order) := hshape.find_eq_some.mpr ⟨hheap, rfl⟩
  unfold cancel
  rw [hfind]
  dsimp only
  rw [if_pos hopen]
  constructor
  · simp only [modifyOrder, unlist, hheap, Option.map_some]
  · rfl
  · rfl
  · exact fun asset => listed_unlist s order.asset asset ref

theorem Cancels.shape (hcancels : Cancels s t ref order) (hshape : s.Shape)
    (hheap : s.heap ref = some order) : t.Shape :=
  hshape.close hheap hcancels.heap hcancels.next hcancels.orders hcancels.listed rfl rfl nofun

theorem Cancels.sameAmounts (hcancels : Cancels s t ref order) : SameAmounts s t :=
  SameAmounts.of_close hcancels.heap rfl

theorem Cancels.heap_self (hcancels : Cancels s t ref order) :
    ∃ cancelled, t.heap ref = some cancelled ∧ cancelled.status = .cancelled := by
  refine ⟨{ order.cancel with dt := s.currentDt }, ?_, rfl⟩
  rw [hcancels.heap, Function.update_self]

theorem Cancels.heap_other (hcancels : Cancels s t ref order) {other : ℕ} (hother : other ≠ ref) :
    t.heap other = s.heap other := by
  rw [hcancels.heap, Function.update_of_ne hother]

theorem Shape.cancel (hshape : s.Shape) (orderId : String) (relayStatus : Bool) :
    (s.cancel orderId relayStatus).Shape ∧ SameAmounts s (s.cancel orderId relayStatus) := by
  cases hfind : s.find orderId with
  | none =>
      unfold Blotter.cancel
      rw [hfind]
      exact ⟨hshape, .refl s⟩
  | some found =>
      obtain ⟨ref, order⟩ := found
      obtain ⟨hheap, rfl⟩ := hshape.find_eq_some.mp hfind
      by_cases hopen : order.isOpen = true
      · have hcancels := hshape.cancels hheap hopen relayStatus
        exact ⟨hcancels.shape hshape hheap, hcancels.sameAmounts⟩
      · unfold Blotter.cancel
        rw [hfind]
        dsimp only
        rw [if_neg hopen]
        exact ⟨hshape, .refl s⟩

theorem Shape.reject (hshape : s.Shape) (setting : Setting Asset) (orderId reason : String) :
    (s.reject setting orderId reason).Shape ∧ SameAmounts s (s.reject setting orderId reason) := by
  cases hfind : s.find orderId with
  | none =>
      unfold Blotter.reject
      rw [hfind]
      exact ⟨hshape, .refl s⟩
  | some found =>
      obtain ⟨ref, order⟩ := found
      obtain ⟨hheap, rfl⟩ := hshape.find_eq_some.mp hfind
      have hstatus := setting.reject_status order reason
      have hclosed : (setting.reject order reason).isOpen = false := by
        rw [Order.isOpen, hstatus]
        rfl
      have heq : (s.reject setting order.id reason).heap = Function.update s.heap ref
          (some { setting.reject order reason with dt := s.currentDt }) := by
        unfold Blotter.reject
        rw [hfind]
        simp only [modifyOrder, unlist, hheap, Option.map_some]
      have hsettled : (setting.reject order reason).status ≠ .filled := by
        rw [hstatus]
        exact nofun
      constructor
      · apply hshape.close hheap heq ?_ ?_ ?_ (setting.reject_id order reason) hclosed hsettled
        · unfold Blotter.reject
          rw [hfind]
          rfl
        · unfold Blotter.reject
          rw [hfind]
          rfl
        · intro asset
          unfold Blotter.reject
          rw [hfind]
          exact listed_unlist s order.asset asset ref
      · exact SameAmounts.of_close heq hclosed

omit [DecidableEq Asset] in
theorem heap_modifyOrder (s : Blotter Asset) (ref : ℕ) (change : Order Asset → Order Asset)
    (other : ℕ) : (s.modifyOrder ref change).heap other =
      (s.heap other).map fun old => if other = ref then change old else old := by
  unfold modifyOrder
  by_cases hother : other = ref
  · subst hother
    simp
  · simp [hother]

theorem Shape.hold (hshape : s.Shape) (orderId reason : String) :
    (s.hold orderId reason).Shape ∧ SameAmounts s (s.hold orderId reason) := by
  unfold Blotter.hold
  split
  next => exact ⟨hshape, .refl s⟩
  next ref order hfind =>
    obtain ⟨hheap, rfl⟩ := hshape.find_eq_some.mp hfind
    split
    next hopen =>
      have hstays : ∀ old, s.heap ref = some old → old.isOpen = true := by
        intro old hold
        rw [hheap] at hold
        cases hold
        exact hopen
      set put : Order Asset → Order Asset := fun old =>
        { old.hold reason with dt := s.currentDt } with hput
      have hheaps := heap_modifyOrder s ref put
      constructor
      · apply hshape.change (t := { s.modifyOrder ref put with
            newOrders := s.newOrders.filter (· ≠ ref) ++ [ref] })
          (fun other old => if other = ref then put old else old) hheaps rfl rfl (fun _ => rfl)
        · intro other old
          split <;> rfl
        · intro other old
          split <;> rfl
        · intro other old hold
          split
          next hother => exact (hstays old (hother ▸ hold)).symm
          next => rfl
        · intro other old hold
          split
          next => exact nofun
          next => exact hshape.settled other old hold
      · intro other found hfound hopen'
        obtain ⟨old, hold, rfl⟩ :=
          Option.map_eq_some_iff.mp ((hheaps other).symm.trans hfound)
        split at hopen'
        next hother => exact ⟨old, hold, hstays old (hother ▸ hold), by rw [if_pos hother]; rfl⟩
        next hother => exact ⟨old, hold, hopen', by rw [if_neg hother]⟩
    next => exact ⟨hshape, .refl s⟩

/-! ## Placing an order -/

/-- `order` comes back just if it declines, and then it changes nothing. -/
theorem returns_iff (s : Blotter Asset) (event : Event Asset) :
    s.Returns event ↔ Declines event := by
  cases event with
  | order asset amount style orderId madeId =>
      unfold Returns Declines order
      dsimp only
      by_cases hamount : amount = 0
      · simp [hamount]
      · rw [if_neg hamount]
        by_cases hmany : maxShares < amount
        · simp [hmany]
        · simp [hamount, hmany]
  | _ => exact Iff.rfl

theorem after_order (setting : Setting Asset) {asset : Asset} {amount : ℤ}
    {style : ExecutionStyle} {orderId madeId : String}
    (hdeclines : amount = 0 ∨ maxShares < amount) :
    s.after setting (.order asset amount style orderId madeId) = s := by
  unfold after order
  dsimp only
  by_cases hamount : amount = 0
  · rw [if_pos hamount]
  · rw [if_neg hamount, if_pos (hdeclines.resolve_left hamount)]

/-! ## Cancelling all orders of an asset -/

theorem cancelAt_eq {asset : Asset} {buffer : List ℕ} {position : ℕ} (relayStatus : Bool)
    (hbuffer : buffer[position]? = some ref) (hheap : s.heap ref = some order) :
    cancelAt asset relayStatus (s, buffer) position =
      (s.cancel order.id relayStatus, (s.cancel order.id relayStatus).listed asset ++
        buffer.drop ((s.cancel order.id relayStatus).listed asset).length) := by
  unfold cancelAt
  dsimp only
  rw [hbuffer, Option.bind_some, hheap]

/-- Writing the empty list where there is nothing listed. -/
theorem Shape.clear (hshape : s.Shape) {asset : Asset} (hempty : s.listed asset = []) :
    (s.clearList asset).Shape := by
  apply hshape.change (t := s.clearList asset) (fun _ order => order)
    (fun ref => Option.map_id_apply.symm) rfl rfl
  · intro other
    unfold clearList Blotter.listed
    dsimp only
    rw [Dict.getD_set]
    by_cases hother : other = asset
    · subst hother
      rw [if_pos rfl]
      exact hempty.symm
    · rw [if_neg hother]
  · exact fun _ _ => rfl
  · exact fun _ _ => rfl
  · exact fun _ _ _ => rfl
  · exact hshape.settled

/-- What cancelling all orders of an asset is to do. -/
structure CancelsAll (s t : Blotter Asset) (asset : Asset) : Prop where
  shape : t.Shape
  sameAmounts : SameAmounts s t
  cancelled : ∀ ref ∈ s.listed asset, ∃ order, t.heap ref = some order ∧ order.status = .cancelled

theorem Shape.cancelsAll (hshape : s.Shape) {asset : Asset} (relayStatus : Bool)
    (hfew : (s.listed asset).length ≤ 2) :
    CancelsAll s (s.cancelAllOrdersForAsset asset relayStatus) asset := by
  have hopen : ∀ ref ∈ s.listed asset, ∃ order, s.heap ref = some order ∧ order.asset = asset ∧
      order.isOpen = true := fun ref href => (hshape.listed asset ref).mp href
  unfold cancelAllOrdersForAsset
  match hlist : s.listed asset, hfew, hshape.nodup asset with
  | [], _, _ =>
      constructor
      · exact hshape.clear hlist
      · exact .refl s
      · intro ref href
        rw [hlist] at href
        cases href
  | [first], _, _ =>
      obtain ⟨order, hheap, hasset, hstatus⟩ := hopen first (by simp [hlist])
      have hcancels := hshape.cancels hheap hstatus relayStatus
      have hloop : ([0].foldl (cancelAt asset relayStatus) (s, [first])).1 =
          s.cancel order.id relayStatus := by
        rw [List.foldl_cons, List.foldl_nil, cancelAt_eq relayStatus rfl hheap]
      change CancelsAll s (([0].foldl (cancelAt asset relayStatus) (s, [first])).1.clearList asset)
        asset
      rw [hloop]
      have hempty : (s.cancel order.id relayStatus).listed asset = [] := by
        rw [hcancels.listed, if_pos hasset.symm, hlist]
        simp
      constructor
      · exact (hcancels.shape hshape hheap).clear hempty
      · exact hcancels.sameAmounts
      · intro ref href
        rw [hlist, List.mem_singleton] at href
        subst href
        exact hcancels.heap_self
  | [first, second], _, hnodup =>
      have hne : second ≠ first := by
        rintro rfl
        simp at hnodup
      obtain ⟨order, hheap, hasset, hstatus⟩ := hopen first (by simp [hlist])
      obtain ⟨other, hheap', hasset', hstatus'⟩ := hopen second (by simp [hlist])
      have hcancels := hshape.cancels hheap hstatus relayStatus
      have hshape' := hcancels.shape hshape hheap
      set between := s.cancel order.id relayStatus with hbetween
      have hrest : between.listed asset = [second] := by
        rw [hcancels.listed, if_pos hasset.symm, hlist]
        simp [hne]
      have hthere : between.heap second = some other := by
        rw [hcancels.heap_other hne]
        exact hheap'
      have hcancels' := hshape'.cancels hthere hstatus' relayStatus
      have hone : cancelAt asset relayStatus (s, [first, second]) 0 =
          (between, [second, second]) := by
        rw [cancelAt_eq relayStatus rfl hheap, ← hbetween, hrest]
        rfl
      have hloop : ([0, 1].foldl (cancelAt asset relayStatus) (s, [first, second])).1 =
          between.cancel other.id relayStatus := by
        rw [List.foldl_cons, hone, List.foldl_cons, List.foldl_nil,
          cancelAt_eq relayStatus rfl hthere]
      change CancelsAll s
        (([0, 1].foldl (cancelAt asset relayStatus) (s, [first, second])).1.clearList asset) asset
      rw [hloop]
      have hempty : (between.cancel other.id relayStatus).listed asset = [] := by
        rw [hcancels'.listed, if_pos hasset'.symm, hrest]
        simp
      constructor
      · exact (hcancels'.shape hshape' hthere).clear hempty
      · exact hcancels.sameAmounts.trans hcancels'.sameAmounts
      · intro ref href
        rw [hlist] at href
        rcases List.mem_cons.mp href with rfl | href
        · change ∃ found, (between.cancel other.id relayStatus).heap ref = some found ∧ _
          rw [hcancels'.heap_other hne.symm]
          exact hcancels.heap_self
        · rw [List.mem_singleton.mp href]
          exact hcancels'.heap_self

/-- Once the second order stands where the loop has been, the loop does not meet it again. -/
structure Passed (asset : Asset) (second : ℕ) (order : Order Asset)
    (current : Blotter Asset × List ℕ) : Prop where
  shape : current.1.Shape
  heap : current.1.heap second = some order
  first : ∃ others, current.1.listed asset = second :: others
  buffer : ∃ others, current.2 = second :: others ∧ second ∉ others

/-- Cancelling another order. -/
theorem Shape.cancel_other (hshape : s.Shape) {second other : ℕ} {found : Order Asset}
    (hfound : s.heap other = some found) (hne : other ≠ second) (relayStatus : Bool)
    {asset : Asset} {others : List ℕ} (hlist : s.listed asset = second :: others) :
    (s.cancel found.id relayStatus).heap second = s.heap second ∧
      ∃ rest, (s.cancel found.id relayStatus).listed asset = second :: rest := by
  by_cases hopen : found.isOpen = true
  · have hcancels := hshape.cancels hfound hopen relayStatus
    refine ⟨hcancels.heap_other hne.symm, ?_⟩
    rw [hcancels.listed, hlist]
    split
    · exact ⟨others.filter (· ≠ other), List.filter_cons_of_pos (by simpa using hne.symm)⟩
    · exact ⟨others, rfl⟩
  · have hsame : s.cancel found.id relayStatus = s := by
      unfold Blotter.cancel
      rw [hshape.find_eq_some.mpr ⟨hfound, rfl⟩]
      dsimp only
      rw [if_neg hopen]
    rw [hsame]
    exact ⟨rfl, others, hlist⟩

theorem Passed.cancelAt {asset : Asset} {second : ℕ} {current : Blotter Asset × List ℕ}
    (hpassed : Passed asset second order current) (relayStatus : Bool) (position : ℕ) :
    Passed asset second order (cancelAt asset relayStatus current (position + 1)) := by
  obtain ⟨s, buffer⟩ := current
  obtain ⟨hshape, hheap, ⟨listed, hlist⟩, others, hbuffer, habsent⟩ := hpassed
  dsimp only at hshape hheap hlist hbuffer
  subst hbuffer
  cases hread : ((second :: others)[position + 1]?).bind s.heap with
  | none =>
      unfold Blotter.cancelAt
      dsimp only
      rw [hread]
      exact ⟨hshape, hheap, ⟨listed, hlist⟩, others, rfl, habsent⟩
  | some found =>
      obtain ⟨other, hother, hfound⟩ := Option.bind_eq_some_iff.mp hread
      have hmem : other ∈ others := List.mem_of_getElem? (by simpa using hother)
      have hne : other ≠ second := by
        rintro rfl
        exact habsent hmem
      rw [cancelAt_eq relayStatus hother hfound]
      have hafter := (hshape.cancel found.id relayStatus).1
      obtain ⟨hsame, rest, hrest⟩ := hshape.cancel_other hfound hne relayStatus hlist
      have hnodup := hafter.nodup asset
      rw [hrest] at hnodup ⊢
      refine ⟨hafter, hsame.trans hheap, ⟨rest, hrest⟩, _, List.cons_append, ?_⟩
      rw [List.mem_append]
      rintro (h | h)
      · exact (List.nodup_cons.mp hnodup).1 h
      · exact habsent (List.mem_of_mem_drop h)

theorem Passed.foldl {asset : Asset} {second : ℕ} (relayStatus : Bool) (positions : List ℕ)
    {current : Blotter Asset × List ℕ} (hpassed : Passed asset second order current) :
    Passed asset second order
      ((positions.map Nat.succ).foldl (Blotter.cancelAt asset relayStatus) current) := by
  induction positions generalizing current with
  | nil => exact hpassed
  | cons position rest ih =>
      rw [List.map_cons, List.foldl_cons]
      exact ih (hpassed.cancelAt relayStatus position)

/-- With three or more listed orders the second is dropped from the list, but not cancelled. -/
theorem Shape.spares_second (hshape : s.Shape) {asset : Asset} {first second third : ℕ}
    {rest : List ℕ} (hlist : s.listed asset = first :: second :: third :: rest)
    (relayStatus : Bool) :
    (s.cancelAllOrdersForAsset asset relayStatus).heap second = s.heap second := by
  have hnodup := hshape.nodup asset
  rw [hlist] at hnodup
  have hfirst : first ∉ second :: third :: rest := (List.nodup_cons.mp hnodup).1
  have hsecond : second ∉ third :: rest := (List.nodup_cons.mp (List.nodup_cons.mp hnodup).2).1
  obtain ⟨order, hheap, hasset, hopen⟩ :=
    (hshape.listed asset first).mp (by rw [hlist]; exact List.mem_cons_self)
  obtain ⟨other, hheap', -, -⟩ := (hshape.listed asset second).mp (by simp [hlist])
  have hne : second ≠ first := by
    rintro rfl
    exact hfirst List.mem_cons_self
  have hcancels := hshape.cancels hheap hopen relayStatus
  set between := s.cancel order.id relayStatus with hbetween
  have hmoved : between.listed asset = second :: third :: rest := by
    rw [hcancels.listed, if_pos hasset.symm, hlist, List.filter_cons_of_neg (by simp)]
    apply List.filter_eq_self.mpr
    intro ref href
    have hother : ref ≠ first := by
      rintro rfl
      exact hfirst href
    simpa using hother
  have hone : cancelAt asset relayStatus (s, first :: second :: third :: rest) 0 =
      (between, second :: third :: rest ++ (third :: rest).drop rest.length) := by
    rw [cancelAt_eq relayStatus rfl hheap, ← hbetween, hmoved]
    rfl
  have hpassed : Passed asset second other
      (between, second :: third :: rest ++ (third :: rest).drop rest.length) := by
    refine ⟨hcancels.shape hshape hheap, (hcancels.heap_other hne).trans hheap',
      ⟨_, hmoved⟩, _, List.cons_append, ?_⟩
    rw [List.mem_append]
    rintro (h | h)
    · exact hsecond h
    · exact hsecond (List.mem_of_mem_drop h)
  unfold cancelAllOrdersForAsset
  rw [hlist, List.length_cons, List.range_succ_eq_map, List.foldl_cons, hone]
  exact (hpassed.foldl relayStatus _).heap.trans hheap'.symm

/-! ## Splits and fills -/

/-- Change each order by a function of its reference. -/
def mapOrders (s : Blotter Asset) (change : ℕ → Order Asset → Order Asset) : Blotter Asset :=
  { s with heap := fun ref => (s.heap ref).map (change ref) }

omit [DecidableEq Asset] in
theorem mapOrders_id (s : Blotter Asset) : s.mapOrders (fun _ order => order) = s := by
  unfold mapOrders
  simp

omit [DecidableEq Asset] in
theorem mapOrders_mapOrders (s : Blotter Asset) (change other : ℕ → Order Asset → Order Asset) :
    (s.mapOrders change).mapOrders other =
      s.mapOrders fun ref order => other ref (change ref order) := by
  unfold mapOrders
  simp only [Option.map_map]
  rfl

omit [DecidableEq Asset] in
theorem modifyOrder_eq_mapOrders (s : Blotter Asset) (ref : ℕ)
    (change : Order Asset → Order Asset) :
    s.modifyOrder ref change =
      s.mapOrders fun other order => if other = ref then change order else order :=
  congrArg (fun heap => { s with heap := heap }) (funext (heap_modifyOrder s ref change))

omit [DecidableEq Asset] in
theorem foldl_modifyOrder (s : Blotter Asset) {refs : List ℕ} (hnodup : refs.Nodup)
    (change : Order Asset → Order Asset) :
    refs.foldl (fun current ref => current.modifyOrder ref change) s =
      s.mapOrders fun ref order => if ref ∈ refs then change order else order := by
  induction refs generalizing s with
  | nil =>
      simp only [List.foldl_nil, List.not_mem_nil, if_false]
      exact s.mapOrders_id.symm
  | cons ref rest ih =>
      obtain ⟨hnotin, hrest⟩ := List.nodup_cons.mp hnodup
      rw [List.foldl_cons, ih _ hrest, modifyOrder_eq_mapOrders, mapOrders_mapOrders]
      congr 1
      funext other order
      by_cases hother : other = ref
      · subst hother
        simp [hnotin]
      · simp [hother]

theorem processSplit_eq (hnodup : ∀ asset, (s.listed asset).Nodup) (split : Asset × ℚ) :
    s.processSplit setting split = s.mapOrders fun ref order =>
      if ref ∈ s.listed split.1 then order.handleSplit setting.toDouble split.2 else order := by
  unfold processSplit
  by_cases hcontains : s.openOrders.contains split.1 = true
  · rw [if_pos hcontains]
    exact foldl_modifyOrder s (hnodup split.1) fun order =>
      order.handleSplit setting.toDouble split.2
  · have hempty : s.listed split.1 = [] := by
      unfold listed Dict.getD
      rw [Option.not_isSome_iff_eq_none.mp hcontains]
      rfl
    rw [if_neg hcontains, hempty]
    simp only [List.not_mem_nil, if_false]
    exact s.mapOrders_id.symm

/-- An order at a reference after the splits of the assets that list it. -/
def splitAt (toDouble : ℚ → ℚ) (listed : Asset → List ℕ) (splits : List (Asset × ℚ)) (ref : ℕ)
    (order : Order Asset) : Order Asset :=
  splits.foldl (fun current split =>
    if ref ∈ listed split.1 then current.handleSplit toDouble split.2 else current) order

theorem processSplits_eq (setting : Setting Asset) (hnodup : ∀ asset, (s.listed asset).Nodup)
    (splits : List (Asset × ℚ)) :
    s.processSplits setting splits = s.mapOrders (splitAt setting.toDouble s.listed splits) := by
  unfold processSplits
  induction splits generalizing s with
  | nil => exact s.mapOrders_id.symm
  | cons split rest ih =>
      rw [List.foldl_cons, processSplit_eq hnodup, ih (s := s.mapOrders _) hnodup,
        mapOrders_mapOrders]
      rfl

omit [DecidableEq Asset] in
theorem splitAt_same (toDouble : ℚ → ℚ) (listed : Asset → List ℕ) (splits : List (Asset × ℚ))
    (ref : ℕ) (order : Order Asset) :
    (splitAt toDouble listed splits ref order).id = order.id ∧
      (splitAt toDouble listed splits ref order).asset = order.asset ∧
        (splitAt toDouble listed splits ref order).status = order.status := by
  unfold splitAt
  induction splits generalizing order with
  | nil => exact ⟨rfl, rfl, rfl⟩
  | cons split rest ih =>
      rw [List.foldl_cons]
      obtain ⟨hid, hasset, hstatus⟩ := ih (if ref ∈ listed split.1 then
        order.handleSplit toDouble split.2 else order)
      rw [hid, hasset, hstatus]
      split
      · exact ⟨rfl, rfl, rfl⟩
      · exact ⟨rfl, rfl, rfl⟩

theorem splitAt_eq (hshape : s.Shape) (hheap : s.heap ref = some order)
    (hopen : order.isOpen = true) (toDouble : ℚ → ℚ) (splits : List (Asset × ℚ)) :
    splitAt toDouble s.listed splits ref order = splitBy toDouble splits order := by
  have hmem : ∀ asset, ref ∈ s.listed asset ↔ asset = order.asset := by
    intro asset
    rw [hshape.listed]
    constructor
    · rintro ⟨found, hfound, rfl, -⟩
      rw [hheap] at hfound
      cases hfound
      rfl
    · rintro rfl
      exact ⟨order, hheap, rfl, hopen⟩
  unfold splitAt splitBy
  simp only [hmem]

/-- An order at a reference after the fills of it. -/
def fillAt (calculate : Order Asset → Fill → ℚ) (fills : List Fill) (ref : ℕ)
    (order : Order Asset) : Order Asset :=
  fills.foldl (fun current fill =>
    if fill.ref = ref then filledBy calculate fill current else current) order

omit [DecidableEq Asset] in
theorem fillAt_same (calculate : Order Asset → Fill → ℚ) (fills : List Fill) (ref : ℕ)
    (order : Order Asset) :
    (fillAt calculate fills ref order).id = order.id ∧
      (fillAt calculate fills ref order).asset = order.asset ∧
        (fillAt calculate fills ref order).status = order.status := by
  unfold fillAt
  induction fills generalizing order with
  | nil => exact ⟨rfl, rfl, rfl⟩
  | cons fill rest ih =>
      rw [List.foldl_cons]
      obtain ⟨hid, hasset, hstatus⟩ := ih (if fill.ref = ref then
        filledBy calculate fill order else order)
      rw [hid, hasset, hstatus]
      split
      · exact ⟨rfl, rfl, rfl⟩
      · exact ⟨rfl, rfl, rfl⟩

omit [DecidableEq Asset] in
theorem openAmount_fillAt (calculate : Order Asset → Fill → ℚ) (fills : List Fill) (ref : ℕ)
    (order : Order Asset) :
    (fillAt calculate fills ref order).openAmount = order.openAmount -
      (fills.map fun fill => if fill.ref = ref then fill.amount else 0).sum := by
  unfold fillAt
  induction fills generalizing order with
  | nil => simp
  | cons fill rest ih =>
      rw [List.foldl_cons, ih, List.map_cons, List.sum_cons]
      by_cases href : fill.ref = ref
      · rw [if_pos href, if_pos href]
        unfold filledBy Order.openAmount
        dsimp only
        ring
      · rw [if_neg href, if_neg href, zero_add]

omit [DecidableEq Asset] in
theorem applyFill_blotter (calculate : Order Asset → Fill → ℚ) (current : Collected Asset)
    (fill : Fill) : (applyFill calculate current fill).blotter =
      current.blotter.mapOrders fun ref order =>
        if fill.ref = ref then filledBy calculate fill order else order := by
  unfold applyFill
  split
  next hnone =>
    have hheap : current.blotter.heap = fun ref => (current.blotter.heap ref).map fun order =>
        if fill.ref = ref then filledBy calculate fill order else order := by
      funext ref
      by_cases href : fill.ref = ref
      · rw [← href, hnone]
        rfl
      · simp [href]
    unfold mapOrders
    rw [← hheap]
  next order horder =>
    dsimp only
    rw [modifyOrder_eq_mapOrders]
    congr 1
    funext ref order
    simp only [eq_comm]

omit [DecidableEq Asset] in
/-- The orders that `get_transactions` fills, and those among them that are closed. -/
theorem foldl_applyFill (calculate : Order Asset → Fill → ℚ) (fills : List Fill)
    (current : Collected Asset) :
    (fills.foldl (applyFill calculate) current).blotter =
        current.blotter.mapOrders (fillAt calculate fills) ∧
      ∀ ref ∈ (fills.foldl (applyFill calculate) current).closedOrders,
        ref ∈ current.closedOrders ∨
          ∃ order, current.blotter.heap ref = some order ∧ order.isOpen = false := by
  induction fills generalizing current with
  | nil => exact ⟨(mapOrders_id _).symm, fun ref href => .inl href⟩
  | cons fill rest ih =>
      rw [List.foldl_cons]
      obtain ⟨hblotter, hclosed⟩ := ih (applyFill calculate current fill)
      constructor
      · rw [hblotter, applyFill_blotter, mapOrders_mapOrders]
        rfl
      · intro ref href
        rcases hclosed ref href with h | ⟨order, horder, hstatus⟩
        · unfold applyFill at h
          split at h
          next => exact .inl h
          next order horder =>
            dsimp only at h
            split at h
            next => exact .inl h
            next hclosed =>
              rcases List.mem_append.mp h with h | h
              · exact .inl h
              · rw [List.mem_singleton.mp h]
                exact .inr ⟨order, horder, Bool.eq_false_of_not_eq_true hclosed⟩
        · right
          rw [applyFill_blotter] at horder
          obtain ⟨old, hold, rfl⟩ := Option.map_eq_some_iff.mp horder
          refine ⟨old, hold, ?_⟩
          dsimp only at hstatus
          split at hstatus
          · exact hstatus
          · exact hstatus

/-- The same orders, listed alike. -/
structure Alike (s t : Blotter Asset) : Prop where
  heap : t.heap = s.heap
  next : t.next = s.next
  orders : t.orders = s.orders
  listed : ∀ asset, t.listed asset = s.listed asset

theorem Alike.trans {u : Blotter Asset} (hst : Alike s t) (htu : Alike t u) : Alike s u where
  heap := htu.heap.trans hst.heap
  next := htu.next.trans hst.next
  orders := htu.orders.trans hst.orders
  listed := fun asset => (htu.listed asset).trans (hst.listed asset)

theorem Alike.shape (halike : Alike s t) (hshape : s.Shape) : t.Shape := by
  apply hshape.change (fun _ order => order) ?_ halike.next halike.orders halike.listed
  · exact fun _ _ => rfl
  · exact fun _ _ => rfl
  · exact fun _ _ _ => rfl
  · exact hshape.settled
  · intro ref
    rw [halike.heap, Option.map_id']

/-- Taking out orders that are not listed changes no list. -/
theorem alike_foldl_pruneOrder {closed : List ℕ}
    (hclosed : ∀ ref ∈ closed, ∀ asset, ref ∉ s.listed asset) :
    Alike s (closed.foldl pruneOrder s) := by
  induction closed generalizing s with
  | nil => exact ⟨rfl, rfl, rfl, fun _ => rfl⟩
  | cons ref rest ih =>
      obtain ⟨href, hrest⟩ := List.forall_mem_cons.mp hclosed
      have hone : Alike s (s.pruneOrder ref) := by
        unfold pruneOrder
        split
        next => exact ⟨rfl, rfl, rfl, fun _ => rfl⟩
        next order horder =>
          refine ⟨rfl, rfl, rfl, fun asset => ?_⟩
          rw [listed_unlist]
          split
          · apply List.filter_eq_self.mpr
            intro other hother
            have hne : other ≠ ref := by
              rintro rfl
              exact href asset hother
            simpa using hne
          · rfl
      rw [List.foldl_cons]
      apply hone.trans (ih _)
      intro other hother asset
      rw [hone.listed]
      exact hrest other hother asset

/-- Dropping the empty lists. -/
theorem alike_dropEmpty (s : Blotter Asset)
    {hnodup : ((s.openOrders.entries.filter fun entry => entry.2 ≠ []).map Prod.fst).Nodup} :
    Alike s { s with openOrders :=
      ⟨s.openOrders.entries.filter fun entry => entry.2 ≠ [], hnodup⟩ } := by
  refine ⟨rfl, rfl, rfl, fun asset => ?_⟩
  set kept : Dict Asset (List ℕ) :=
    ⟨s.openOrders.entries.filter fun entry => entry.2 ≠ [], hnodup⟩ with hkept
  have hget : ∀ refs, kept.get? asset = some refs ↔
      s.openOrders.get? asset = some refs ∧ refs ≠ [] := by
    intro refs
    rw [← Dict.mem_entries_iff, ← Dict.mem_entries_iff, hkept, List.mem_filter]
    simp
  change kept.getD asset [] = s.openOrders.getD asset []
  unfold Dict.getD
  cases hold : s.openOrders.get? asset with
  | none =>
      have hnone : kept.get? asset = none := by
        rw [Option.eq_none_iff_forall_ne_some]
        intro refs h
        rw [((hget refs).mp h).1] at hold
        cases hold
      rw [hnone]
  | some refs =>
      by_cases hempty : refs = []
      · have hnone : kept.get? asset = none := by
          rw [Option.eq_none_iff_forall_ne_some]
          intro other h
          obtain ⟨hother, hne⟩ := (hget other).mp h
          rw [hold] at hother
          cases hother
          exact hne hempty
        rw [hnone, hempty]
        rfl
      · rw [(hget refs).mpr ⟨hold, hempty⟩]

theorem alike_pruneOrders {closed : List ℕ}
    (hclosed : ∀ ref ∈ closed, ∀ asset, ref ∉ s.listed asset) :
    Alike s (s.pruneOrders closed) :=
  (alike_foldl_pruneOrder hclosed).trans (alike_dropEmpty _)

/-- The fills of `get_transactions`, then the pruning. -/
theorem Shape.alike_getTransactions (hshape : s.Shape) (setting : Setting Asset)
    (models : Models Asset) :
    Alike (s.mapOrders (fillAt models.calculate
        (s.openOrders.entries.flatMap fun entry => models.simulate entry.1 entry.2)))
      (s.after setting (.getTransactions models)) := by
  set fills := s.openOrders.entries.flatMap fun entry => models.simulate entry.1 entry.2
    with hfills
  have hcollected : s.getTransactions models =
      fills.foldl (applyFill models.calculate) { blotter := s } := by
    unfold getTransactions
    rw [hfills, List.foldl_flatMap]
  obtain ⟨hblotter, hclosed⟩ := foldl_applyFill models.calculate fills { blotter := s }
  unfold Blotter.after
  dsimp only
  rw [hcollected, hblotter]
  apply alike_pruneOrders
  intro ref href asset hmem
  obtain ⟨order, horder, -, hopen⟩ := (hshape.listed asset ref).mp hmem
  rcases hclosed ref href with h | ⟨found, hfound, hstatus⟩
  · cases h
  · rw [show s.heap ref = some found from hfound] at horder
    cases horder
    rw [hopen] at hstatus
    cases hstatus

section Changes

variable {change : ℕ → Order Asset → Order Asset}

theorem Shape.mapOrders (hshape : s.Shape)
    (hsame : ∀ ref order, (change ref order).id = order.id ∧
      (change ref order).asset = order.asset ∧ (change ref order).status = order.status) :
    (s.mapOrders change).Shape := by
  apply hshape.change (t := s.mapOrders change) change (fun _ => rfl) rfl rfl (fun _ => rfl)
  · exact fun ref order => (hsame ref order).1
  · exact fun ref order => (hsame ref order).2.1
  · intro ref order _
    unfold Order.isOpen
    rw [(hsame ref order).2.2]
  · intro ref order hheap
    rw [(hsame ref order).2.2]
    exact hshape.settled ref order hheap

theorem Shape.mapOrders_listsOpen_iff (hshape : s.Shape)
    (hsame : ∀ ref order, (change ref order).id = order.id ∧
      (change ref order).asset = order.asset ∧ (change ref order).status = order.status) :
    (s.mapOrders change).ListsOpen ↔ ∀ asset, ∀ ref ∈ s.listed asset, ∀ order,
      s.heap ref = some order → (change ref order).openAmount ≠ 0 := by
  have hopen : ∀ ref order, (change ref order).isOpen = order.isOpen := by
    intro ref order
    unfold Order.isOpen
    rw [(hsame ref order).2.2]
  rw [(hshape.mapOrders hsame).listsOpen_iff]
  constructor
  · intro hall asset ref hmem order hheap
    obtain ⟨found, hfound, -, hstatus⟩ := (hshape.listed asset ref).mp hmem
    rw [hheap] at hfound
    cases hfound
    apply hall ref (change ref order)
    · exact Option.map_eq_some_iff.mpr ⟨order, hheap, rfl⟩
    · exact (hopen ref order).trans hstatus
  · intro hall ref order hheap hstatus
    obtain ⟨old, hold, rfl⟩ := Option.map_eq_some_iff.mp hheap
    rw [hopen] at hstatus
    exact hall old.asset ref ((hshape.listed old.asset ref).mpr ⟨old, hold, rfl, hstatus⟩) old hold

end Changes

theorem Alike.listsOpen_iff (halike : Alike s t) : t.ListsOpen ↔ s.ListsOpen := by
  constructor
  · rintro ⟨hnodup, hlisted⟩
    simp only [halike.listed, halike.heap] at hnodup hlisted
    exact ⟨hnodup, hlisted⟩
  · rintro ⟨hnodup, hlisted⟩
    constructor
    · simpa only [halike.listed] using hnodup
    · simpa only [halike.listed, halike.heap] using hlisted

/-! ## Runs -/

theorem Shape.after (hshape : s.Shape) {event : Event Asset} (hmeets : Meets setting s event) :
    (s.after setting event).Shape := by
  cases event with
  | setDate dt =>
      exact (show Alike s (s.setDate dt) from ⟨rfl, rfl, rfl, fun _ => rfl⟩).shape hshape
  | order asset amount style orderId madeId =>
      rw [after_order setting hmeets]
      exact hshape
  | cancel orderId relayStatus => exact (hshape.cancel orderId relayStatus).1
  | cancelAllOrdersForAsset asset relayStatus => exact (hshape.cancelsAll relayStatus hmeets).shape
  | reject orderId reason => exact (hshape.reject setting orderId reason).1
  | hold orderId reason => exact (hshape.hold orderId reason).1
  | processSplits splits =>
      unfold Blotter.after
      dsimp only
      rw [processSplits_eq setting hshape.nodup]
      exact hshape.mapOrders (splitAt_same setting.toDouble s.listed splits)
  | getTransactions models =>
      exact (hshape.alike_getTransactions setting models).shape (hshape.mapOrders (fillAt_same _ _))

/-- A call keeps what the lists are for exactly if it meets the condition. -/
theorem Shape.keeps_iff (hshape : s.Shape) (hlists : s.ListsOpen) (event : Event Asset) :
    Keeps setting s event ↔ Meets setting s event := by
  cases event with
  | setDate dt =>
      have halike : Alike s (s.setDate dt) := ⟨rfl, rfl, rfl, fun _ => rfl⟩
      exact ⟨fun _ => trivial, fun _ => ⟨trivial, halike.listsOpen_iff.mpr hlists, nofun⟩⟩
  | order asset amount style orderId madeId =>
      refine ⟨fun hkeeps => (returns_iff s _).mp hkeeps.returns, fun hmeets => ?_⟩
      refine ⟨(returns_iff s _).mpr hmeets, ?_, nofun⟩
      rw [after_order setting hmeets]
      exact hlists
  | cancel orderId relayStatus =>
      obtain ⟨hafter, hsame⟩ := hshape.cancel orderId relayStatus
      exact ⟨fun _ => trivial, fun _ => ⟨trivial, hsame.listsOpen hshape hlists hafter, nofun⟩⟩
  | cancelAllOrdersForAsset asset relayStatus =>
      constructor
      · intro hkeeps
        by_contra hmany
        match hlist : s.listed asset with
        | [] | [_] | [_, _] => simp [Meets, hlist] at hmany
        | first :: second :: third :: rest =>
            obtain ⟨order, hheap, hasset, hopen⟩ :=
              (hshape.listed asset second).mp (by simp [hlist])
            obtain ⟨cancelled, hcancelled, hstatus⟩ :=
              hkeeps.cancels asset relayStatus rfl second order hheap hasset hopen
            have hspared := hshape.spares_second hlist relayStatus
            rw [show (s.cancelAllOrdersForAsset asset relayStatus).heap second = some cancelled
              from hcancelled, hheap] at hspared
            cases hspared
            rw [Order.isOpen, hstatus] at hopen
            cases hopen
      · intro hmeets
        have hall := hshape.cancelsAll relayStatus hmeets
        refine ⟨trivial, hall.sameAmounts.listsOpen hshape hlists hall.shape, ?_⟩
        rintro _ _ ⟨⟩ ref order hheap hasset hopen
        exact hall.cancelled ref ((hshape.listed asset ref).mpr ⟨order, hheap, hasset, hopen⟩)
  | reject orderId reason =>
      obtain ⟨hafter, hsame⟩ := hshape.reject setting orderId reason
      exact ⟨fun _ => trivial, fun _ => ⟨trivial, hsame.listsOpen hshape hlists hafter, nofun⟩⟩
  | hold orderId reason =>
      obtain ⟨hafter, hsame⟩ := hshape.hold orderId reason
      exact ⟨fun _ => trivial, fun _ => ⟨trivial, hsame.listsOpen hshape hlists hafter, nofun⟩⟩
  | processSplits splits =>
      have hiff := hshape.mapOrders_listsOpen_iff (splitAt_same setting.toDouble s.listed splits)
      rw [← processSplits_eq setting hshape.nodup] at hiff
      have hsplit : ∀ asset, ∀ ref ∈ s.listed asset, ∀ order, s.heap ref = some order →
          splitAt setting.toDouble s.listed splits ref order =
            splitBy setting.toDouble splits order := by
        intro asset ref hmem order hheap
        obtain ⟨found, hfound, -, hopen⟩ := (hshape.listed asset ref).mp hmem
        rw [hheap] at hfound
        cases hfound
        exact splitAt_eq hshape hheap hopen setting.toDouble splits
      constructor
      · intro hkeeps asset ref hmem order hheap
        rw [← hsplit asset ref hmem order hheap]
        exact hiff.mp hkeeps.lists asset ref hmem order hheap
      · intro hmeets
        refine ⟨trivial, hiff.mpr fun asset ref hmem order hheap => ?_, nofun⟩
        rw [hsplit asset ref hmem order hheap]
        exact hmeets asset ref hmem order hheap
  | getTransactions models =>
      have hiff := (hshape.alike_getTransactions setting models).listsOpen_iff.trans
        (hshape.mapOrders_listsOpen_iff (fillAt_same _ _))
      simp only [openAmount_fillAt, sub_ne_zero] at hiff
      exact ⟨fun hkeeps => hiff.mp hkeeps.lists,
        fun hmeets => ⟨trivial, hiff.mpr hmeets, nofun⟩⟩

/-- The lists of a run are right exactly if each call meets the condition. -/
theorem Shape.keeps_run_iff (hshape : s.Shape) (hlists : s.ListsOpen)
    (events : List (Event Asset)) :
    Along (Blotter.after setting) (Keeps setting) s events ↔
      Along (Blotter.after setting) (Meets setting) s events := by
  induction events generalizing s with
  | nil => exact Iff.rfl
  | cons event rest ih =>
      rw [along_cons, along_cons, hshape.keeps_iff hlists]
      constructor
      · rintro ⟨hmeets, hrest⟩
        have hkeeps := (hshape.keeps_iff hlists event).mpr hmeets
        exact ⟨hmeets, (ih (hshape.after hmeets) hkeeps.lists).mp hrest⟩
      · rintro ⟨hmeets, hrest⟩
        have hkeeps := (hshape.keeps_iff hlists event).mpr hmeets
        exact ⟨hmeets, (ih (hshape.after hmeets) hkeeps.lists).mpr hrest⟩

/-! ## New blotters -/

/-- The blotter before any call. -/
def initial (currentDt : String) : Blotter Asset := { currentDt }

/-- There are no orders. -/
def Bare (s : Blotter Asset) : Prop := ∀ ref, s.heap ref = none

theorem shape_initial (Asset : Type u) [DecidableEq Asset] (currentDt : String) :
    (initial currentDt : Blotter Asset).Shape where
  fresh := fun _ _ => rfl
  stored := by simp [initial]
  listed := by simp [initial, listed]
  nodup := by simp [initial, listed]
  settled := by simp [initial]

theorem Shape.listed_of_bare (hshape : s.Shape) (hbare : s.Bare) (asset : Asset) :
    s.listed asset = [] := by
  rw [List.eq_nil_iff_forall_not_mem]
  intro ref hmem
  obtain ⟨order, hheap, -⟩ := (hshape.listed asset ref).mp hmem
  rw [hbare] at hheap
  cases hheap

omit [DecidableEq Asset] in
theorem Bare.find (hbare : s.Bare) (orderId : String) : s.find orderId = none := by
  unfold Blotter.find
  cases s.orders.get? orderId with
  | none => rfl
  | some ref =>
      rw [Option.bind_some, hbare]
      rfl

/-- Where there are no orders every call meets the condition that accepts none. -/
theorem Shape.meets_of_bare (hshape : s.Shape) (hbare : s.Bare) {event : Event Asset}
    (hdeclines : Declines event) : Meets setting s event := by
  have hnone := hshape.listed_of_bare hbare
  cases event with
  | order => exact hdeclines
  | cancelAllOrdersForAsset asset relayStatus => simp [Meets, hnone]
  | processSplits splits => simp [Meets, hnone]
  | getTransactions models => simp [Meets, hnone]
  | _ => trivial

theorem Shape.bare_after (hshape : s.Shape) (hbare : s.Bare) {event : Event Asset}
    (hdeclines : Declines event) : (s.after setting event).Bare := by
  cases event with
  | setDate dt => exact hbare
  | order asset amount style orderId madeId =>
      rw [after_order setting hdeclines]
      exact hbare
  | cancel orderId relayStatus =>
      unfold Blotter.after Blotter.cancel
      dsimp only
      rw [hbare.find]
      exact hbare
  | cancelAllOrdersForAsset asset relayStatus =>
      unfold Blotter.after Blotter.cancelAllOrdersForAsset
      dsimp only
      rw [hshape.listed_of_bare hbare]
      exact hbare
  | reject orderId reason =>
      unfold Blotter.after Blotter.reject
      dsimp only
      rw [hbare.find]
      exact hbare
  | hold orderId reason =>
      unfold Blotter.after Blotter.hold
      dsimp only
      rw [hbare.find]
      exact hbare
  | processSplits splits =>
      unfold Blotter.after
      dsimp only
      rw [processSplits_eq setting hshape.nodup]
      intro ref
      exact Option.map_eq_none_iff.mpr (hbare ref)
  | getTransactions models =>
      intro ref
      rw [(hshape.alike_getTransactions setting models).heap]
      exact Option.map_eq_none_iff.mpr (hbare ref)

/-- In every run of a new blotter: all calls come back and leave the lists of the open orders,
exactly if no order is accepted.  If there are orders in a blotter with right lists, then exactly
if no order is accepted, at most two orders are cancelled together and neither a split nor a fill
closes an order. -/
theorem keeps_along_iff (setting : Setting Asset) (events : List (Event Asset)) :
    (∀ currentDt, Along (Blotter.after setting) (Keeps setting) (initial currentDt) events ↔
      ∀ event ∈ events, Declines event) ∧
    ∀ s : Blotter Asset, s.Shape → s.ListsOpen →
      (Along (Blotter.after setting) (Keeps setting) s events ↔
        Along (Blotter.after setting) (Meets setting) s events) := by
  refine ⟨fun currentDt => ⟨fun hkeeps event hmem => ?_, fun hdeclines => ?_⟩,
    fun s hshape hlists => hshape.keeps_run_iff hlists events⟩
  · obtain ⟨before, after, rfl⟩ := List.append_of_mem hmem
    have hevent := along_iff_forall_split.mp hkeeps before event after rfl
    exact (returns_iff _ event).mp hevent.returns
  · have hshape := shape_initial Asset currentDt
    have hlists : (initial currentDt : Blotter Asset).ListsOpen :=
      hshape.listsOpen_iff.mpr (by simp [initial])
    refine (hshape.keeps_run_iff hlists events).mpr ?_
    have hbare := along_invariant (Blotter.after setting) (fun _ event => Declines event)
      (fun s => s.Shape ∧ s.Bare)
      (fun _ _ hs hevent => ⟨hs.1.after (hs.1.meets_of_bare hs.2 hevent),
        hs.1.bare_after hs.2 hevent⟩)
      ⟨hshape, fun _ => rfl⟩ (along_of_forall_mem hdeclines)
    exact hbare.mono fun _ _ h => h.1.1.meets_of_bare h.1.2 h.2

/-- Exact numbers, and a `reject` that sets the status and the reason. -/
def plainSetting : Setting ℕ where
  toDouble := id
  reject := fun order reason => { order with status := .rejected, reason := reason }
  reject_status := fun _ _ => rfl
  reject_id := fun _ _ => rfl
  reject_asset := fun _ _ => rfl

def marketOrder : ExecutionStyle := ⟨fun _ => 0, fun _ => 0⟩

/-- The first order of a new blotter crashes. -/
theorem first_order_crashes :
    ¬Along (Blotter.after plainSetting) (Keeps plainSetting) (initial "")
      [.order 7 10 marketOrder "first" ""] := by
  rintro ⟨hkeeps, -⟩
  exact hkeeps.returns _ rfl

theorem declined_orders_keep :
    Along (Blotter.after plainSetting) (Keeps plainSetting) (initial "")
      [.order 7 0 marketOrder "first" "", .cancelAllOrdersForAsset 7 true] :=
  ((keeps_along_iff plainSetting _).1 "").mpr (by simp [Declines])

/-- Three listed orders of one share for one asset. -/
def threeListed : Blotter ℕ :=
  let order (id : String) : Order ℕ :=
    { id, dt := "", asset := 7, amount := 1, stop := 0, limit := 0 }
  { heap := fun ref => match ref with
      | 0 => some (order "first")
      | 1 => some (order "second")
      | 2 => some (order "third")
      | _ => none
    next := 3
    orders := ((Dict.set ∅ "first" 0).set "second" 1).set "third" 2
    openOrders := Dict.set ∅ 7 [0, 1, 2] }

-- the second of three orders that are cancelled together is passed over
example :
    ((threeListed.cancelAllOrdersForAsset 7 true).heap 1).map Order.status = some .isOpen := by
  decide +kernel

end Trun.Finance.Blotter
