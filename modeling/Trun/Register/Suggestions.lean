import Mathlib.Data.List.Range
import Mathlib.Algebra.Order.Ring.Int
import Mathlib.Data.Nat.Cast.Order.Ring
import Trun.Program.EditDistance
import Trun.Register.Names

/-!
# The distance behind the suggested names

Both registers compute the distance of two names with two rows of costs.  The Python one compares
characters with `is`, the C++ one computes in `int`, and neither copies the first row into the
second one, so that an empty first name is at distance 0 from every other.
-/

namespace Trun.Register

open Program

/-- The integers of a language. -/
structure Integers where
  /-- A length as an integer. -/
  ofSize : ℕ → ℤ
  /-- A sum; `none` where it overflows, which leaves the behaviour undefined. -/
  add : ℤ → ℤ → Option ℤ

/-- Python's `int`. -/
def Integers.unbounded : Integers where
  ofSize size := size
  add left right := some (left + right)

/-- Integers from `-limit` up to `limit`, into which a length is converted modulo `2 * limit`. -/
def Integers.bounded (limit : ℕ) : Integers where
  ofSize size := (size : ℤ).bmod (2 * limit)
  add left right :=
    if -limit ≤ left + right ∧ left + right < limit then some (left + right) else none

/-- Above the values of the C++ `int`. -/
def intLimit : ℕ := 2 ^ 31

variable {α : Type}

section Rows

variable (ints : Integers) (same : α → α → Bool)

/-- `r1[j + 1] = min(r1[j] + 1, r0[j + 1] + 1, r0[j] + c)`. -/
def writeCost (r0 : List ℤ) (x : α) (r1 : List ℤ) (entry : α × ℕ) : Option (List ℤ) := do
  let c := if same x entry.1 then 0 else 1
  let inserted ← ints.add (r1.getD entry.2 0) 1
  let deleted ← ints.add (r0.getD (entry.2 + 1) 0) 1
  let kept ← ints.add (r0.getD entry.2 0) c
  return r1.set (entry.2 + 1) (min (min inserted deleted) kept)

/-- One round of the outer loop: `r1` is filled, then copied to `r0`. -/
def writeRow (b : List α) (rows : List ℤ × List ℤ) (entry : α × ℕ) :
    Option (List ℤ × List ℤ) := do
  let r1 ← b.zipIdx.foldlM (writeCost ints same rows.1 entry.1)
    (rows.2.set 0 (ints.ofSize (entry.2 + 1)))
  return (r1, r1)

/-- The loops over both texts, and `r1[len(b)]`. -/
def lastCost (a b : List α) (r0 : List ℤ) : Option ℤ := do
  let rows ← a.zipIdx.foldlM (writeRow ints same b) (r0, List.replicate (b.length + 1) 0)
  return rows.2.getD b.length 0

end Rows

abbrev CodePoint := Fin 0x110000

/-- `x is y` for the characters of two strings: there is one object for each of the first 256
characters, and a new one each time for any other. -/
def sameObject (x y : CodePoint) : Bool := x = y && x.val < 256

def editdistance (a b : List CodePoint) : Option ℤ :=
  lastCost .unbounded sameObject a b ((List.range (b.length + 1)).map Nat.cast)

/-- `std::iota`. -/
def iota (ints : Integers) : ℕ → ℤ → Option (List ℤ)
  | 0, _ => some []
  | size + 1, value => do
      let rest ← iota ints size (← ints.add value 1)
      return value :: rest

/-- The C++ `editDistance(a, b)`, on bytes. -/
def editDistance (a b : List UInt8) : Option ℤ := do
  let r0 ← iota (.bounded intLimit) (b.length + 1) 0
  lastCost (.bounded intLimit) (fun x y => x = y) a b r0

example : editdistance [0x61, 0x62] [0x62, 0x61, 0x62] = some 1 := by decide
example : editDistance [97, 98] [98, 97, 98] = some 1 := by decide

/-! ## Loops over the characters and their indices -/

section Loops

variable {σ : Type} {body : σ → α × ℕ → Option σ}

private theorem foldlM_zipIdx_from (inv : ℕ → σ → Prop) (items : List α) (start : ℕ)
    (hbody : ∀ i x state, items[i]? = some x → inv (start + i) state →
      ∃ after, body state (x, start + i) = some after ∧ inv (start + i + 1) after)
    {state : σ} (hstate : inv start state) :
    ∃ last, (items.zipIdx start).foldlM body state = some last ∧
      inv (start + items.length) last := by
  induction items generalizing start state with
  | nil => exact ⟨state, rfl, hstate⟩
  | cons x rest ih =>
      obtain ⟨after, hafter, hinv⟩ := hbody 0 x state rfl hstate
      obtain ⟨last, hlast, hinv'⟩ := ih (start + 1) (fun i y state hy hinv => by
        rw [Nat.add_right_comm, Nat.add_assoc start] at hinv ⊢
        exact hbody (i + 1) y state hy hinv) hinv
      refine ⟨last, ?_, ?_⟩
      · rw [List.zipIdx_cons, List.foldlM_cons]
        exact (congrArg (· >>= _) hafter).trans hlast
      · rw [List.length_cons, ← Nat.add_assoc, Nat.add_right_comm]
        exact hinv'

/-- A loop whose rounds keep an invariant of the number of rounds. -/
theorem foldlM_zipIdx (inv : ℕ → σ → Prop) (items : List α)
    (hbody : ∀ i x state, items[i]? = some x → inv i state →
      ∃ after, body state (x, i) = some after ∧ inv (i + 1) after)
    {state : σ} (hstate : inv 0 state) :
    ∃ last, items.zipIdx.foldlM body state = some last ∧ inv items.length last := by
  have h := foldlM_zipIdx_from inv items 0 (by simpa only [Nat.zero_add] using hbody)
    hstate
  simpa only [Nat.zero_add] using h

/-- What every round keeps, the loop keeps. -/
theorem foldlM_keeps (inv : σ → Prop) {entries : List (α × ℕ)} {state last : σ}
    (hbody : ∀ entry state after, inv state → body state entry = some after → inv after)
    (hstate : inv state) (hlast : entries.foldlM body state = some last) : inv last := by
  induction entries generalizing state with
  | nil =>
      cases hlast
      exact hstate
  | cons entry rest ih =>
      rw [List.foldlM_cons] at hlast
      obtain ⟨after, hafter, hrest⟩ := Option.bind_eq_some_iff.mp hlast
      exact ih (hbody entry state after hstate hafter) hrest

/-- A loop with a round that has no outcome has none. -/
theorem foldlM_eq_none (inv : σ → Prop) {entries : List (α × ℕ)} {entry : α × ℕ} {state : σ}
    (hbody : ∀ entry state after, inv state → body state entry = some after → inv after)
    (hentry : entry ∈ entries) (hnone : ∀ state, inv state → body state entry = none)
    (hstate : inv state) : entries.foldlM body state = none := by
  obtain ⟨before, after, rfl⟩ := List.append_of_mem hentry
  rw [List.foldlM_append]
  refine Option.bind_eq_none_iff.mpr fun middle hmiddle => ?_
  rw [List.foldlM_cons, hnone middle (foldlM_keeps inv hbody hstate hmiddle)]
  rfl

end Loops

/-! ## What the rows hold -/

/-- The row holds the costs up to an index, for the text `p` and the prefixes of `b`. -/
structure Row (same : α → α → Bool) (p b : List α) (upTo : ℕ) (row : List ℤ) : Prop where
  length_eq : row.length = b.length + 1
  cost : ∀ j ≤ upTo, row.getD j 0 = editCost (same · ·) p (b.take j)

section Rows

variable {ints : Integers} {same : α → α → Bool} {a b p : List α} {row r0 r1 : List ℤ} {i j : ℕ}

/-- The sums that the loops ask for. -/
def Integers.Adds (ints : Integers) (a b : List α) : Prop :=
  ∀ cost : ℕ, cost ≤ max a.length b.length → ∀ c : ℕ, c ≤ 1 →
    ints.add cost c = some ((cost : ℤ) + c)

theorem editCost_take_le (same : α → α → Bool) (hp : p.length ≤ a.length) (b : List α) (j : ℕ) :
    editCost (same · ·) p (b.take j) ≤ max a.length b.length := by
  refine (editCost_le_max p (b.take j)).trans ?_
  have hb : (b.take j).length ≤ b.length := List.length_take_le' j b
  omega

/-- One cost is written. -/
theorem writeCost_spec (hadds : ints.Adds a b) {x y : α} (hp : p.length < a.length)
    (hy : b[j]? = some y) (hr0 : Row same p b b.length r0) (hr1 : Row same (p ++ [x]) b j r1) :
    ∃ after, writeCost ints same r0 x r1 (y, j) = some after ∧
      Row same (p ++ [x]) b (j + 1) after := by
  obtain ⟨hj, hget⟩ := List.getElem?_eq_some_iff.mp hy
  have hpx : (p ++ [x]).length ≤ a.length := by
    rw [List.length_append, List.length_singleton]
    exact hp
  have htake : b.take (j + 1) = b.take j ++ [y] := by
    rw [List.take_add_one, hy]
    rfl
  have hinserted := hadds _ (editCost_take_le same hpx b j) 1 le_rfl
  have hdeleted := hadds _ (editCost_take_le same hp.le b (j + 1)) 1 le_rfl
  have hkept := hadds _ (editCost_take_le same hp.le b j) (if same x y then 0 else 1)
    (by split <;> omega)
  refine ⟨r1.set (j + 1) (editCost (same · ·) (p ++ [x]) (b.take (j + 1)) : ℕ), ?_, ?_, ?_⟩
  · simp only [Nat.cast_one, Nat.cast_ite, Nat.cast_zero] at hinserted hdeleted hkept
    rw [writeCost, hr1.cost j le_rfl, hr0.cost (j + 1) hj, hr0.cost j hj.le]
    simp only [hinserted, hdeleted, hkept, Option.bind_eq_bind, Option.bind_some]
    rw [htake, editCost_concat, ← htake]
    push_cast
    rfl
  · rw [List.length_set, hr1.length_eq]
  · intro k hk
    have hlength : j + 1 < r1.length := by
      rw [hr1.length_eq]
      exact Nat.succ_lt_succ hj
    rw [List.getD_eq_getElem?_getD, List.getElem?_set]
    rcases eq_or_ne (j + 1) k with rfl | hne
    · rw [if_pos rfl, if_pos hlength]
      rfl
    · rw [if_neg hne, ← List.getD_eq_getElem?_getD]
      exact hr1.cost k (by omega)

/-- One round of the outer loop. -/
theorem writeRow_spec (hadds : b ≠ [] → ints.Adds a b) {x : α} {rows : List ℤ × List ℤ}
    (hp : p.length < a.length) (hsize : ints.ofSize (p.length + 1) = (p.length + 1 : ℕ))
    (hr0 : Row same p b b.length rows.1) (hr1 : rows.2.length = b.length + 1) :
    ∃ after, writeRow ints same b rows (x, p.length) = some after ∧
      Row same (p ++ [x]) b b.length after.1 ∧ after.2 = after.1 := by
  have hstart : Row same (p ++ [x]) b 0 (rows.2.set 0 (ints.ofSize (p.length + 1))) := by
    refine ⟨by rw [List.length_set, hr1], fun j hj => ?_⟩
    rw [Nat.le_zero.mp hj, List.getD_eq_getElem?_getD, List.getElem?_set, if_pos rfl,
      if_pos (by omega), List.take_zero, editCost_nil_right, hsize]
    simp
  obtain ⟨last, hlast, hrow⟩ := foldlM_zipIdx (Row same (p ++ [x]) b) b
    (fun j y row hy hrow => writeCost_spec (hadds (List.ne_nil_of_mem (List.mem_of_getElem? hy)))
      hp hy hr0 hrow) hstart
  exact ⟨(last, last), by rw [writeRow, hlast]; rfl, hrow, rfl⟩

/-- The two rows after `i` rounds. -/
structure Rounds (same : α → α → Bool) (a b : List α) (i : ℕ) (rows : List ℤ × List ℤ) :
    Prop where
  length_eq : rows.2.length = b.length + 1
  row : Row same (a.take i) b b.length rows.1
  /-- Before the first round `r1` is not a copy, but zeros. -/
  copied : rows.2 = if i = 0 then List.replicate (b.length + 1) 0 else rows.1

theorem Rounds.step (hadds : b ≠ [] → ints.Adds a b)
    (hsize : ∀ k, k < a.length → ints.ofSize (k + 1) = (k + 1 : ℕ)) {x : α}
    {rows : List ℤ × List ℤ} (hx : a[i]? = some x) (hrounds : Rounds same a b i rows) :
    ∃ after, writeRow ints same b rows (x, i) = some after ∧ Rounds same a b (i + 1) after := by
  obtain ⟨hi, -⟩ := List.getElem?_eq_some_iff.mp hx
  have hlength : (a.take i).length = i := List.length_take_of_le hi.le
  have hp : (a.take i).length < a.length := hlength.trans_lt hi
  obtain ⟨after, hafter, hrow, hsame⟩ :=
    writeRow_spec (x := x) hadds hp (hsize _ hp) hrounds.row hrounds.length_eq
  rw [hlength] at hafter
  refine ⟨after, hafter, by rw [hsame, hrow.length_eq], ?_, ?_⟩
  · rw [List.take_add_one, hx]
    exact hrow
  · rw [if_neg (Nat.succ_ne_zero i)]
    exact hsame

/-- The loops compute the distance, if the first text is not empty. -/
theorem lastCost_spec (hadds : b ≠ [] → ints.Adds a b)
    (hsize : ∀ k, k < a.length → ints.ofSize (k + 1) = (k + 1 : ℕ)) :
    lastCost ints same a b ((List.range (b.length + 1)).map Nat.cast) =
      some ((if a = [] then 0 else editCost (same · ·) a b : ℕ) : ℤ) := by
  have hr0 : Row same [] b b.length ((List.range (b.length + 1)).map Nat.cast) := by
    refine ⟨by simp, fun j hj => ?_⟩
    rw [List.getD_eq_getElem?_getD, List.getElem?_map, List.getElem?_range (by omega)]
    simp [hj]
  have hstart : Rounds same a b 0
      ((List.range (b.length + 1)).map Nat.cast, List.replicate (b.length + 1) 0) :=
    ⟨List.length_replicate, hr0, rfl⟩
  obtain ⟨last, hlast, hrounds⟩ := foldlM_zipIdx (Rounds same a b) a
    (fun _ _ _ hx hrounds => hrounds.step hadds hsize hx) hstart
  have hvalue : last.2.getD b.length 0 =
      (if a = [] then 0 else editCost (same · ·) a b : ℕ) := by
    cases a with
    | nil =>
        rw [hrounds.copied, List.length_nil, if_pos rfl, if_pos rfl,
          List.getD_eq_getElem?_getD, List.getElem?_replicate, if_pos (Nat.lt_succ_self _)]
        rfl
    | cons x rest =>
        rw [hrounds.copied, List.length_cons, if_neg (Nat.succ_ne_zero _),
          if_neg (List.cons_ne_nil x rest),
          hrounds.row.cost b.length le_rfl, List.take_length, List.take_length]
  rw [lastCost, hlast]
  exact congrArg some hvalue

end Rows

/-! ## The integers of the two languages -/

theorem unbounded_adds (a b : List α) : Integers.unbounded.Adds a b := fun _ _ _ _ => rfl

section Bounded

variable {limit : ℕ}

/-- The lengths that the C++ loops can count. -/
def Fits (limit : ℕ) (a b : List α) : Prop :=
  b.length + 1 < limit ∧ if b = [] then a.length < limit else a.length + 1 < limit

theorem bounded_ofSize {size : ℕ} (hsize : size < limit) :
    (Integers.bounded limit).ofSize size = size :=
  Int.bmod_eq_of_le (by omega) (by omega)

theorem bounded_add (left right : ℕ) (hfits : left + right < limit) :
    (Integers.bounded limit).add left right = some (left + right) := if_pos (by omega)

theorem bounded_add_eq_none (left right : ℕ) (hfits : ¬left + right < limit) :
    (Integers.bounded limit).add left right = none := if_neg (by omega)

theorem Fits.adds {a b : List α} (hfits : Fits limit a b) (hb : b ≠ []) :
    (Integers.bounded limit).Adds a b := by
  obtain ⟨hb', ha⟩ := hfits
  rw [if_neg hb] at ha
  intro cost hcost c hc
  have hmax : max a.length b.length + 1 < limit := by omega
  exact bounded_add cost c (by omega)

theorem iota_bounded (size start : ℕ) (hfits : start + size < limit) :
    iota (.bounded limit) size start = some ((List.range' start size).map Nat.cast) := by
  induction size generalizing start with
  | zero => rfl
  | succ size ih =>
      have hadd : (Integers.bounded limit).add start 1 = some ((start + 1 : ℕ) : ℤ) :=
        bounded_add start 1 (by omega)
      rw [iota, hadd]
      exact congrArg (· >>= _) (ih (start + 1) (by omega))

theorem iota_bounded_eq_none (size start : ℕ) (hstart : start < limit)
    (hfits : ¬start + size < limit) : iota (.bounded limit) size start = none := by
  induction size generalizing start with
  | zero => exact absurd hstart hfits
  | succ size ih =>
      rw [iota]
      by_cases hlast : start + 1 < limit
      · have hadd : (Integers.bounded limit).add start 1 = some ((start + 1 : ℕ) : ℤ) :=
          bounded_add start 1 hlast
        rw [hadd]
        exact congrArg (· >>= _) (ih (start + 1) hlast (by omega))
      · have hadd : (Integers.bounded limit).add start 1 = none :=
          bounded_add_eq_none start 1 hlast
        rw [hadd]
        rfl

theorem writeCost_length {ints : Integers} {same : α → α → Bool} {r0 r1 after : List ℤ} {x : α}
    {entry : α × ℕ} (hrun : writeCost ints same r0 x r1 entry = some after) :
    after.length = r1.length := by
  simp only [writeCost, Option.bind_eq_bind, Option.bind_eq_some_iff, Option.pure_def,
    Option.some.injEq] at hrun
  obtain ⟨_, _, _, _, _, _, rfl⟩ := hrun
  exact List.length_set

theorem writeRow_length {ints : Integers} {same : α → α → Bool} {b : List α}
    {rows after : List ℤ × List ℤ} {entry : α × ℕ}
    (hrun : writeRow ints same b rows entry = some after) :
    after.2.length = rows.2.length := by
  rw [writeRow] at hrun
  obtain ⟨r1, hr1, hafter⟩ := Option.bind_eq_some_iff.mp hrun
  cases hafter
  have hlength := foldlM_keeps
    (fun row => row.length = (rows.2.set 0 (ints.ofSize (entry.2 + 1))).length)
    (fun _ _ _ hlength hrun => (writeCost_length hrun).trans hlength) rfl hr1
  rwa [List.length_set] at hlength

/-- A first text that is too long has a round that overflows. -/
theorem lastCost_bounded_eq_none {same : α → α → Bool} {a b : List α} (r0 : List ℤ) (hb : b ≠ [])
    (hlimit : 1 < limit) (hlong : ¬a.length + 1 < limit) :
    lastCost (.bounded limit) same a b r0 = none := by
  obtain ⟨y, rest, rfl⟩ := List.exists_cons_of_ne_nil hb
  have hi : limit - 2 < a.length := by omega
  have hmem : (a[limit - 2], limit - 2) ∈ a.zipIdx :=
    List.mk_mem_zipIdx_iff_getElem?.mpr (List.getElem?_eq_getElem hi)
  have hsize : (Integers.bounded limit).ofSize (limit - 2 + 1) = (limit - 2 + 1 : ℕ) :=
    bounded_ofSize (by omega)
  have hadd : (Integers.bounded limit).add (limit - 2 + 1 : ℕ) 1 = none :=
    bounded_add_eq_none (limit - 2 + 1) 1 (by omega)
  have hrows : a.zipIdx.foldlM (writeRow (.bounded limit) same (y :: rest))
      (r0, List.replicate ((y :: rest).length + 1) 0) = none := by
    refine foldlM_eq_none (fun rows => rows.2.length = (y :: rest).length + 1)
      (fun _ _ _ hlength hrun => (writeRow_length hrun).trans hlength) hmem
      (fun rows hlength => ?_) List.length_replicate
    have hfirst : (rows.2.set 0 ((limit - 2 + 1 : ℕ) : ℤ)).getD 0 0 = (limit - 2 + 1 : ℕ) := by
      rw [List.getD_eq_getElem?_getD, List.getElem?_set, if_pos rfl, if_pos (by omega)]
      rfl
    rw [writeRow, hsize, List.zipIdx_cons, List.foldlM_cons, writeCost, hfirst, hadd]
    rfl
  rw [lastCost, hrows]
  rfl

/-- Against an empty text the loops count with lengths that are converted. -/
theorem lastCost_bounded_lt {same : α → α → Bool} {a : List α} {r0 : List ℤ} {cost : ℤ}
    (hlimit : 0 < limit) (hcost : lastCost (.bounded limit) same a [] r0 = some cost) :
    cost < limit := by
  rw [lastCost] at hcost
  obtain ⟨rows, hrows, hvalue⟩ := Option.bind_eq_some_iff.mp hcost
  cases hvalue
  have hpos : (0 : ℤ) < limit := Int.natCast_pos.mpr hlimit
  refine foldlM_keeps (fun rows => rows.2.getD 0 0 < (limit : ℤ)) ?_ hpos hrows
  intro entry rows after _ hrun
  cases hrun
  rw [List.getD_eq_getElem?_getD, List.getElem?_set, if_pos rfl]
  split
  · exact lt_of_lt_of_eq (Int.bmod_lt (by omega)) (by omega)
  · exact hpos

end Bounded

/-! ## The edit distance -/

/-- The call returns the least number of edits. -/
def ReturnsLeast (cost : Option ℤ) (a b : List α) : Prop :=
  ∃ n : ℕ, cost = some (n : ℤ) ∧ IsLeast {k | Edits k a b} n

theorem editdistance_eq (a b : List CodePoint) :
    editdistance a b = some ((if a = [] then 0 else editCost (sameObject · ·) a b : ℕ) : ℤ) :=
  lastCost_spec (fun _ => unbounded_adds a b) fun _ _ => rfl

theorem intLimit_gt_one : 1 < intLimit := by decide

theorem editDistance_eq {a b : List UInt8} (hfits : Fits intLimit a b) :
    editDistance a b = some ((if a = [] then 0 else levenshtein a b : ℕ) : ℤ) := by
  have hiota := iota_bounded (b.length + 1) 0 ((Nat.zero_add (b.length + 1)).symm ▸ hfits.1)
  have hsize : ∀ k, k < a.length → (Integers.bounded intLimit).ofSize (k + 1) = (k + 1 : ℕ) := by
    intro k hk
    have ha := hfits.2
    apply bounded_ofSize
    split at ha <;> omega
  rw [editDistance]
  refine (congrArg (· >>= _) hiota).trans ?_
  rw [← List.range_eq_range']
  refine (lastCost_spec hfits.adds hsize).trans ?_
  simp only [levenshtein, decide_eq_true_eq]

/-- Lengths that do not fit leave the call without the distance. -/
theorem editDistance_of_not_fits {a b : List UInt8} (hfits : ¬Fits intLimit a b) (cost : ℕ)
    (hcost : editDistance a b = some (cost : ℤ)) : cost ≠ levenshtein a b := by
  have hlimit := intLimit_gt_one
  rw [editDistance] at hcost
  obtain ⟨r0, hr0, hlast⟩ := Option.bind_eq_some_iff.mp hcost
  have hb : b.length + 1 < intLimit := by
    by_contra hlong
    have hnone := iota_bounded_eq_none (b.length + 1) 0 (Nat.zero_lt_of_lt hlimit)
      (by rwa [Nat.zero_add])
    exact Option.some_ne_none _ (hr0.symm.trans hnone)
  have ha : ¬if b = [] then a.length < intLimit else a.length + 1 < intLimit := fun ha =>
    hfits ⟨hb, ha⟩
  split at ha <;> rename_i hempty
  · subst hempty
    have hlt := lastCost_bounded_lt (Nat.zero_lt_of_lt hlimit) hlast
    rw [levenshtein, editCost_nil_right]
    omega
  · rw [lastCost_bounded_eq_none r0 hempty hlimit ha] at hlast
    cases hlast

theorem returnsLeast_iff {cost : ℕ} {a b : List α} [DecidableEq α] :
    ReturnsLeast (some (cost : ℤ)) a b ↔ cost = levenshtein a b := by
  constructor
  · rintro ⟨n, hn, hleast⟩
    rw [Option.some.injEq, Nat.cast_inj] at hn
    exact hn.trans (hleast.unique (isLeast_levenshtein a b))
  · rintro rfl
    exact ⟨_, rfl, isLeast_levenshtein a b⟩

/-- The C++ distance is the edit distance just of texts that it can count, unless the first one
alone is empty; for the Python one the characters that some cheapest alignment keeps have to be
single objects, too. -/
theorem editDistances_least (a b : List CodePoint) (s t : List UInt8) :
    (ReturnsLeast (editdistance a b) a b ↔
      (a ≠ [] ∨ b = []) ∧
        ∃ n, Aligned (sameObject · ·) a b n ∧ IsLeast {k | Edits k a b} n) ∧
    (ReturnsLeast (editDistance s t) s t ↔ (s ≠ [] ∨ t = []) ∧ Fits intLimit s t) := by
  constructor
  · rw [editdistance_eq, returnsLeast_iff]
    by_cases ha : a = []
    · subst ha
      rw [if_pos rfl]
      constructor
      · intro hzero
        have hb : b = [] := ((levenshtein_eq_zero_iff [] b).mp hzero.symm).symm
        subst hb
        exact ⟨.inr rfl, 0, .nil, isLeast_levenshtein [] []⟩
      · rintro ⟨hb, -⟩
        rw [hb.resolve_left (by simp)]
        rfl
    · rw [if_neg ha]
      constructor
      · intro hdistance
        refine ⟨.inl ha, _, aligned_editCost _ a b, ?_⟩
        rw [hdistance]
        exact isLeast_levenshtein a b
      · rintro ⟨-, n, haligned, hleast⟩
        have hn := hleast.unique (isLeast_levenshtein a b)
        apply le_antisymm (hn ▸ haligned.editCost_le)
        have hsame : Aligned Eq a b (editCost (sameObject · ·) a b) :=
          (aligned_editCost _ a b).mono fun x y h => by simpa using (Bool.and_eq_true_iff.mp h).1
        exact hsame.editCost_le
  · by_cases hfits : Fits intLimit s t
    · rw [editDistance_eq hfits, returnsLeast_iff]
      by_cases hs : s = []
      · subst hs
        rw [if_pos rfl, eq_comm, levenshtein_eq_zero_iff]
        simp [hfits, eq_comm]
      · simp [hs, hfits]
    · refine iff_of_false ?_ fun h => hfits h.2
      rintro ⟨n, hn, hleast⟩
      exact editDistance_of_not_fits hfits n hn (hleast.unique (isLeast_levenshtein s t))

/-- The distance of nothing from a name, and of a name with a character above the first 256 from
itself. -/
theorem empty_name_has_no_distance :
    editdistance [] [0x61] = some 0 ∧ ¬ReturnsLeast (editdistance [] [0x61]) [] [0x61] ∧
      ¬ReturnsLeast (editdistance [0x3b1] [0x3b1]) [0x3b1] [0x3b1] ∧
      editDistance [] [97] = some 0 ∧ ¬ReturnsLeast (editDistance [] [97]) [] [97] := by
  have hpython : editdistance [] [0x61] = some ((0 : ℕ) : ℤ) := by decide
  have hgreek : editdistance [0x3b1] [0x3b1] = some ((1 : ℕ) : ℤ) := by decide
  have hcpp : editDistance [] [97] = some ((0 : ℕ) : ℤ) := by decide
  refine ⟨hpython, ?_, ?_, hcpp, ?_⟩
  · rw [hpython, returnsLeast_iff]
    decide
  · rw [hgreek, returnsLeast_iff]
    decide
  · rw [hcpp, returnsLeast_iff]
    decide

/-! ## The distance in the message -/

section Message

open Names (nextRow isSameObject)

def codePoint (c : Char) : CodePoint :=
  ⟨c.toNat, by
    have hvalid := c.valid
    simp only [UInt32.isValidChar, Nat.isValidChar] at hvalid
    change c.val.toNat < 0x110000
    omega⟩

theorem sameObject_codePoint (x y : Char) :
    sameObject (codePoint x) (codePoint y) = isSameObject x y := by
  have hval : codePoint x = codePoint y ↔ x = y := by
    constructor
    · intro h
      exact Char.toNat_inj.mp (congrArg (fun point : CodePoint => point.val) h)
    · exact congrArg codePoint
  simp only [sameObject, isSameObject, hval]
  rfl

theorem editCost_map {β : Type} (f : α → β) (same : β → β → Bool) (a b : List α) :
    editCost (same · ·) (a.map f) (b.map f) = editCost (fun x y => same (f x) (f y)) a b := by
  induction a generalizing b with
  | nil => simp
  | cons x a iha =>
      induction b with
      | nil => simp
      | cons y b ihb =>
          have hinserted := ihb
          have hdeleted := iha (y :: b)
          rw [List.map_cons] at hinserted hdeleted
          rw [List.map_cons, List.map_cons, editCost_cons, editCost_cons, hinserted, hdeleted,
            iha b]

/-- The costs for the text `p` and the prefixes of `done ++ rest` from `done` on. -/
def costsFrom (p : List Char) : List Char → List Char → List ℕ
  | done, [] => [editCost (isSameObject · ·) p done]
  | done, y :: rest => editCost (isSameObject · ·) p done :: costsFrom p (done ++ [y]) rest

theorem costsFrom_eq_cons (p done rest : List Char) : costsFrom p done rest =
    editCost (isSameObject · ·) p done :: (costsFrom p done rest).tail := by
  cases rest <;> rfl

theorem nextRow_eq (x : Char) (p done rest : List Char) :
    nextRow x (editCost (isSameObject · ·) (p ++ [x]) done) rest (costsFrom p done rest) =
      (costsFrom (p ++ [x]) done rest).tail := by
  induction rest generalizing done with
  | nil => rfl
  | cons y rest ih =>
      have hrest := ih (done ++ [y])
      rw [costsFrom_eq_cons p (done ++ [y])] at hrest
      rw [costsFrom, costsFrom_eq_cons p (done ++ [y]), nextRow, ← min_assoc]
      rw [← editCost_concat, hrest]
      exact (costsFrom_eq_cons (p ++ [x]) (done ++ [y]) rest).symm

theorem costsFrom_nil (done rest : List Char) :
    costsFrom [] done rest = List.range' done.length (rest.length + 1) := by
  induction rest generalizing done with
  | nil => rfl
  | cons y rest ih =>
      rw [costsFrom, ih, List.length_append, List.length_singleton]
      rfl

theorem getD_costsFrom (p done rest : List Char) :
    (costsFrom p done rest).getD rest.length 0 = editCost (isSameObject · ·) p (done ++ rest) := by
  induction rest generalizing done with
  | nil => simp [costsFrom]
  | cons y rest ih => simpa [costsFrom] using ih (done ++ [y])

/-- The rows after the rounds for a text. -/
theorem foldl_nextRow (a b p : List Char) (r1 : List ℕ) :
    (a.zipIdx p.length).foldl
        (fun rows item =>
          let row := (item.2 + 1) :: nextRow item.1 (item.2 + 1) b rows.1
          (row, row))
        (costsFrom p [] b, r1) =
      (costsFrom (p ++ a) [] b, if a = [] then r1 else costsFrom (p ++ a) [] b) := by
  induction a generalizing p r1 with
  | nil => simp
  | cons x a ih =>
      have hrow : (p.length + 1) :: nextRow x (p.length + 1) b (costsFrom p [] b) =
          costsFrom (p ++ [x]) [] b := by
        have hnext := nextRow_eq x p [] b
        rw [editCost_nil_right, List.length_append, List.length_singleton] at hnext
        rw [hnext, costsFrom_eq_cons (p ++ [x]), editCost_nil_right, List.length_append]
        rfl
      have hrest := ih (p ++ [x]) (costsFrom (p ++ [x]) [] b)
      rw [List.length_append, List.length_singleton, List.append_assoc,
        List.singleton_append] at hrest
      rw [List.zipIdx_cons, List.foldl_cons, hrow, hrest, if_neg (List.cons_ne_nil x a)]
      split
      · rename_i hempty
        subst hempty
        rfl
      · rfl

/-- The distance by which the message about an unknown name orders the others is this one. -/
theorem editdistance_codePoints (a b : List Char) :
    editdistance (a.map codePoint) (b.map codePoint) = some (Names.editdistance a b : ℤ) := by
  have hrows := foldl_nextRow a b [] (List.replicate (b.length + 1) 0)
  rw [costsFrom_nil, List.length_nil, List.nil_append, ← List.range_eq_range'] at hrows
  have hcost : Names.editdistance a b =
      if a = [] then 0 else editCost (isSameObject · ·) a b := by
    rw [Names.editdistance, hrows]
    split
    · simp
    · exact getD_costsFrom a [] b
  rw [editdistance_eq, hcost, editCost_map]
  simp only [sameObject_codePoint, List.map_eq_nil_iff]

end Message

end Trun.Register
