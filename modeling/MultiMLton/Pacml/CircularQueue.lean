import MultiMLton.Lib.Ring

/-!
# The circular queue of `util/circular-queue.sml`

`CirQueue` holds its elements in an array of options, with a read pointer `rp` (`-1` when the
queue is empty), a write pointer `wp` and the array's size.  `enque` doubles the array when
the pointers meet; `deque` ends with `shrink`, which halves it while the live elements fit.

* the operations of the structure, on the integers and with the exceptions of the source:
  `grow`, `numElements`, `getNewSize`, `shrink`, `new`, `isEmpty`, `enque`, `deque`;
* `Holds q xs`: the well-formed queue `q` holds the list `xs`, the element `i` of `xs` in the
  cell `(rp + i) mod size` and no other cell occupied;
* `enque_holds`, `deque_holds`: an operation on a well-formed queue acts on the list as on a
  FIFO queue, except where `shrink` leaves the write pointer outside the new array
  (`QuarterFull`);
* `enque_after_quarterFull`: after such a `deque` the next `enque` raises `Subscript`;
* `cirQueue_refines_fifo_iff`: a run refines FIFO lists in every state exactly when no `deque` of
  it meets that case.

SML's `mod` and `Int.div` round down; here every divisor is a positive size or element count,
where Lean's integer `%` and `/` do the same.  Integers do not overflow and allocation does not
fail.
-/

namespace MultiMLton

open List

/-- How a run of the code can end without a result. -/
inductive Abort
  | subscript
  | fail (msg : String)
  | loops
  deriving DecidableEq, Repr

/-- `CirQueue.t`, with the contents of its four references. -/
@[ext] structure CirQueue (α : Type*) where
  arr : List (Option α)
  size : ℤ
  rp : ℤ
  wp : ℤ
  deriving DecidableEq

namespace CirQueue

open Ring

variable {α : Type*}

/-! ### The code -/

/-- `Array.sub`. -/
def sub (arr : List (Option α)) (i : ℤ) : Except Abort (Option α) :=
  if 0 ≤ i then (arr[i.toNat]?).elim (.error .subscript) .ok else .error .subscript

/-- `Array.update`. -/
def update (arr : List (Option α)) (i : ℤ) (e : Option α) : Except Abort (List (Option α)) :=
  if 0 ≤ i ∧ i.toNat < arr.length then .ok (arr.set i.toNat e) else .error .subscript

/-- `Array.tabulate`. -/
def tabulate (n : ℤ) (f : ℕ → Except Abort (Option α)) : Except Abort (List (Option α)) :=
  (List.range n.toNat).mapM f

/-- `startSize`. -/
def startSize : ℤ := 2

/-- `grow`: twice the size, the cells from the read pointer on moved to the front. -/
def grow (q : CirQueue α) : Except Abort (CirQueue α) := do
  let newArr ← tabulate (q.size * 2) fun i =>
    if (i : ℤ) < q.size then sub q.arr ((q.rp + i) % q.size) else .ok none
  return ⟨newArr, q.size * 2, 0, q.size⟩

/-- `numElements`. -/
def numElements (q : CirQueue α) : ℤ :=
  if q.rp = -1 then 0 else (q.wp - q.rp + q.size) % q.size

/-- The loop `getNewSize` of `shrink`; its argument halves, so `s` calls are enough. -/
def getNewSizeLoop (live : ℤ) : ℕ → ℤ → ℤ
  | 0, s => s * 2
  | fuel + 1, s =>
    if s < live ∨ s < startSize then s * 2 else getNewSizeLoop live fuel (s / 2)

/-- `getNewSize`. -/
def getNewSize (live s : ℤ) : ℤ := getNewSizeLoop live s.toNat s

/-- `shrink`: back to the initial size when empty, otherwise a smaller array when at most a
quarter of the cells is live. -/
def shrink (q : CirQueue α) : Except Abort (CirQueue α) :=
  let live := numElements q
  if live = 0 ∧ q.size = startSize then
    .ok q
  else if live = 0 then do
    let newArr ← tabulate startSize fun _ => .ok none
    return ⟨newArr, startSize, -1, 0⟩
  else if q.size / live ≥ 4 ∧ ¬ q.size = startSize then do
    let newSize := getNewSize live q.size
    let newArray ← tabulate newSize fun i =>
      if (i : ℤ) < live then sub q.arr ((q.rp + i) % q.size) else .ok none
    return ⟨newArray, newSize, 0, live⟩
  else
    .ok q

/-- `new ()`. -/
def new : CirQueue α := ⟨[none, none], startSize, -1, 0⟩

/-- `isEmpty`. -/
def isEmpty (q : CirQueue α) : Bool := q.rp == -1

/-- `enque`. -/
def enque (q : CirQueue α) (e : Option α) : Except Abort (CirQueue α) :=
  match e with
  | none => .error (.fail "Trying to insert none-sence")
  | some v => do
    let arrv ← update q.arr q.wp (some v)
    let wpv := (q.wp + 1) % q.size
    -- an empty buffer gets its read pointer back
    let rpv := if q.rp = -1 then 0 else q.rp
    if rpv = wpv then grow ⟨arrv, q.size, rpv, wpv⟩ else return ⟨arrv, q.size, rpv, wpv⟩

/-- The loop `getElement` of `deque`: the first occupied cell from `rpv` on.  It never returns
when there is none, so the calls are counted and `loops` stands for running out of them. -/
def getElement (arr : List (Option α)) (size : ℤ) : ℕ → ℤ → Except Abort (α × ℤ)
  | 0, _ => .error .loops
  | fuel + 1, rpv => do
    match ← sub arr rpv with
    | none => getElement arr size fuel ((rpv + 1) % size)
    | some v => return (v, rpv)

/-- `deque`. -/
def deque (q : CirQueue α) : Except Abort (Option α × CirQueue α) :=
  if isEmpty q then
    .ok (none, q)
  else do
    let (v, rpv) ← getElement q.arr q.size q.arr.length q.rp
    let arrv ← update q.arr rpv none
    let rpv := (rpv + 1) % q.size
    -- the last element leaves the pointers of an empty buffer
    let ptrs : ℤ × ℤ := if rpv = q.wp then (-1, 0) else (rpv, q.wp)
    let q' ← shrink ⟨arrv, q.size, ptrs.1, ptrs.2⟩
    return (some v, q')

/-! ### Layout of the elements in the array -/

/-- The cells of an array of size `n`, read cyclically from `r`, are the elements of `xs`
followed by empty cells. -/
structure Layout (arr : List (Option α)) (n r : ℕ) (xs : List α) : Prop where
  length_eq : arr.length = n
  start_lt : r < n
  length_le : xs.length ≤ n
  cell : ∀ i < n, arr[(r + i) % n]? = some xs[i]?

variable {xs : List α} {n r : ℕ} {arr : List (Option α)}

/-- Storing an element in the first free cell. -/
theorem Layout.push (h : Layout arr n r xs) (hlt : xs.length < n) (v : α) :
    Layout (arr.set ((r + xs.length) % n) (some v)) n r (xs ++ [v]) where
  length_eq := by simp [h.length_eq]
  start_lt := h.start_lt
  length_le := by simp; omega
  cell i hi := by
    have hn : 0 < n := by omega
    by_cases hix : i = xs.length
    · subst hix
      simp [h.length_eq, rotate_lt r _ hn]
    · have hne : (r + xs.length) % n ≠ (r + i) % n := fun e =>
        hix ((rotate_inj h.start_lt hlt hi).1 e).symm
      rw [getElem?_set_ne hne, h.cell i hi]
      by_cases hil : i < xs.length
      · rw [getElem?_append_left hil]
      · rw [getElem?_eq_none (by omega), getElem?_eq_none (by simp; omega)]

/-- Emptying the first occupied cell. -/
theorem Layout.pop {x : α}
    (h : Layout arr n r (x :: xs)) : Layout (arr.set r none) n ((r + 1) % n) xs where
  length_eq := by simp [h.length_eq]
  start_lt := rotate_lt r 1 (by have := h.start_lt; omega)
  length_le := by have := h.length_le; simp at this; omega
  cell i hi := by
    have hr := h.start_lt
    have hlen := h.length_le
    rw [Nat.mod_add_mod, add_assoc]
    by_cases hin : i + 1 = n
    · have hmod : (r + (1 + i)) % n = r := by
        rw [show r + (1 + i) = r + n by omega, Nat.add_mod_right, Nat.mod_eq_of_lt hr]
      rw [hmod, getElem?_set_self (by rw [h.length_eq]; exact hr),
        getElem?_eq_none (by simp at hlen; omega)]
    · have hne : r ≠ (r + (1 + i)) % n := fun e => by
        have := (rotate_inj (i := 0) (j := 1 + i) hr (by omega) (by omega)).1
          (by simpa [Nat.mod_eq_of_lt hr] using e)
        omega
      rw [getElem?_set_ne hne, add_comm 1 i, h.cell (i + 1) (by omega),
        getElem?_cons_succ]

/-- An array without elements is laid out from any cell. -/
theorem Layout.restart (h : Layout arr n r []) {s : ℕ} (hs : s < n) : Layout arr n s [] where
  length_eq := h.length_eq
  start_lt := hs
  length_le := by simp
  cell i hi := by
    have hr := h.start_lt
    have hk : (s + i) % n < n := rotate_lt s i (by omega)
    have hcell := h.cell (((s + i) % n + n - r) % n) (Nat.mod_lt _ (by omega))
    rw [Nat.add_mod_mod, show r + ((s + i) % n + n - r) = (s + i) % n + n by omega,
      Nat.add_mod_right, Nat.mod_mod] at hcell
    simpa using hcell

/-- The array that `tabulate` builds from the live cells. -/
theorem layout_tabulated (xs : List α) {n : ℕ} (hn : 0 < n) (hle : xs.length ≤ n) :
    Layout ((List.range n).map fun i => xs[i]?) n 0 xs where
  length_eq := by simp
  start_lt := hn
  length_le := hle
  cell i hi := by simp [Nat.mod_eq_of_lt hi, hi]

/-! ### The loops -/

theorem sub_of_getElem? {k : ℕ} {e : Option α} (h : arr[k]? = some e) : sub arr k = .ok e := by
  simp [sub, h]

theorem update_of_lt {k : ℕ} (h : k < arr.length) (e : Option α) :
    update arr k e = .ok (arr.set k e) := by
  simp [update, h]

theorem mapM_eq_ok {f : ℕ → Except Abort (Option α)} {g : ℕ → Option α} {l : List ℕ}
    (h : ∀ i ∈ l, f i = .ok (g i)) : l.mapM f = .ok (l.map g) := by
  induction l with
  | nil => rfl
  | cons i l ih =>
    rw [mapM_cons, h i (by simp), ih fun j hj => h j (by simp [hj])]
    rfl

/-- Copying the live cells to the front of a new array of `m` cells. -/
theorem tabulate_live {n r m : ℕ} (h : Layout arr n r xs) {live : ℤ} (hlive : live = xs.length) :
    tabulate m (fun i => if (i : ℤ) < live then sub arr (((r : ℤ) + i) % n) else .ok none) =
      .ok ((List.range m).map fun i => xs[i]?) := by
  subst hlive
  refine mapM_eq_ok fun i _ => ?_
  by_cases hi : i < xs.length
  · rw [if_pos (by exact_mod_cast hi), intMod_rotate]
    exact sub_of_getElem? (h.cell i (lt_of_lt_of_le hi h.length_le))
  · rw [if_neg (by exact_mod_cast hi), getElem?_eq_none (by omega)]

theorem grow_eq (h : Layout arr n r xs) (hfull : xs.length = n) (wp : ℤ) : grow ⟨arr, n, r, wp⟩ =
      .ok ⟨(List.range (n * 2)).map fun i => xs[i]?, (n * 2 : ℕ), 0, n⟩ := by
  have := tabulate_live (m := n * 2) h (show (n : ℤ) = xs.length by rw [hfull])
  simp only [grow]
  push_cast at this ⊢
  rw [this]
  rfl

theorem getElement_eq {x : α}
    (h : Layout arr n r (x :: xs)) : getElement arr n arr.length r = .ok (x, (r : ℤ)) := by
  have hr := h.start_lt
  have hcell := h.cell 0 (by omega)
  rw [Nat.add_zero, Nat.mod_eq_of_lt hr] at hcell
  rw [h.length_eq]
  obtain ⟨k, rfl⟩ : ∃ k, n = k + 1 := ⟨n - 1, by omega⟩
  simp only [getElement, sub_of_getElem? hcell]
  rfl

/-! ### Well-formed queues -/

/-- The well-formed queue `q`, of size `n` and with its first element in the cell `r`, holds
the list `xs`. -/
structure HoldsAt (q : CirQueue α) (n r : ℕ) (xs : List α) : Prop where
  two_le : 2 ≤ n
  size_eq : q.size = n
  length_lt : xs.length < n
  layout : Layout q.arr n r xs
  rp_eq : q.rp = if xs = [] then -1 else (r : ℤ)
  wp_eq : q.wp = if xs = [] then 0 else (((r + xs.length) % n : ℕ) : ℤ)

/-- The well-formed queue `q` holds the list `xs`. -/
def Holds (q : CirQueue α) (xs : List α) : Prop := ∃ n r, HoldsAt q n r xs

theorem holdsAt_new : HoldsAt (new : CirQueue α) 2 0 [] where
  two_le := le_rfl
  size_eq := rfl
  length_lt := by simp
  layout := layout_tabulated (n := 2) [] (by omega) (by simp)
  rp_eq := rfl
  wp_eq := rfl

variable {q : CirQueue α}

theorem HoldsAt.isEmpty_iff (h : HoldsAt q n r xs) : isEmpty q = true ↔ xs = [] := by
  rw [isEmpty, beq_iff_eq, h.rp_eq]
  split_ifs with hxs <;> simp [hxs]

theorem Holds.isEmpty_iff (h : Holds q xs) : isEmpty q = true ↔ xs = [] := by
  obtain ⟨n, r, h⟩ := h
  exact h.isEmpty_iff

theorem HoldsAt.numElements_eq (h : HoldsAt q n r xs) : numElements q = xs.length := by
  have hr := h.layout.start_lt
  have hlen := h.length_lt
  rw [numElements, h.rp_eq, h.wp_eq, h.size_eq]
  by_cases hxs : xs = []
  · simp [hxs]
  · rw [if_neg hxs, if_neg hxs, if_neg (by omega), rotate_eq hr hlen]
    split_ifs
    · rw [show (((r + xs.length : ℕ) : ℤ) - r + n) = ((xs.length + n : ℕ) : ℤ) by push_cast; ring]
      rw [← Int.natCast_mod, Nat.add_mod_right, Nat.mod_eq_of_lt hlen]
    · rw [show (((r + xs.length - n : ℕ) : ℤ) - r + n) = ((xs.length : ℕ) : ℤ) by omega]
      rw [← Int.natCast_mod, Nat.mod_eq_of_lt hlen]

/-- The elements of a queue, first to last. -/
def elements (q : CirQueue α) : List α :=
  ((List.range (numElements q).toNat).map fun i : ℕ =>
    q.arr[((q.rp + i) % q.size).toNat]?.join).reduceOption

theorem HoldsAt.elements_eq (h : HoldsAt q n r xs) : elements q = xs := by
  have hcells : (List.range (numElements q).toNat).map
      (fun i : ℕ => q.arr[((q.rp + i) % q.size).toNat]?.join) = xs.map some := by
    refine ext_getElem (by simp [h.numElements_eq]) fun i hi hi' => ?_
    have hix : i < xs.length := by simpa using hi'
    have hxs : xs ≠ [] := ne_nil_of_length_pos (by omega)
    have hcell := h.layout.cell i (by have := h.length_lt; omega)
    rw [getElem_map, getElem_range, getElem_map, h.rp_eq, if_neg hxs, h.size_eq,
      intMod_rotate, Int.toNat_natCast, hcell, getElem?_eq_getElem hix]
    rfl
  rw [elements, hcells]
  exact filterMap_map.trans filterMap_some

theorem Holds.elements_eq (h : Holds q xs) : elements q = xs := by
  obtain ⟨n, r, h⟩ := h
  exact h.elements_eq

/-- `enque` appends, and doubles the array when that fills it. -/
theorem enque_holds (h : HoldsAt q n r xs) (v : α) :
    ∃ q' n' r', enque q (some v) = .ok q' ∧ HoldsAt q' n' r' (xs ++ [v]) ∧
      (n' = n ∨ n' = n * 2 ∧ (xs ++ [v]).length = n) := by
  obtain ⟨s, hs, hl, hrp, hwp⟩ : ∃ s, s < n ∧ Layout q.arr n s xs ∧
      (if q.rp = -1 then 0 else q.rp) = s ∧ q.wp = ((s + xs.length) % n : ℕ) := by
    by_cases hxs : xs = []
    · subst hxs
      exact ⟨0, by have := h.two_le; omega, h.layout.restart (by have := h.two_le; omega),
        by rw [h.rp_eq]; rfl, by rw [h.wp_eq]; simp⟩
    · refine ⟨r, h.layout.start_lt, h.layout, ?_, by rw [h.wp_eq, if_neg hxs]⟩
      rw [h.rp_eq, if_neg hxs, if_neg (by omega)]
  have hn : 0 < n := by omega
  have hpush := hl.push h.length_lt v
  have hwp' : (q.wp + 1) % q.size = ((s + (xs ++ [v]).length) % n : ℕ) := by
    rw [hwp, h.size_eq, length_append, length_singleton, ← add_assoc]
    push_cast
    rw [Int.emod_add_emod]
  have hcode : enque q (some v) =
      if (s : ℤ) = ((s + (xs ++ [v]).length) % n : ℕ) then
        grow ⟨q.arr.set ((s + xs.length) % n) (some v), n, s,
          ((s + (xs ++ [v]).length) % n : ℕ)⟩
      else .ok ⟨q.arr.set ((s + xs.length) % n) (some v), n, s,
        ((s + (xs ++ [v]).length) % n : ℕ)⟩ := by
    simp only [enque, hrp, hwp']
    rw [hwp, update_of_lt (by rw [hl.length_eq]; exact rotate_lt _ _ hn), h.size_eq]
    rfl
  by_cases hfull : (xs ++ [v]).length = n
  · have heq : (s + (xs ++ [v]).length) % n = s := by
      rw [hfull, Nat.add_mod_right, Nat.mod_eq_of_lt hs]
    rw [heq, if_pos rfl, grow_eq hpush hfull] at hcode
    refine ⟨_, n * 2, 0, hcode, ⟨by omega, rfl, by omega, layout_tabulated _ (by omega) (by omega),
      by simp, ?_⟩, .inr ⟨rfl, hfull⟩⟩
    simp only [append_eq_nil_iff, cons_ne_self, and_false, if_false, zero_add]
    rw [Nat.mod_eq_of_lt (by omega), hfull]
  · have hlt : (xs ++ [v]).length < n := by
      have := h.length_lt
      simp at hfull ⊢
      omega
    have hne : s ≠ (s + (xs ++ [v]).length) % n := fun e => by
      have := (rotate_inj (i := 0) hs (by omega) hlt).1 (by simpa [Nat.mod_eq_of_lt hs] using e)
      simp at this
    rw [if_neg (by exact_mod_cast hne)] at hcode
    exact ⟨_, n, s, hcode, ⟨h.two_le, rfl, hlt, hpush, by simp, by simp⟩, .inl rfl⟩

/-- `deque` hands out the first element and shrinks what is left. -/
theorem deque_cons {x : α} (h : HoldsAt q n r (x :: xs)) : ∃ q₁, HoldsAt q₁ n ((r + 1) % n) xs ∧
      deque q = (shrink q₁).map fun q' => (some x, q') := by
  have hr := h.layout.start_lt
  have hlen := h.length_lt
  have hrp : q.rp = r := by rw [h.rp_eq, if_neg (by simp)]
  have hwp : q.wp = (((r + 1) % n + xs.length) % n : ℕ) := by
    rw [h.wp_eq, if_neg (by simp), Nat.mod_add_mod, length_cons, add_assoc, add_comm 1]
  have hne : ¬ isEmpty q = true := by rw [h.isEmpty_iff]; simp
  have hr' : (r + 1) % n < n := rotate_lt r 1 (by omega)
  have hcode : deque q =
      (shrink ⟨q.arr.set r none, n,
        if (((r + 1) % n : ℕ) : ℤ) = q.wp then -1 else (((r + 1) % n : ℕ) : ℤ),
        if (((r + 1) % n : ℕ) : ℤ) = q.wp then 0 else q.wp⟩).map fun q' => (some x, q') := by
    rw [deque, if_neg hne, hrp, h.size_eq, getElement_eq h.layout]
    show (do
      let arrv ← update q.arr r none
      _) = _
    rw [update_of_lt (by rw [h.layout.length_eq]; exact hr)]
    have hnext : ((r : ℤ) + 1) % n = ((r + 1) % n : ℕ) := by push_cast; rfl
    simp only [hnext]
    by_cases hlast : (((r + 1) % n : ℕ) : ℤ) = q.wp
    · simp only [if_pos hlast]
      rfl
    · simp only [if_neg hlast]
      rfl
  refine ⟨_, ⟨h.two_le, rfl, by simp at hlen ⊢; omega, h.layout.pop, ?_, ?_⟩, hcode⟩
  all_goals
    rw [hwp]
    by_cases hxs : xs = []
    · simp [hxs, Nat.mod_eq_of_lt hr']
    · have hne' : (r + 1) % n ≠ ((r + 1) % n + xs.length) % n := fun e => by
        have e0 : ((r + 1) % n + 0) % n = ((r + 1) % n + xs.length) % n := by
          rwa [Nat.add_zero, Nat.mod_mod]
        have := (rotate_inj hr' (by omega) (by simp at hlen; omega)).1 e0
        exact hxs (length_eq_zero_iff.1 this.symm)
      simp only [if_neg (mt Nat.cast_inj.1 hne'), if_neg hxs]

/-! ### Shrinking -/

theorem shrink_nil (h : HoldsAt q n r []) : ∃ q' r', shrink q = .ok q' ∧ HoldsAt q' 2 r' [] := by
  have hlive : numElements q = 0 := by simpa using h.numElements_eq
  by_cases hn : n = 2
  · subst hn
    have hsize : q.size = startSize := h.size_eq
    exact ⟨q, r, by simp [shrink, hlive, hsize], h⟩
  · have hsize : ¬ q.size = startSize := by rw [h.size_eq, startSize]; exact_mod_cast hn
    exact ⟨new, 0, by simp [shrink, hlive, hsize]; rfl, holdsAt_new⟩

theorem shrink_keep (h : HoldsAt q n r xs)
    (hxs : xs ≠ []) (hn : n < 4 * xs.length) : shrink q = .ok q := by
  have hlen : 0 < xs.length := length_pos_iff.2 hxs
  have hdiv : ¬ (n : ℤ) / xs.length ≥ 4 := by
    rw [ge_iff_le, Int.le_ediv_iff_mul_le (by exact_mod_cast hlen)]
    omega
  simp [shrink, h.numElements_eq, h.size_eq, hxs, hdiv]

theorem shrink_move (h : HoldsAt q n r xs)
    (hxs : xs ≠ []) (hn : 4 * xs.length ≤ n) {m : ℕ} (hm : getNewSize xs.length n = m) :
    shrink q = .ok ⟨(List.range m).map fun i => xs[i]?, m, 0, xs.length⟩ := by
  have hlen : 0 < xs.length := length_pos_iff.2 hxs
  have hdiv : (n : ℤ) / xs.length ≥ 4 := by
    rw [ge_iff_le, Int.le_ediv_iff_mul_le (by exact_mod_cast hlen)]
    omega
  have hsize : ¬ (n : ℤ) = startSize := by
    simp only [startSize]
    omega
  have hrp : q.rp = r := by rw [h.rp_eq, if_neg hxs]
  have hcells := tabulate_live (m := m) h.layout rfl
  simp only [shrink, h.numElements_eq, h.size_eq, hrp, hm]
  rw [if_neg (by simp [hxs]), if_neg (by simpa using hxs), if_pos ⟨hdiv, hsize⟩, hcells]
  rfl

/-- From four times the live elements the loop halves twice, and a third time because nothing
is smaller yet; the size it settles on is the number of live elements. -/
theorem getNewSize_quarter {live : ℤ} (h : 2 ≤ live) (heven : 2 ∣ live) :
    getNewSize live (4 * live) = live := by
  obtain ⟨k, rfl⟩ := heven
  obtain ⟨fuel, hfuel⟩ : ∃ fuel, (4 * (2 * k)).toNat = fuel + 4 := ⟨(4 * (2 * k)).toNat - 4, by omega⟩
  have h1 : 4 * (2 * k) / 2 = 4 * k := by omega
  have h2 : 4 * k / 2 = 2 * k := by omega
  have h3 : 2 * k / 2 = k := by omega
  simp only [getNewSize, hfuel, getNewSizeLoop, startSize, h1, h2, h3]
  rw [if_neg (by omega), if_neg (by omega), if_neg (by omega), if_pos (by omega)]
  ring

/-- The sizes that a run gives to its array: a power of two, and the initial one unless more
than a quarter of the cells is live. -/
def Snug (n : ℕ) (xs : List α) : Prop := (∃ k, n = 2 ^ (k + 1)) ∧ (n = 2 ∨ n < 4 * xs.length)

theorem Snug.four_dvd {n : ℕ} (h : Snug n xs) (hn : n ≠ 2) : 4 ∣ n := by
  obtain ⟨⟨k, rfl⟩, -⟩ := h
  cases k with
  | zero => simp at hn
  | succ k => exact ⟨2 ^ k, by ring⟩

/-- The next `deque` leaves a quarter of a buffer of at least eight cells. -/
def QuarterFull (q : CirQueue α) : Prop := 8 ≤ q.size ∧ 4 * (numElements q - 1) = q.size

instance (q : CirQueue α) : Decidable (QuarterFull q) := inferInstanceAs (Decidable (_ ∧ _))

theorem enque_snug (h : HoldsAt q n r xs) (hs : Snug n xs) (v : α) :
    ∃ q' n' r', enque q (some v) = .ok q' ∧ HoldsAt q' n' r' (xs ++ [v]) ∧
      Snug n' (xs ++ [v]) := by
  obtain ⟨q', n', r', hq, hh, rfl | ⟨rfl, hfull⟩⟩ := enque_holds h v
  · refine ⟨q', n', r', hq, hh, hs.1, hs.2.imp id fun hlt => ?_⟩
    simp
    omega
  · obtain ⟨⟨k, hk⟩, -⟩ := hs
    refine ⟨q', n * 2, r', hq, hh, ⟨k + 1, by rw [hk]; ring⟩, .inr ?_⟩
    rw [hfull]
    have := h.two_le
    omega

/-- A `deque` that does not leave a quarter of a larger buffer acts as on a FIFO list. -/
theorem deque_snug (h : HoldsAt q n r xs) (hs : Snug n xs) (hq : ¬ QuarterFull q) :
    ∃ q' n' r', deque q = .ok (xs.head?, q') ∧ HoldsAt q' n' r' xs.tail ∧
      Snug n' xs.tail := by
  cases xs with
  | nil => exact ⟨q, n, r, by simp [deque, h.isEmpty_iff], h, hs⟩
  | cons x xs =>
    obtain ⟨q₁, h₁, hcode⟩ := deque_cons h
    by_cases hxs : xs = []
    · subst hxs
      obtain ⟨q', r', hshrink, h'⟩ := shrink_nil h₁
      exact ⟨q', 2, r', by rw [hcode, hshrink]; rfl, h', ⟨0, rfl⟩, .inl rfl⟩
    · have hlen : 0 < xs.length := length_pos_iff.2 hxs
      have hn2 : n ≠ 2 := by
        have := h.length_lt
        simp at this
        omega
      have hlt : n < 4 * (xs.length + 1) := by simpa using hs.2.resolve_left hn2
      by_cases hkeep : n < 4 * xs.length
      · exact ⟨q₁, n, _, by rw [hcode, shrink_keep h₁ hxs hkeep]; rfl, h₁, hs.1, .inr hkeep⟩
      · -- the size is a multiple of four, so exactly a quarter is live, and only one element
        have hquarter : n = 4 * xs.length := by
          have := hs.four_dvd hn2
          omega
        have hone : xs.length = 1 := by
          by_contra hne
          refine hq ⟨?_, ?_⟩
          · rw [h.size_eq]
            omega
          · rw [h.numElements_eq, h.size_eq, length_cons, hquarter]
            push_cast
            ring
        have hm : getNewSize xs.length n = (2 : ℕ) := by rw [hquarter, hone]; decide
        refine ⟨_, 2, 0, by rw [hcode, shrink_move h₁ hxs hquarter.ge hm]; rfl,
          (?_ : HoldsAt _ 2 0 xs), ⟨0, rfl⟩, .inl rfl⟩
        exact ⟨le_rfl, rfl, by omega, layout_tabulated xs (by omega) (by omega), by simp [hxs],
          by simp [hxs, hone]⟩

/-- After a `deque` that leaves a quarter of a larger buffer the write pointer is one past the
end of the new array, and the next `enque` raises `Subscript`. -/
theorem enque_after_quarterFull (h : HoldsAt q n r xs) (hs : Snug n xs) (hq : QuarterFull q) :
    ∃ q', deque q = .ok (xs.head?, q') ∧ q'.wp = q'.size ∧
      ∀ v, enque q' (some v) = .error .subscript := by
  obtain ⟨h8, hquarter⟩ := hq
  rw [h.size_eq, h.numElements_eq] at hquarter
  rw [h.size_eq] at h8
  cases xs with
  | nil => simp at hquarter
  | cons x xs =>
    have hn : n = 4 * xs.length := by simp at hquarter; omega
    have hxs : xs ≠ [] := fun e => by subst e; simp at hn; omega
    obtain ⟨q₁, h₁, hcode⟩ := deque_cons h
    have heven : (2 : ℤ) ∣ xs.length := by
      obtain ⟨⟨k, hk⟩, -⟩ := hs
      obtain ⟨j, rfl⟩ : ∃ j, k = j + 2 := ⟨k - 2, by
        rcases k with _ | _ | k
        · omega
        · omega
        · omega⟩
      exact ⟨2 ^ j, by
        have : (n : ℤ) = 2 ^ (j + 2 + 1) := by exact_mod_cast hk
        rw [show (2 : ℤ) ^ (j + 2 + 1) = 8 * 2 ^ j by ring] at this
        omega⟩
    have hm : getNewSize xs.length n = (xs.length : ℕ) := by
      rw [hn]
      push_cast
      exact getNewSize_quarter (by omega) heven
    refine ⟨_, by rw [hcode, shrink_move h₁ hxs hn.ge hm]; rfl, rfl, fun v => ?_⟩
    simp [enque, update]
    rfl

/-! ### Runs -/

/-- The operations of a client. -/
inductive Op (α : Type*)
  | new
  | enque (v : α)
  | deque

/-- One operation on the queue, with what it returns. -/
def exec (q : CirQueue α) : Op α → Except Abort (Option α × CirQueue α)
  | .new => .ok (none, new)
  | .enque v => (enque q (some v)).map fun q' => (none, q')
  | .deque => deque q

/-- A sequence of operations, with what each returns. -/
def runOps (q : CirQueue α) : List (Op α) → Except Abort (List (Option α) × CirQueue α)
  | [] => .ok ([], q)
  | op :: ops => do
    let r ← exec q op
    let p ← runOps r.2 ops
    return (r.1 :: p.1, p.2)

/-- The same operation on a FIFO list. -/
def fifo (xs : List α) : Op α → Option α × List α
  | .new => (none, [])
  | .enque v => (none, xs ++ [v])
  | .deque => (xs.head?, xs.tail)

/-- The same sequence on a FIFO list. -/
def runFifo (xs : List α) : List (Op α) → List (Option α) × List α
  | [] => ([], xs)
  | op :: ops =>
    let p := runFifo (fifo xs op).2 ops
    ((fifo xs op).1 :: p.1, p.2)

/-- The sequence runs through on a new queue, every operation returns what it returns on a FIFO
list, and the queue left holds that list. -/
def RefinesFifo (ops : List (Op α)) : Prop :=
  ∃ q, runOps new ops = .ok ((runFifo [] ops).1, q) ∧ Holds q (runFifo [] ops).2 ∧
    (isEmpty q = true ↔ (runFifo [] ops).2 = [])

/-- The operation is not a `deque` that leaves a quarter of a buffer of eight or more cells. -/
def Op.avoidsQuarter (q : CirQueue α) : Op α → Bool
  | .deque => !decide (QuarterFull q)
  | _ => true

/-- No operation of the sequence is such a `deque`. -/
def avoidsQuarter (q : CirQueue α) : List (Op α) → Bool
  | [] => true
  | op :: ops => op.avoidsQuarter q &&
    match exec q op with
    | .ok r => avoidsQuarter r.2 ops
    | .error _ => true

theorem exec_snug (h : HoldsAt q n r xs)
    (hs : Snug n xs) {op : Op α} (ha : op.avoidsQuarter q = true) :
    ∃ q' n' r', exec q op = .ok ((fifo xs op).1, q') ∧ HoldsAt q' n' r' (fifo xs op).2 ∧
      Snug n' (fifo xs op).2 := by
  cases op with
  | new => exact ⟨new, 2, 0, rfl, holdsAt_new, ⟨0, rfl⟩, .inl rfl⟩
  | enque v =>
    obtain ⟨q', n', r', hq, hh, hs'⟩ := enque_snug h hs v
    exact ⟨q', n', r', by simp [exec, hq, Except.map, fifo], hh, hs'⟩
  | deque => exact deque_snug h hs (by simpa [Op.avoidsQuarter] using ha)

theorem runOps_cons {q q₁ : CirQueue α} {op : Op α} {a : Option α} (h : exec q op = .ok (a, q₁))
    (ops : List (Op α)) :
    runOps q (op :: ops) = (runOps q₁ ops).map fun p => (a :: p.1, p.2) := by
  simp only [runOps, h]
  rfl

theorem avoidsQuarter_cons {q q₁ : CirQueue α} {op : Op α} {a : Option α}
    (h : exec q op = .ok (a, q₁)) (ops : List (Op α)) :
    avoidsQuarter q (op :: ops) = (op.avoidsQuarter q && avoidsQuarter q₁ ops) := by
  simp [avoidsQuarter, h]

theorem avoidsQuarter_take {p ops : List (Op α)} (hp : p <+: ops)
    (h : avoidsQuarter q ops = true) : avoidsQuarter q p = true := by
  induction p generalizing q ops with
  | nil => rfl
  | cons op p ih =>
    obtain ⟨t, rfl⟩ := hp
    rw [List.cons_append, avoidsQuarter, Bool.and_eq_true] at h
    rw [avoidsQuarter, Bool.and_eq_true]
    refine ⟨h.1, ?_⟩
    cases hexec : exec q op with
    | error e => rfl
    | ok r =>
      rw [hexec] at h
      exact ih ⟨t, rfl⟩ h.2

/-- A run from any well-formed queue, in lock step with the FIFO list. -/
theorem runOps_snug (ops : List (Op α))
    (h : HoldsAt q n r xs) (hs : Snug n xs) (ha : avoidsQuarter q ops = true) :
    ∃ q', runOps q ops = .ok ((runFifo xs ops).1, q') ∧ Holds q' (runFifo xs ops).2 := by
  induction ops generalizing q n r xs with
  | nil => exact ⟨q, rfl, n, r, h⟩
  | cons op ops ih =>
    have hop : op.avoidsQuarter q = true := by
      rw [avoidsQuarter, Bool.and_eq_true] at ha
      exact ha.1
    obtain ⟨q₁, n₁, r₁, hexec, h₁, hs₁⟩ := exec_snug h hs hop
    rw [avoidsQuarter_cons hexec, hop, Bool.true_and] at ha
    obtain ⟨q', hrun, h'⟩ := ih h₁ hs₁ ha
    exact ⟨q', by rw [runOps_cons hexec, hrun]; rfl, h'⟩

/-- The write pointer of a well-formed queue lies inside the array. -/
theorem Holds.wp_lt (h : Holds q xs) : q.wp < q.size := by
  obtain ⟨n, r, h⟩ := h
  have hn := h.two_le
  rw [h.wp_eq, h.size_eq]
  split_ifs
  · omega
  · exact_mod_cast rotate_lt r _ (by omega)

/-- Conversely, a run all of whose states are well formed never leaves a quarter of a larger
buffer. -/
theorem avoidsQuarter_of_holds (ops : List (Op α)) (h : HoldsAt q n r xs) (hs : Snug n xs)
    (hall : ∀ p, p <+: ops →
      ∃ q', runOps q p = .ok ((runFifo xs p).1, q') ∧ Holds q' (runFifo xs p).2) :
    avoidsQuarter q ops = true := by
  induction ops generalizing q n r xs with
  | nil => rfl
  | cons op ops ih =>
    have hop : op.avoidsQuarter q = true := by
      cases op with
      | deque =>
        by_contra hq
        obtain ⟨q₁, hdeque, hwp, -⟩ :=
          enque_after_quarterFull h hs (by simpa [Op.avoidsQuarter] using hq)
        obtain ⟨q', hrun, hh⟩ := hall [.deque] (prefix_append [.deque] ops)
        rw [runOps_cons (show exec q .deque = .ok (xs.head?, q₁) from hdeque)] at hrun
        cases hrun
        exact hh.wp_lt.ne hwp
      | _ => rfl
    obtain ⟨q₁, n₁, r₁, hexec, h₁, hs₁⟩ := exec_snug h hs hop
    rw [avoidsQuarter_cons hexec, hop, Bool.true_and]
    refine ih h₁ hs₁ fun p hp => ?_
    obtain ⟨q', hrun, hh⟩ := hall (op :: p) (cons_prefix_cons.2 ⟨rfl, hp⟩)
    rw [runOps_cons hexec] at hrun
    cases hr : runOps q₁ p with
    | error e => rw [hr] at hrun; cases hrun
    | ok r =>
      rw [hr] at hrun
      obtain ⟨has, rfl⟩ := Prod.mk.inj (Except.ok.inj hrun)
      exact ⟨r.2, congrArg Except.ok (Prod.ext (List.cons.inj has).2 rfl), hh⟩

/-- **`CirQueue` refines FIFO lists** in every state of a run exactly when no `deque` of the run
leaves a quarter of a buffer of at least eight cells. -/
theorem cirQueue_refines_fifo_iff (ops : List (Op α)) :
    (∀ p, p <+: ops → RefinesFifo p) ↔ avoidsQuarter new ops = true := by
  have hnew : Snug 2 ([] : List α) := ⟨⟨0, rfl⟩, .inl rfl⟩
  constructor
  · intro hall
    refine avoidsQuarter_of_holds ops holdsAt_new hnew fun p hp => ?_
    obtain ⟨q, hrun, hh, -⟩ := hall p hp
    exact ⟨q, hrun, hh⟩
  · rintro h p hp
    obtain ⟨q, hrun, hh⟩ := runOps_snug p holdsAt_new hnew (avoidsQuarter_take hp h)
    exact ⟨q, hrun, hh, hh.isEmpty_iff⟩

/-- Four elements make a buffer of eight cells, two of them taken out leave a quarter of it:
the next `enque` raises `Subscript`. -/
theorem cirQueue_not_fifo :
    ¬ RefinesFifo [.enque 1, .enque 2, .enque 3, .enque 4, .deque, .deque, .enque 5] := by
  rintro ⟨q, hrun, -⟩
  have herr : runOps new [.enque 1, .enque 2, .enque 3, .enque 4, .deque, .deque, .enque 5] =
      .error .subscript := by rfl
  rw [herr] at hrun
  cases hrun

end CirQueue
end MultiMLton
