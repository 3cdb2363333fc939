import MultiMLton.Pacml.CircularQueueClean

/-!
# Putting an element back into the circular queue

A channel that has taken an element off its queue and finds that it cannot use it puts it back
with `undeque`, in front of the read pointer. `undeque` never makes the array larger: it relies
on a free cell that the `deque`, or the `cleanPrefix` before it, has to have left.

* `undeque`: the code, and `undeque_holds`: it puts the element first when there is a cell to spare;
* `putsBack_iff`, `putsBack_moved_iff`: which queues a `deque` leaves such a cell in;
* `putBackExact_iff`: the sizes for which `cleanPrefix`, `deque` and `undeque` put back exactly.
-/

namespace MultiMLton.CirQueue

open Ring List Nat

variable {α : Type*}

/-- `undeque`. -/
def undeque (q : CirQueue α) (e : Option α) : Except Abort (CirQueue α) :=
  match e with
  | none => .error (.fail "Trying to insert none-sence")
  | some v =>
    if q.rp = -1 then do
      let arrv ← update q.arr 0 (some v)
      return ⟨arrv, q.size, 0, 1⟩
    else do
      let rpv := (q.rp - 1) % q.size
      let arrv ← update q.arr rpv (some v)
      return ⟨arrv, q.size, rpv, q.wp⟩

/-- Storing an element in the free cell before the first. -/
theorem Layout.unpop {arr : List (Option α)} {n r : ℕ} {xs : List α} (h : Layout arr n r xs)
    (hlt : xs.length < n) (v : α) :
    Layout (arr.set ((r + n - 1) % n) (some v)) n ((r + n - 1) % n) (v :: xs) where
  length_eq := by simp [h.length_eq]
  start_lt := mod_lt _ (by omega)
  length_le := by simp; omega
  cell i hi := by
    have hr := h.start_lt
    have hmod : (r + n - 1) % n < n := mod_lt _ (by omega)
    rw [mod_add_mod]
    cases i with
    | zero => simp [h.length_eq, hmod]
    | succ i =>
      have hstep : (r + n - 1 + (i + 1)) % n = (r + i) % n := by
        rw [show r + n - 1 + (i + 1) = r + i + n by omega, add_mod_right]
      have hne : (r + n - 1) % n ≠ (r + i) % n := fun e => by
        have hlast : (r + n - 1) % n = (r + (n - 1)) % n := by
          rw [show r + n - 1 = r + (n - 1) by omega]
        have := (rotate_inj hr (by omega) (by omega)).1 (hlast.symm.trans e)
        omega
      rw [hstep, getElem?_set_ne hne, h.cell i (by omega), getElem?_cons_succ]

/-! ### `undeque` -/

/-- `undeque` of a queue with a cell to spare. -/
theorem undeque_holds {q : CirQueue α} {n r : ℕ} {xs : List α} (h : HoldsAt q n r xs)
    (hlt : xs.length + 1 < n) (v : α) : ∃ q', undeque q (some v) = .ok q' ∧ Holds q' (v :: xs) := by
  have hr := h.layout.start_lt
  by_cases hxs : xs = []
  · subst hxs
    have hrp : q.rp = -1 := h.rp_eq
    have hl : Layout (q.arr.set 0 (some v)) n 0 [v] := by
      simpa [Nat.mod_eq_of_lt (show 1 + n - 1 - n < n by omega)] using
        (h.layout.restart (show 0 < n by omega)).push (by simp; omega) v
    refine ⟨⟨q.arr.set 0 (some v), q.size, 0, 1⟩, ?_, n, 0, h.two_le, h.size_eq, by simpa using hlt,
      hl, rfl, ?_⟩
    · rw [undeque]
      show (if q.rp = -1 then _ else _) = _
      rw [if_pos hrp]
      have hup := update_of_lt (show 0 < q.arr.length by rw [h.layout.length_eq]; omega) (some v)
      rw [Nat.cast_zero] at hup
      rw [hup]
      rfl
    · simp [Nat.mod_eq_of_lt (show 1 < n by simpa using hlt)]
  · have hrp : q.rp = r := by rw [h.rp_eq, if_neg hxs]
    have hk : (r + n - 1) % n < n := mod_lt _ (by omega)
    refine ⟨⟨q.arr.set ((r + n - 1) % n) (some v), q.size, ((r + n - 1) % n : ℕ), q.wp⟩, ?_,
      n, (r + n - 1) % n, h.two_le, h.size_eq, by simpa using hlt, h.layout.unpop h.length_lt v,
      by simp, ?_⟩
    · rw [undeque]
      show (if q.rp = -1 then _ else _) = _
      rw [if_neg (by omega), hrp, h.size_eq, intMod_pred hr]
      dsimp only
      rw [update_of_lt (by rw [h.layout.length_eq]; exact hk)]
      rfl
    · rw [if_neg (by simp)]
      show q.wp = _
      rw [h.wp_eq, if_neg hxs, mod_add_mod, length_cons,
        show r + n - 1 + (xs.length + 1) = r + xs.length + n by omega, add_mod_right]

/-- `undeque` moves the read pointer back and leaves the write pointer. -/
theorem undeque_pointers {q q' : CirQueue α} {v : α} (hrp : q.rp ≠ -1)
    (h : undeque q (some v) = .ok q') :
    q'.size = q.size ∧ q'.rp = (q.rp - 1) % q.size ∧ q'.wp = q.wp := by
  rw [undeque] at h
  change (if q.rp = -1 then _ else _) = _ at h
  rw [if_neg hrp] at h
  cases hup : update q.arr ((q.rp - 1) % q.size) (some v) with
  | error e => simp only [hup] at h; cases h
  | ok arr =>
    simp only [hup] at h
    cases h
    exact ⟨rfl, rfl, rfl⟩

/-- A well-formed queue is never full: its pointers differ. -/
theorem Holds.rp_ne_wp {q : CirQueue α} {xs : List α} (h : Holds q xs) : q.rp ≠ q.wp := by
  obtain ⟨n, r, h⟩ := h
  have hr := h.layout.start_lt
  rw [h.rp_eq, h.wp_eq]
  by_cases hxs : xs = []
  · simp [hxs]
  · rw [if_neg hxs, if_neg hxs]
    intro e
    have e0 : (r + 0) % n = (r + xs.length) % n := by
      rw [add_zero, Nat.mod_eq_of_lt hr]
      exact_mod_cast e
    have := (rotate_inj hr (by omega) h.length_lt).1 e0
    exact hxs (length_eq_zero_iff.1 this.symm)

/-- What `deque` does to a queue that `shrink` has left without a cell for its write pointer. -/
theorem deque_moved {m : ℕ} (v : α) (zs : List α) (hm : 2 ≤ m) (hlen : m ≤ (v :: zs).length) :
    ∃ arr, deque (moved m (v :: zs)) =
      (shrink ⟨arr, m, 1, (v :: zs).length⟩).map fun q' => (some v, q') := by
  have hcell : sub (moved m (v :: zs)).arr (0 : ℕ) = .ok (some v) :=
    sub_of_getElem? (by simp [moved, show 0 < m by omega])
  have harr : (moved m (v :: zs)).arr.length = m := by simp [moved]
  have hget : getElement (moved m (v :: zs)).arr m (moved m (v :: zs)).arr.length 0 =
      .ok (v, 0) := by
    obtain ⟨k, hk⟩ : ∃ k, (moved m (v :: zs)).arr.length = k + 1 := ⟨m - 1, by omega⟩
    rw [hk, getElement]
    rw [Nat.cast_zero] at hcell
    rw [hcell]
    rfl
  have hnext : ((0 : ℤ) + 1) % m = 1 := by
    rw [zero_add]
    exact_mod_cast Nat.mod_eq_of_lt hm
  have hup := update_of_lt (show 0 < (moved m (v :: zs)).arr.length by omega) none
  rw [Nat.cast_zero] at hup
  refine ⟨(moved m (v :: zs)).arr.set 0 none, ?_⟩
  rw [deque, if_neg (by simp [isEmpty, moved])]
  show (do
    let p ← getElement (moved m (v :: zs)).arr m (moved m (v :: zs)).arr.length 0
    _) = _
  rw [hget]
  show (do
    let arrv ← update (moved m (v :: zs)).arr 0 none
    _) = _
  rw [hup]
  have hwp : ¬ ((0 : ℤ) + 1) % (moved m (v :: zs)).size = (moved m (v :: zs)).wp := by
    show ¬ ((0 : ℤ) + 1) % m = ((v :: zs).length : ℕ)
    rw [hnext]
    omega
  simp only [if_neg hwp]
  show (do
    let q' ← shrink ⟨_, _, ((0 : ℤ) + 1) % m, _⟩
    _) = _
  rw [hnext]
  rfl

/-! ### Room for what is put back -/

/-- Whenever `cleanPrefix` and then `deque` take an element `v`, `undeque` of `v` returns a
well-formed queue that holds `v` followed by what the `deque` has left. -/
def PutBackExact (q : CirQueue α) (clean : α → Bool) : Prop :=
  ∀ q₁ q₂ v, Returns (cleanPrefix q clean) q₁ → deque q₁ = .ok (some v, q₂) →
    ∃ q₃ zs, undeque q₂ (some v) = .ok q₃ ∧ Holds q₂ zs ∧ Holds q₃ (v :: zs)

/-- The sizes for which that is so: `live` elements are left in a buffer of `n` cells. -/
def PutBackFits (n live : ℕ) : Prop :=
  live ≤ 1 ∨ n / 4 ≠ live - 1 ∧ (Tight n live → live % 2 = 1 ∧ live ≠ 3)

/-- The element that `deque` takes off `q` can be put back exactly. -/
def PutsBack (q : CirQueue α) : Prop :=
  ∀ q₂ v, deque q = .ok (some v, q₂) →
    ∃ q₃ zs, undeque q₂ (some v) = .ok q₃ ∧ Holds q₂ zs ∧ Holds q₃ (v :: zs)

theorem putBackExact_iff_of_returns {q q₁ : CirQueue α} {clean : α → Bool}
    (h : Returns (cleanPrefix q clean) q₁) : PutBackExact q clean ↔ PutsBack q₁ :=
  ⟨fun hp q₂ v => hp q₁ q₂ v h, fun hp _ q₂ v h' => h.unique h' ▸ hp q₂ v⟩

theorem PutsBack.of_deque {q q₂ : CirQueue α} {n r : ℕ} {v : α} {zs : List α}
    (hd : deque q = .ok (some v, q₂)) (h : HoldsAt q₂ n r zs) (hlt : zs.length + 1 < n) :
    PutsBack q := by
  intro q₂' v' hd'
  rw [hd] at hd'
  cases hd'
  obtain ⟨q₃, hu, h₃⟩ := undeque_holds h hlt v
  exact ⟨q₃, zs, hu, ⟨n, r, h⟩, h₃⟩

/-- Nothing can be put back if the write pointer ends up behind the array or under the read
pointer. -/
theorem not_putsBack {q q₂ : CirQueue α} {v : α} (hd : deque q = .ok (some v, q₂))
    (hrp : q₂.rp ≠ -1) (hbad : q₂.size ≤ q₂.wp ∨ (q₂.rp - 1) % q₂.size = q₂.wp) :
    ¬ PutsBack q := by
  intro hp
  obtain ⟨q₃, zs, hu, -, h₃⟩ := hp q₂ v hd
  obtain ⟨hsize, hrp', hwp⟩ := undeque_pointers hrp hu
  rcases hbad with hle | heq
  · have := h₃.wp_lt
    omega
  · exact h₃.rp_ne_wp (by rw [hrp', hwp, heq])

/-- A `deque` from a well-formed queue can be undone unless it shrinks the array to one with at
most one cell more than elements. -/
theorem putsBack_iff {q : CirQueue α} {n r : ℕ} {v : α} {zs : List α}
    (h : HoldsAt q n r (v :: zs)) :
    PutsBack q ↔ zs = [] ∨ n < 4 * zs.length ∨ (zs.length : ℤ) + 1 < getNewSize zs.length n := by
  obtain ⟨q₁, h₁, hcode⟩ := deque_cons h
  by_cases hzs : zs = []
  · subst hzs
    obtain ⟨q', r', hq', h'⟩ := shrink_nil h₁
    refine iff_of_true (.of_deque (by rw [hcode, hq']; rfl) h' ?_) (.inl rfl)
    simp
  have hpos : 1 ≤ zs.length := length_pos_iff.2 hzs
  by_cases hn : 4 * zs.length ≤ n
  · obtain ⟨j, hsize, hle, hlt⟩ := getNewSize_spec hpos hn
    have hshrink := shrink_move h₁ hzs hn hsize
    rw [hsize]
    have hd : deque q = .ok (some v, moved (2 * (n / 2 ^ (j + 1))) zs) := by
      rw [hcode, hshrink]
      rfl
    by_cases hroom : zs.length + 1 < 2 * (n / 2 ^ (j + 1))
    · exact iff_of_true (.of_deque hd (moved_holdsAt hzs (by omega)) hroom)
        (.inr (.inr (by exact_mod_cast hroom)))
    · refine iff_of_false (not_putsBack hd (show (0 : ℤ) ≠ -1 by omega) ?_) ?_
      · show ((2 * (n / 2 ^ (j + 1)) : ℕ) : ℤ) ≤ zs.length ∨
          ((0 : ℤ) - 1) % (2 * (n / 2 ^ (j + 1)) : ℕ) = zs.length
        by_cases hfull : 2 * (n / 2 ^ (j + 1)) ≤ zs.length
        · exact .inl (by exact_mod_cast hfull)
        · have hm : 2 * (n / 2 ^ (j + 1)) = zs.length + 1 := by omega
          right
          rw [hm]
          have := intMod_pred (n := zs.length + 1) (r := 0) (by omega)
          rw [Nat.cast_zero] at this
          rw [this, Nat.zero_add, Nat.add_sub_cancel, Nat.mod_eq_of_lt (by omega)]
      · rintro (h0 | h0 | h0)
        · exact hzs h0
        · omega
        · exact hroom (by exact_mod_cast h0)
  · have hd : deque q = .ok (some v, q₁) := by
      rw [hcode, shrink_keep h₁ hzs (by omega)]
      rfl
    exact iff_of_true (.of_deque hd h₁ (by simpa using h.length_lt)) (.inr (.inl (by omega)))

/-- After a `shrink` without a cell for the write pointer the next element can be put back only
into the queue that a second `shrink` has made of an apparently empty one. -/
theorem putsBack_moved_iff {m : ℕ} {v : α} {zs : List α} (hm : 2 ≤ m)
    (hlen : m = (v :: zs).length ∨ m + 1 = (v :: zs).length) :
    PutsBack (moved m (v :: zs)) ↔ m + 1 = (v :: zs).length ∧ m ≠ 2 := by
  obtain ⟨arr, hd⟩ := deque_moved v zs hm (by omega)
  have hnum : numElements (⟨arr, m, 1, (v :: zs).length⟩ : CirQueue α) =
      (((v :: zs).length - 1 : ℕ) % m : ℕ) := by
    rw [numElements, if_neg (show ¬ (1 : ℤ) = -1 by omega), Int.add_emod_right]
    push_cast [show 1 ≤ (v :: zs).length by simp]
    rfl
  rcases hlen with hlen | hlen
  · -- the array is full, and stays as it is
    have hlive : numElements (⟨arr, m, 1, (v :: zs).length⟩ : CirQueue α) = (m - 1 : ℕ) := by
      rw [hnum, ← hlen, Nat.mod_eq_of_lt (by omega)]
    have hshrink : shrink (⟨arr, m, 1, (v :: zs).length⟩ : CirQueue α) =
        .ok ⟨arr, m, 1, (v :: zs).length⟩ := by
      have hdiv : ¬ (m : ℤ) / ((m - 1 : ℕ) : ℤ) ≥ 4 := by
        rw [ge_iff_le, Int.le_ediv_iff_mul_le (by omega)]
        omega
      simp only [shrink, hlive]
      rw [if_neg (by omega), if_neg (by omega), if_neg (by simp [hdiv])]
    rw [hshrink] at hd
    exact iff_of_false (not_putsBack hd (show (1 : ℤ) ≠ -1 by omega)
      (.inl (show (m : ℤ) ≤ (v :: zs).length by omega))) (by omega)
  · -- an element is lost, and the pointers look like those of an empty queue
    have hlive : numElements (⟨arr, m, 1, (v :: zs).length⟩ : CirQueue α) = 0 := by
      rw [hnum, ← hlen, Nat.add_sub_cancel, Nat.mod_self]
      rfl
    by_cases h2 : m = 2
    · have hshrink : shrink (⟨arr, m, 1, (v :: zs).length⟩ : CirQueue α) =
          .ok ⟨arr, m, 1, (v :: zs).length⟩ := by
        simp only [shrink, hlive]
        rw [if_pos ⟨trivial, by rw [h2]; rfl⟩]
      rw [hshrink] at hd
      exact iff_of_false (not_putsBack hd (show (1 : ℤ) ≠ -1 by omega)
        (.inl (show (m : ℤ) ≤ (v :: zs).length by omega))) fun hc => hc.2 h2
    · have hshrink : shrink (⟨arr, m, 1, (v :: zs).length⟩ : CirQueue α) = .ok new := by
        simp only [shrink, hlive]
        rw [if_neg (by simp only [startSize]; omega), if_pos trivial]
        rfl
      rw [hshrink] at hd
      refine iff_of_true ?_ ⟨hlen, h2⟩
      intro q₂' v' hd'
      rw [hd] at hd'
      cases hd'
      refine ⟨⟨[some v, none], 2, 0, 1⟩, [], rfl, ⟨2, 0, holdsAt_new⟩, 2, 0, by omega, rfl,
        by simp, ⟨rfl, by omega, by simp, ?_⟩, rfl, rfl⟩
      intro i hi
      interval_cases i <;> rfl

/-- **Putting back is exact** for these sizes and no others. Where it is not, the second `shrink`
leaves a full buffer, or `undeque` fills the last cell so that the pointers meet, or the first
`shrink` has already left the write pointer outside the array. -/
theorem putBackExact_iff {q : CirQueue α} {xs : List α} (h : Holds q xs) (clean : α → Bool) :
    PutBackExact q clean ↔ PutBackFits q.size.toNat (xs.dropWhile clean).length := by
  obtain ⟨n, r, h⟩ := h
  rw [h.size_eq, Int.toNat_natCast]
  obtain ⟨q₁, r₁, h₁, hcode⟩ := cleanPrefix_eq h clean
  have hreturns : ∀ {q'}, shrink q₁ = .ok q' → Returns (cleanPrefix q clean) q' := fun hq' =>
    ⟨xs.length + 1, fun fuel hfuel => (hcode fuel hfuel).trans hq'⟩
  clear hcode
  revert h₁
  generalize xs.dropWhile clean = ys
  intro h₁
  cases ys with
  | nil =>
    obtain ⟨q', r', hq', h'⟩ := shrink_nil h₁
    rw [putBackExact_iff_of_returns (hreturns hq')]
    refine iff_of_true ?_ (.inl (by simp))
    intro q₂ v hd
    rw [deque, if_pos (h'.isEmpty_iff.2 rfl)] at hd
    cases hd
  | cons v zs =>
    have hlen : (v :: zs).length = zs.length + 1 := List.length_cons
    rcases shrink_cases h₁ (by simp) with ⟨hn, hq'⟩ | ⟨hn, j, hq', hle, hlt, htight⟩
    · -- `cleanPrefix` has kept the buffer, `deque` may make it smaller
      rw [putBackExact_iff_of_returns (hreturns hq'), putsBack_iff h₁, PutBackFits, hlen]
      have hnt : ¬ Tight n (zs.length + 1) := fun ht => by
        have := ht.four_mul_le
        omega
      by_cases hzs : zs = []
      · simp [hzs]
      have hpos : 1 ≤ zs.length := List.length_pos_iff.2 hzs
      by_cases hkeep : n < 4 * zs.length
      · exact iff_of_true (.inr (.inl hkeep)) (.inr ⟨by omega, fun ht => absurd ht hnt⟩)
      · -- exactly a quarter is left, and the halving stops at it or at two cells
        have hsmall : getNewSize zs.length n ≤ (zs.length : ℤ) + 1 := by
          by_cases htwo : 2 ≤ zs.length
          · have := (getNewSize_le_iff hpos (n := n) (by omega)).2
              ⟨htwo, 2, le_rfl, by omega, by omega⟩
            omega
          · obtain ⟨i, hi, -, hlt'⟩ := getNewSize_spec hpos (n := n) (by omega)
            rw [hi]
            omega
        refine iff_of_false ?_ ?_
        · rintro (h0 | h0 | h0)
          · exact hzs h0
          · omega
          · omega
        · rintro (h0 | ⟨h0, -⟩) <;> omega
    · rw [putBackExact_iff_of_returns (hreturns hq'), PutBackFits]
      have hdiv := Nat.div_div_eq_div_mul n (2 ^ j) 2
      rw [← pow_succ] at hdiv
      by_cases ht : Tight n (v :: zs).length
      · -- `cleanPrefix` has left no cell for the write pointer, or lost an element
        have hfull := htight.2 ht
        have htwo := ht.1
        rw [putsBack_moved_iff (by omega) (by omega)]
        constructor
        · exact fun hm => .inr ⟨by omega, fun _ => by omega⟩
        · rintro (h0 | ⟨-, h0⟩)
          · omega
          · have := h0 ht
            omega
      · have hroom : (v :: zs).length < 2 * (n / 2 ^ (j + 1)) := by
          by_contra hc
          exact ht (htight.1 (by omega))
        rw [putsBack_iff (moved_holdsAt (by simp) hroom)]
        refine iff_of_true ?_ ?_
        · by_cases hzs : zs = []
          · exact .inl hzs
          · have hpos : 1 ≤ zs.length := List.length_pos_iff.2 hzs
            exact .inr (.inl (by omega))
        · by_cases hone : (v :: zs).length ≤ 1
          · exact .inl hone
          · exact .inr ⟨by omega, fun ht' => absurd ht' ht⟩

theorem putBackExact_of_two : PutBackExact ⟨[some 1, some 2, none], 3, 0, 2⟩ fun x => x == 0 := by
  have h : Holds (⟨[some 1, some 2, none], 3, 0, 2⟩ : CirQueue ℕ) [1, 2] := by
    refine ⟨3, 0, by omega, rfl, by simp, ⟨rfl, by omega, by simp, ?_⟩, rfl, rfl⟩
    decide
  refine (putBackExact_iff h fun x => x == 0).2 (.inr ⟨by decide, fun ht => ?_⟩)
  exact absurd ht.four_mul_le (by decide)

/-- Two elements in four cells: the `deque` leaves one of them in a buffer of two cells, and
`undeque` fills that buffer. -/
theorem putBack_not_exact :
    Holds (⟨[some 1, some 2, none, none], 4, 0, 2⟩ : CirQueue ℕ) [1, 2] ∧
      ¬ PutBackExact (⟨[some 1, some 2, none, none], 4, 0, 2⟩ : CirQueue ℕ) fun _ => false := by
  constructor
  · refine ⟨4, 0, by omega, rfl, by simp, ⟨rfl, by omega, by simp, ?_⟩, rfl, rfl⟩
    decide
  · intro h
    have hret : Returns (cleanPrefix (⟨[some 1, some 2, none, none], 4, 0, 2⟩ : CirQueue ℕ)
        fun _ => false) ⟨[some 1, some 2, none, none], 4, 0, 2⟩ := by
      refine ⟨1, fun fuel hfuel => ?_⟩
      obtain ⟨k, rfl⟩ : ∃ k, fuel = k + 1 := ⟨fuel - 1, by omega⟩
      rfl
    obtain ⟨q₃, zs, hu, -, h₃⟩ := h _ ⟨[some 2, none], 2, 0, 1⟩ 1 hret rfl
    have hfull : undeque (⟨[some 2, none], 2, 0, 1⟩ : CirQueue ℕ) (some 1) =
        .ok ⟨[some 2, some 1], 2, 1, 1⟩ := rfl
    rw [hfull] at hu
    cases hu
    exact h₃.rp_ne_wp rfl

end MultiMLton.CirQueue
