import Mathlib.Tactic

/-!
# Creating and remapping a heap

`createHeap` and `remapHeap` of `gc/heap.c`, which try smaller and smaller sizes. Sizes are unsigned
words of `w` bits; what `mmap` and `mremap` return is given from outside, call by call.

* `backOffLoop`: the loop of both functions;
* `BacksOff`: what the sizes that are tried should be;
* `Leeway`: whether the loop stops before it takes a back-off from a smaller size, which wraps
  around;
* `backsOff_iff`: the two are the same, for either function.
-/

namespace MultiMLton.GC.HeapCreate

open List Option
open BitVec (eq_of_toNat_eq ofNat_toNat setWidth_eq)

variable {w : ℕ}

/-- `align`: `a += b - 1; a &= -b`. -/
def align (a b : BitVec w) : BitVec w := (a + (b - 1)) &&& -b

/-- The fields of a heap that are set. -/
structure Heap (w : ℕ) where
  start : BitVec w
  size : BitVec w
  withMapsSize : BitVec w

/-- The fields of the runtime's state that are read or set. -/
structure State (w : ℕ) where
  pageSize : BitVec w
  mutatorMarksCards : Bool
  maxHeapSize : BitVec w
  maxSharedHeapSize : BitVec w

/-- `CARD_SIZE_LOG2` -/
def CARD_SIZE_LOG2 : ℕ := 8

/-- Both maps have an element of one byte for each card. -/
def sizeofCardMap (s : State w) (heapSize : BitVec w) : BitVec w :=
  if s.mutatorMarksCards then align (heapSize >>> CARD_SIZE_LOG2) s.pageSize else 0

def sizeofCrossMap (s : State w) (heapSize : BitVec w) : BitVec w :=
  if s.mutatorMarksCards then align (heapSize >>> CARD_SIZE_LOG2) s.pageSize else 0

def sizeofCardMapAndCrossMap (s : State w) (heapSize : BitVec w) : BitVec w :=
  sizeofCardMap s heapSize + sizeofCrossMap s heapSize

def withMaps (s : State w) (size : BitVec w) : BitVec w := size + sizeofCardMapAndCrossMap s size

/-- What a heap and the statistics are after a size has been got. -/
def got (s : State w) (isShared : Bool) (newStart newSize : BitVec w) : Heap w × State w :=
  (⟨newStart, newSize, withMaps s newSize⟩,
    if !isShared && s.maxHeapSize < newSize then { s with maxHeapSize := newSize }
    else if isShared && s.maxSharedHeapSize < newSize then { s with maxSharedHeapSize := newSize }
    else s)

/-- The size that follows one that could not be got. -/
def nextSize (backoff minSize newSize : BitVec w) : BitVec w :=
  let nextSize := newSize - backoff
  if nextSize < minSize ∧ minSize < newSize then minSize else nextSize

/-- The loop: the sizes that it tries, and the start and the size that it gets. The `k`th try is
`try_ k`. The loop is cut off after a number of turns. -/
def backOffLoop (try_ : ℕ → BitVec w → Option (BitVec w)) (backoff minSize : BitVec w) :
    ℕ → ℕ → BitVec w → Option (List (BitVec w) × Option (BitVec w × BitVec w))
  | 0, _, _ => none
  | n + 1, k, newSize =>
    match try_ k newSize with
    | some newStart => some ([newSize], some (newStart, newSize))
    | none =>
      if minSize ≤ nextSize backoff minSize newSize then
        (backOffLoop try_ backoff minSize n (k + 1) (nextSize backoff minSize newSize)).map fun r =>
          (newSize :: r.1, r.2)
      else some ([newSize], none)

/-- What a call does: the sizes that it tries, what it returns, and what it leaves. -/
structure Outcome (w : ℕ) where
  attempted : List (BitVec w)
  result : Bool
  heap : Heap w
  state : State w

/-- The outcome of the loop, for the heap `h`. -/
def finish (s : State w) (isShared : Bool) (h : Heap w)
    (r : List (BitVec w) × Option (BitVec w × BitVec w)) : Outcome w :=
  match r.2 with
  | some (newStart, newSize) =>
    let g := got s isShared newStart newSize
    ⟨r.1, true, g.1, g.2⟩
  | none => ⟨r.1, false, h, s⟩

/-- A sixteenth of the difference of two sizes, in whole pages. -/
def backoff (s : State w) (desiredSize minSize : BitVec w) : BitVec w :=
  let backoff := (desiredSize - minSize) / 16
  align (if backoff = 0 then 1 else backoff) s.pageSize

section CreateHeap

variable (ADDRESS_BITS : ℕ)

/-- The addresses that `mmap` is asked for, in the `i`th of 32 calls. -/
def address (i : ℕ) : BitVec w :=
  let step : BitVec w := 1 <<< (ADDRESS_BITS - 5)
  let address_end : BitVec w := if ADDRESS_BITS = w then 0 else 1 <<< ADDRESS_BITS
  if i = 32 then 0 else address_end - BitVec.ofNat w i * step

/-- The calls of `mmap` for one size. `mmapAnon k` is the `k`th call. -/
def mmapSize (s : State w) (mmapAnon : ℕ → BitVec w → BitVec w → Option (BitVec w)) (k : ℕ)
    (newSize : BitVec w) : Option (BitVec w) :=
  (List.range' 1 32).findSome? fun i =>
    mmapAnon (32 * k + i) (address ADDRESS_BITS i) (withMaps s newSize)

def createHeap (s : State w) (isShared : Bool)
    (mmapAnon : ℕ → BitVec w → BitVec w → Option (BitVec w)) (h : Heap w)
    (desiredSize minSize : BitVec w) (n : ℕ) : Option (Outcome w) :=
  let desiredSize := if desiredSize < minSize then minSize else desiredSize
  let minSize := align minSize s.pageSize
  let desiredSize := align desiredSize s.pageSize
  (backOffLoop (mmapSize ADDRESS_BITS s mmapAnon) (backoff s desiredSize minSize) minSize n 0
    desiredSize).map (finish s isShared h)

end CreateHeap

/-- `HAS_REMAP` says whether the platform has `mremap`. The `k`th call of it is `mremap k`. -/
def remapHeap (HAS_REMAP : Bool) (s : State w) (isShared : Bool)
    (mremap : ℕ → BitVec w → BitVec w → BitVec w → Option (BitVec w)) (h : Heap w)
    (desiredSize minSize : BitVec w) (n : ℕ) : Option (Outcome w) :=
  if HAS_REMAP then
    let minSize := align minSize s.pageSize
    let desiredSize := align desiredSize s.pageSize
    (backOffLoop (fun k newSize => mremap k h.start (withMaps s h.size) (withMaps s newSize))
      (backoff s desiredSize minSize) minSize n 0 desiredSize).map (finish s isShared h)
  else some ⟨[], false, h, s⟩

/-! ### Alignment -/

theorem land_neg {x : ℕ} {q : ℕ} (hx : x < 2 ^ w) (hq : q ≤ w) :
    x &&& (2 ^ w - 2 ^ q) = x / 2 ^ q * 2 ^ q := by
  have hmask : 2 ^ w - 2 ^ q = (2 ^ (w - q) - 1) * 2 ^ q := by
    rw [Nat.sub_mul, ← pow_add, Nat.sub_add_cancel hq, Nat.one_mul]
  apply Nat.eq_of_testBit_eq
  intro i
  rw [hmask, Nat.testBit_and, Nat.testBit_mul_two_pow, Nat.testBit_mul_two_pow,
    Nat.testBit_two_pow_sub_one, Nat.testBit_div_two_pow]
  by_cases hi : q ≤ i
  · rw [Nat.sub_add_cancel hi]
    by_cases hiw : i - q < w - q
    · simp [hi, hiw]
    · have hbit : x.testBit i = false :=
        Nat.testBit_lt_two_pow (hx.trans_le (Nat.pow_le_pow_right (by norm_num) (by omega)))
      simp [hbit]
  · simp [hi]

theorem toNat_align (a : BitVec w) {b : BitVec w} {q : ℕ} (hq : q < w) (hb : b.toNat = 2 ^ q) :
    (align a b).toNat = (a.toNat + (2 ^ q - 1)) % 2 ^ w / 2 ^ q * 2 ^ q := by
  have hlt : 2 ^ q < 2 ^ w := Nat.pow_lt_pow_right (by norm_num) hq
  have hpos : 0 < 2 ^ q := Nat.two_pow_pos q
  have hone : (1 : BitVec w).toNat = 1 := by
    simp [Nat.mod_eq_of_lt (show 1 < 2 ^ w by omega)]
  have hsub : (b - 1).toNat = 2 ^ q - 1 := by
    rw [BitVec.toNat_sub_of_le (by rw [BitVec.le_def]; omega), hb, hone]
  have hneg : (-b).toNat = 2 ^ w - 2 ^ q := by
    rw [BitVec.toNat_neg, hb, Nat.mod_eq_of_lt (by omega)]
  unfold align
  rw [BitVec.toNat_and, BitVec.toNat_add, hsub, hneg, land_neg (Nat.mod_lt _ (by omega)) hq.le]

/-- The back-off is never nothing. -/
theorem backoff_pos {s : State w} {q : ℕ} (hq : q < w) (hpage : s.pageSize.toNat = 2 ^ q)
    (d m : BitVec w) : 0 < (backoff s d m).toNat := by
  have hw : 2 ≤ 2 ^ w := by
    calc 2 = 2 ^ 1 := rfl
      _ ≤ 2 ^ w := Nat.pow_le_pow_right (by norm_num) (by omega)
  have hhalf : 2 * 2 ^ q ≤ 2 ^ w := by
    rw [← pow_succ']
    exact Nat.pow_le_pow_right (by norm_num) hq
  have hpos : 0 < 2 ^ q := Nat.two_pow_pos q
  unfold backoff
  dsimp only
  rw [toNat_align _ hq hpage]
  have hsmall : ∀ x : ℕ, 0 < x → 2 * x ≤ 2 ^ w →
      0 < (x + (2 ^ q - 1)) % 2 ^ w / 2 ^ q * 2 ^ q := by
    intro x hx hx2
    rw [Nat.mod_eq_of_lt (by omega)]
    exact Nat.mul_pos (Nat.div_pos (by omega) hpos) hpos
  split_ifs with h0
  · have hone : (1 : BitVec w).toNat = 1 := by
      simp [Nat.mod_eq_of_lt (show 1 < 2 ^ w by omega)]
    rw [hone]
    exact hsmall 1 (by norm_num) (by omega)
  · refine hsmall _ ?_ ?_
    · by_contra hle
      refine h0 (eq_of_toNat_eq ?_)
      rw [show (0 : BitVec w).toNat = 0 by simp]
      omega
    · have hdiff := (d - m).isLt
      rw [BitVec.toNat_udiv]
      have h16 : (16 : BitVec w).toNat = 16 % 2 ^ w := by simp
      rw [h16]
      rcases Nat.lt_or_ge 16 (2 ^ w) with hlt | hge
      · rw [Nat.mod_eq_of_lt hlt]
        omega
      · -- then the width is at most 4, and the divisor wraps to 0
        have hw4 : w ≤ 4 := by
          by_contra hw5
          have : 2 ^ 5 ≤ 2 ^ w := Nat.pow_le_pow_right (by norm_num) (by omega)
          omega
        have hzero : 16 % 2 ^ w = 0 := by
          interval_cases w
          all_goals rfl
        rw [hzero, Nat.div_zero]
        omega

/-! ### The loop -/

section Loop

variable {try_ : ℕ → BitVec w → Option (BitVec w)} {b m s : BitVec w} {k n : ℕ}
  {attempted : List (BitVec w)} {res : Option (BitVec w × BitVec w)}

/-- A size that is not smaller than the back-off is followed by a smaller one. -/
theorem toNat_nextSize_of_le (hb : b ≤ s) :
    (nextSize b m s).toNat =
      if s.toNat - b.toNat < m.toNat ∧ m.toNat < s.toNat then m.toNat
      else s.toNat - b.toNat := by
  unfold nextSize
  dsimp only
  rw [apply_ite BitVec.toNat]
  simp only [BitVec.lt_def, BitVec.toNat_sub_of_le hb]

/-- A smaller one wraps around, to a size that is larger. -/
theorem toNat_nextSize_of_lt (hb : s < b) (hm : m ≤ s) :
    (nextSize b m s).toNat = s.toNat + 2 ^ w - b.toNat := by
  rw [BitVec.lt_def] at hb
  rw [BitVec.le_def] at hm
  have hblt := b.isLt
  have hsub : (s - b).toNat = s.toNat + 2 ^ w - b.toNat := by
    rw [BitVec.toNat_sub, Nat.mod_eq_of_lt (by omega)]
    omega
  unfold nextSize
  dsimp only
  rw [if_neg, hsub]
  rintro ⟨h1, -⟩
  rw [BitVec.lt_def, hsub] at h1
  omega

/-- The number of back-off steps from one size to another. -/
def steps (b m s : BitVec w) : ℕ := (s.toNat - m.toNat + (b.toNat - 1)) / b.toNat

/-- The sizes that are tried from `s` on, and the last one, are as they should be. -/
structure Tries (try_ : ℕ → BitVec w → Option (BitVec w)) (b m s : BitVec w) (k : ℕ)
    (attempted : List (BitVec w)) (res : Option (BitVec w × BitVec w)) : Prop where
  length : attempted.length ≤ steps b m s + 1
  range : ∀ x ∈ attempted, m ≤ x ∧ x ≤ s
  decreasing : attempted.Pairwise (· > ·)
  some : ∀ a x, res = some (a, x) → ∃ i, attempted[i]? = some x ∧ try_ (k + i) x = some a
  none : res = none → m ∈ attempted

/-- The loop gets a size before it would have to take the back-off from a smaller one: the smallest
size is not smaller, or one of those that are planned can be got. -/
def Leeway (try_ : ℕ → BitVec w → Option (BitVec w)) (b m s : BitVec w) (k : ℕ) : Prop :=
  b ≤ m ∨ ∃ i ≤ steps b m s, i * b.toNat ≤ s.toNat ∧
    (try_ (k + i) (BitVec.ofNat w (max (s.toNat - i * b.toNat) m.toNat))).isSome

theorem Tries.cons {s' : BitVec w} (h : Tries try_ b m s' (k + 1) attempted res)
    (hm : m ≤ s) (hlt : s' < s) (hsteps : steps b m s' + 1 ≤ steps b m s) :
    Tries try_ b m s k (s :: attempted) res where
  length := by
    have := h.length
    rw [length_cons]
    omega
  range x hx := by
    rcases mem_cons.1 hx with rfl | hx
    · exact ⟨hm, BitVec.le_refl _⟩
    · obtain ⟨h1, h2⟩ := h.range x hx
      rw [BitVec.lt_def] at hlt
      rw [BitVec.le_def] at h1 h2 ⊢
      rw [BitVec.le_def]
      omega
  decreasing := by
    refine pairwise_cons.2 ⟨fun x hx => ?_, h.decreasing⟩
    have h2 := (h.range x hx).2
    rw [gt_iff_lt]
    rw [BitVec.le_def] at h2
    rw [BitVec.lt_def] at hlt ⊢
    omega
  some a x hx := by
    obtain ⟨i, hi, ht⟩ := h.some a x hx
    refine ⟨i + 1, hi, ?_⟩
    rw [Nat.add_right_comm] at ht
    exact ht
  none hx := mem_cons_of_mem _ (h.none hx)

theorem tries_some {a : BitVec w} (hm : m ≤ s) (ha : try_ k s = some a) :
    Tries try_ b m s k [s] (some (a, s)) where
  length := by simp
  range x hx := by
    obtain rfl := mem_singleton.1 hx
    exact ⟨hm, BitVec.le_refl _⟩
  decreasing := pairwise_singleton _ _
  some a' x hx := by
    cases hx
    exact ⟨0, rfl, ha⟩
  none hx := by cases hx

theorem tries_none : Tries try_ b m m k [m] none where
  length := by simp
  range x hx := by
    obtain rfl := mem_singleton.1 hx
    exact ⟨BitVec.le_refl _, BitVec.le_refl _⟩
  decreasing := pairwise_singleton _ _
  some a x hx := by cases hx
  none _ := mem_singleton_self m

theorem steps_sub (hb : 0 < b.toNat) {s' : BitVec w} (hs' : s'.toNat = s.toNat - b.toNat)
    (hm : m.toNat ≤ s'.toNat) (hle : b.toNat ≤ s.toNat) : steps b m s = steps b m s' + 1 := by
  unfold steps
  rw [← Nat.add_div_right _ hb]
  congr 1
  omega

theorem steps_one (hm : m.toNat < s.toNat) (hle : s.toNat - m.toNat ≤ b.toNat) :
    steps b m s = 1 := by
  unfold steps
  exact Nat.div_eq_of_lt_le (by omega) (by omega)

theorem steps_self (hb : 0 < b.toNat) : steps b m m = 0 := by
  unfold steps
  exact Nat.div_eq_of_lt (by omega)

/-- With leeway the loop comes to an end, and tries what it should. -/
theorem loop_of_leeway (hb : 0 < b.toNat) (hm : m ≤ s) (h : Leeway try_ b m s k) :
    ∃ n attempted res, backOffLoop try_ b m n k s = some (attempted, res) ∧
      Tries try_ b m s k attempted res := by
  -- on the distance from the smallest size
  induction hd : s.toNat - m.toNat using Nat.strong_induction_on generalizing s k with
  | _ d ih =>
    rw [BitVec.le_def] at hm
    cases htry : try_ k s with
    | some a =>
      refine ⟨1, [s], some (a, s), ?_, tries_some (BitVec.le_def.2 hm) htry⟩
      rw [backOffLoop, htry]
    | none =>
      -- this size has failed, so that the leeway is that of the next one
      have hbs : b.toNat ≤ s.toNat := by
        rcases h with h | ⟨i, hi, hle, hsome⟩
        · rw [BitVec.le_def] at h
          omega
        · cases i with
          | zero =>
            rw [Nat.zero_mul, Nat.sub_zero, max_eq_left hm, Nat.add_zero, ofNat_toNat,
              setWidth_eq, htry] at hsome
            cases hsome
          | succ i =>
            have : b.toNat ≤ (i + 1) * b.toNat := Nat.le_mul_of_pos_left _ (Nat.succ_pos i)
            omega
      have hnext := toNat_nextSize_of_le (m := m) (BitVec.le_def.2 hbs)
      set s' := nextSize b m s with hs'
      -- the loop goes on with the next size, if that is at least the smallest one
      have hgo (hm' : m ≤ s') (hlt : s' < s) (hsteps : steps b m s' + 1 ≤ steps b m s)
          (hlee : Leeway try_ b m s' (k + 1)) :
          ∃ n attempted res, backOffLoop try_ b m n k s = some (attempted, res) ∧
            Tries try_ b m s k attempted res := by
        rw [BitVec.lt_def] at hlt
        rw [BitVec.le_def] at hm'
        obtain ⟨n, attempted, res, hrun, htries⟩ :=
          ih (s'.toNat - m.toNat) (by omega) (BitVec.le_def.2 hm') hlee rfl
        refine ⟨n + 1, s :: attempted, res, ?_,
          htries.cons (BitVec.le_def.2 hm) (BitVec.lt_def.2 hlt) hsteps⟩
        rw [backOffLoop, htry]
        dsimp only
        rw [if_pos (BitVec.le_def.2 hm'), hrun]
        rfl
      rcases Nat.lt_or_ge (s.toNat - b.toNat) m.toNat with hlow | hhigh
      · rcases Nat.lt_or_ge m.toNat s.toNat with hms | hsm
        · rw [if_pos ⟨hlow, hms⟩] at hnext
          have hone : steps b m s = 1 := steps_one hms (by omega)
          obtain hsm' : s' = m := eq_of_toNat_eq hnext
          refine hgo (BitVec.le_def.2 hnext.ge) (BitVec.lt_def.2 (by omega)) ?_ ?_
          · rw [hsm', steps_self hb, hone]
          · rw [hsm']
            rcases h with h | ⟨i, hi, hle, hsome⟩
            · exact .inl h
            · have hi1 : i = 1 := by
                rcases Nat.eq_zero_or_pos i with h0 | hpos
                · subst h0
                  rw [Nat.zero_mul, Nat.sub_zero, max_eq_left hm, Nat.add_zero, ofNat_toNat,
                    setWidth_eq, htry] at hsome
                  cases hsome
                · omega
              subst hi1
              rw [Nat.one_mul, max_eq_right hlow.le] at hsome
              refine .inr ⟨0, Nat.zero_le _, by omega, ?_⟩
              rw [Nat.zero_mul, Nat.sub_zero, max_self, Nat.add_zero]
              exact hsome
        · obtain rfl : s = m := eq_of_toNat_eq (by omega)
          rw [if_neg (fun h => absurd h.2 (lt_irrefl _))] at hnext
          refine ⟨1, [s], none, ?_, tries_none⟩
          rw [backOffLoop, htry]
          dsimp only
          rw [← hs', if_neg]
          rw [BitVec.le_def]
          omega
      · rw [if_neg (fun h => absurd h.1 (Nat.not_lt.2 hhigh))] at hnext
        have hsteps := steps_sub (m := m) hb hnext (by omega) hbs
        refine hgo (BitVec.le_def.2 (by omega)) (BitVec.lt_def.2 (by omega)) hsteps.ge ?_
        rcases h with h | ⟨i, hi, hle, hsome⟩
        · exact .inl h
        · cases i with
          | zero =>
            rw [Nat.zero_mul, Nat.sub_zero, max_eq_left hm, Nat.add_zero, ofNat_toNat,
              setWidth_eq, htry] at hsome
            cases hsome
          | succ i =>
            have hmul : (i + 1) * b.toNat = i * b.toNat + b.toNat := Nat.succ_mul i b.toNat
            refine .inr ⟨i, by omega, by omega, ?_⟩
            rw [hmul] at hsome
            rw [hnext, Nat.sub_sub, Nat.add_comm b.toNat, Nat.add_assoc k, Nat.add_comm 1]
            exact hsome

/-- A loop begins with the size that it is given. -/
theorem head_loop (h : backOffLoop try_ b m n k s = some (attempted, res)) :
    ∃ rest, attempted = s :: rest := by
  cases n with
  | zero => cases h
  | succ n =>
    rw [backOffLoop] at h
    split at h
    · cases h
      exact ⟨[], rfl⟩
    · split_ifs at h
      · obtain ⟨r, -, hr⟩ := map_eq_some_iff.1 h
        cases hr
        exact ⟨r.1, rfl⟩
      · cases h
        exact ⟨[], rfl⟩

/-- Without leeway the loop tries a larger size after a smaller one. -/
theorem loop_of_not_leeway (hm : m ≤ s) (hno : ¬ Leeway try_ b m s k)
    (hrun : backOffLoop try_ b m n k s = some (attempted, res)) :
    ¬ attempted.Pairwise (· > ·) := by
  induction n generalizing s k attempted with
  | zero => cases hrun
  | succ n ih =>
    unfold Leeway at hno
    rw [not_or] at hno
    obtain ⟨hbm, hno⟩ := hno
    rw [BitVec.le_def] at hm hbm
    have hb : 0 < b.toNat := by omega
    have htry : try_ k s = none := by
      by_contra hsome
      refine hno ⟨0, Nat.zero_le _, by omega, ?_⟩
      rw [Nat.zero_mul, Nat.sub_zero, max_eq_left hm, Nat.add_zero, ofNat_toNat,
        setWidth_eq]
      exact isSome_iff_ne_none.2 hsome
    rw [backOffLoop, htry] at hrun
    dsimp only at hrun
    rcases Nat.lt_or_ge s.toNat b.toNat with hsb | hbs
    · have hnext := toNat_nextSize_of_lt (BitVec.lt_def.2 hsb) (BitVec.le_def.2 hm)
      have hblt := b.isLt
      rw [if_pos (BitVec.le_def.2 (by omega))] at hrun
      obtain ⟨r, hr, heq⟩ := map_eq_some_iff.1 hrun
      cases heq
      obtain ⟨rest, hrest⟩ := head_loop hr
      intro hpair
      rw [hrest] at hpair
      have hgt := rel_of_pairwise_cons hpair mem_cons_self
      rw [gt_iff_lt, BitVec.lt_def] at hgt
      omega
    · have hnext := toNat_nextSize_of_le (m := m) (BitVec.le_def.2 hbs)
      set s' := nextSize b m s with hs'
      -- the next size has no leeway either
      have hgo (hm' : m.toNat ≤ s'.toNat) (hno' : ¬ Leeway try_ b m s' (k + 1)) :
          ¬ attempted.Pairwise (· > ·) := by
        rw [if_pos (BitVec.le_def.2 hm')] at hrun
        obtain ⟨r, hr, heq⟩ := map_eq_some_iff.1 hrun
        cases heq
        exact fun hpair => ih (BitVec.le_def.2 hm') hno' hr (pairwise_cons.1 hpair).2
      rcases Nat.lt_or_ge (s.toNat - b.toNat) m.toNat with hlow | hhigh
      · rw [if_pos ⟨hlow, by omega⟩] at hnext
        obtain hsm' : s' = m := eq_of_toNat_eq hnext
        refine hgo hnext.ge ?_
        rw [hsm']
        rintro (h | ⟨i, hi, -, hsome⟩)
        · exact hbm (BitVec.le_def.1 h)
        · rw [steps_self hb, Nat.le_zero] at hi
          subst hi
          rw [Nat.zero_mul, Nat.sub_zero, max_self, Nat.add_zero] at hsome
          refine hno ⟨1, (steps_one (by omega) (by omega)).ge, by omega, ?_⟩
          rw [Nat.one_mul, max_eq_right hlow.le]
          exact hsome
      · rw [if_neg (fun h => absurd h.1 (Nat.not_lt.2 hhigh))] at hnext
        have hsteps := steps_sub (m := m) hb hnext (by omega) hbs
        refine hgo (by omega) ?_
        rintro (h | ⟨i, hi, hle, hsome⟩)
        · exact hbm (BitVec.le_def.1 h)
        · have hmul : (i + 1) * b.toNat = i * b.toNat + b.toNat := Nat.succ_mul i b.toNat
          refine hno ⟨i + 1, by omega, by omega, ?_⟩
          rw [hnext, Nat.sub_sub, Nat.add_comm b.toNat, Nat.add_assoc k, Nat.add_comm 1] at hsome
          rw [hmul]
          exact hsome

end Loop

/-! ### The two functions -/

/-- What a call has done is right: the sizes that it has tried get smaller, lie between the smallest
and the desired one, and are no more than the back-off steps between these; it returns `TRUE` with a
size that it has got, and `FALSE` only after the smallest one. -/
structure Outcome.Right (o : Outcome w) (try_ : ℕ → BitVec w → Option (BitVec w))
    (b minSize desiredSize : BitVec w) : Prop where
  length : o.attempted.length ≤ steps b minSize desiredSize + 1
  range : ∀ x ∈ o.attempted, minSize ≤ x ∧ x ≤ desiredSize
  decreasing : o.attempted.Pairwise (· > ·)
  true : o.result = true →
    ∃ i, o.attempted[i]? = some o.heap.size ∧ try_ i o.heap.size = some o.heap.start
  false : o.result = false → minSize ∈ o.attempted

/-- A call comes to an end, with an outcome that is right. -/
def BacksOff (call : ℕ → Option (Outcome w)) (try_ : ℕ → BitVec w → Option (BitVec w))
    (b minSize desiredSize : BitVec w) : Prop :=
  ∃ n o, call n = some o ∧ o.Right try_ b minSize desiredSize

theorem finish_attempted (s : State w) (isShared : Bool) (h : Heap w)
    (r : List (BitVec w) × Option (BitVec w × BitVec w)) :
    (finish s isShared h r).attempted = r.1 := by
  obtain ⟨attempted, res⟩ := r
  cases res with
  | none => rfl
  | some a => rfl

theorem backsOff_loop_iff (s : State w) (isShared : Bool) (h : Heap w)
    (try_ : ℕ → BitVec w → Option (BitVec w)) (b m d : BitVec w) (hb : 0 < b.toNat) :
    BacksOff (fun n => (backOffLoop try_ b m n 0 d).map (finish s isShared h)) try_ b m d ↔
      m ≤ d ∧ Leeway try_ b m d 0 := by
  constructor
  · rintro ⟨n, o, hrun, hright⟩
    obtain ⟨⟨attempted, res⟩, hloop, rfl⟩ := map_eq_some_iff.1 hrun
    have hatt := finish_attempted s isShared h (attempted, res)
    obtain ⟨rest, hrest⟩ := head_loop hloop
    have hmd : m ≤ d := (hright.range d (by rw [hatt, hrest]; exact mem_cons_self)).1
    refine ⟨hmd, ?_⟩
    by_contra hno
    have hdecreasing := hright.decreasing
    rw [hatt] at hdecreasing
    exact loop_of_not_leeway hmd hno hloop hdecreasing
  · rintro ⟨hmd, hlee⟩
    obtain ⟨n, attempted, res, hloop, htries⟩ := loop_of_leeway hb hmd hlee
    refine ⟨n, finish s isShared h (attempted, res), map_eq_some_iff.2 ⟨_, hloop, rfl⟩, ?_⟩
    have hatt := finish_attempted s isShared h (attempted, res)
    refine ⟨?_, ?_, ?_, ?_, ?_⟩
    · rw [hatt]
      exact htries.length
    · rw [hatt]
      exact htries.range
    · rw [hatt]
      exact htries.decreasing
    · intro htrue
      cases res with
      | none => cases htrue
      | some a =>
        obtain ⟨i, hi, ht⟩ := htries.some a.1 a.2 rfl
        rw [Nat.zero_add] at ht
        exact ⟨i, hi, ht⟩
    · intro hfalse
      cases res with
      | none => exact htries.none rfl
      | some a => cases hfalse

/-- The sizes that `createHeap` begins and ends with. -/
def createSizes (s : State w) (desiredSize minSize : BitVec w) : BitVec w × BitVec w :=
  (align (if desiredSize < minSize then minSize else desiredSize) s.pageSize,
    align minSize s.pageSize)

/-- **Heaps back off** as they should exactly if the loop has leeway: the back-off is at most the
smallest size in whole pages, or a size can be got before the back-off is taken from a smaller
one. -/
theorem backsOff_iff (ADDRESS_BITS : ℕ) (HAS_REMAP : Bool) (s : State w) (isShared : Bool)
    (h : Heap w) (mmapAnon : ℕ → BitVec w → BitVec w → Option (BitVec w))
    (mremap : ℕ → BitVec w → BitVec w → BitVec w → Option (BitVec w))
    (desiredSize minSize : BitVec w) {q : ℕ} (hq : q < w) (hpage : s.pageSize.toNat = 2 ^ q) :
    (let (d, m) := createSizes s desiredSize minSize
      let try_ := mmapSize ADDRESS_BITS s mmapAnon
      BacksOff (createHeap ADDRESS_BITS s isShared mmapAnon h desiredSize minSize) try_
        (backoff s d m) m d ↔ m ≤ d ∧ Leeway try_ (backoff s d m) m d 0) ∧
    (let d := align desiredSize s.pageSize
      let m := align minSize s.pageSize
      let try_ := fun k newSize => mremap k h.start (withMaps s h.size) (withMaps s newSize)
      BacksOff (remapHeap HAS_REMAP s isShared mremap h desiredSize minSize) try_
        (backoff s d m) m d ↔
          HAS_REMAP = true ∧ m ≤ d ∧ Leeway try_ (backoff s d m) m d 0) := by
  constructor
  · exact backsOff_loop_iff s isShared h _ _ _ _ (backoff_pos hq hpage _ _)
  · cases HAS_REMAP with
    | true =>
      have hiff := backsOff_loop_iff s isShared h
        (fun k newSize => mremap k h.start (withMaps s h.size) (withMaps s newSize))
        (backoff s (align desiredSize s.pageSize) (align minSize s.pageSize))
        (align minSize s.pageSize) (align desiredSize s.pageSize) (backoff_pos hq hpage _ _)
      exact hiff.trans ⟨fun hx => ⟨rfl, hx⟩, fun hx => hx.2⟩
    | false =>
      constructor
      · rintro ⟨n, o, hrun, hright⟩
        cases hrun
        exact absurd (hright.false rfl) List.not_mem_nil
      · rintro ⟨hfalse, -⟩
        cases hfalse

/-- Pages of 4096 bytes, and no maps. -/
def pages4096 : State 64 := ⟨4096, false, 0, 0⟩

def noHeap : Heap 64 := ⟨0, 0, 0⟩

/-- From 32 pages down to 16, where every call of `mmap` fails. -/
theorem backsOff_32_16 :
    BacksOff (createHeap 47 pages4096 false (fun _ _ _ => none) noHeap 131072 65536)
      (mmapSize 47 pages4096 fun _ _ _ => none)
      (backoff pages4096 131072 65536) 65536 131072 :=
  (backsOff_iff 47 true pages4096 false noHeap (fun _ _ _ => none) (fun _ _ _ _ => none) 131072
    65536 (q := 12) (by norm_num) rfl).1.2 ⟨by decide, .inl (by decide)⟩

/-- One page down to none, where every call of `mmap` fails: the loop goes on with sizes that are
larger than what is desired. -/
theorem not_backsOff_4096_0 :
    ¬ BacksOff (createHeap 47 pages4096 false (fun _ _ _ => none) noHeap 4096 0)
      (mmapSize 47 pages4096 fun _ _ _ => none) (backoff pages4096 4096 0) 0 4096 := by
  intro hback
  have hlee := (backsOff_loop_iff pages4096 false noHeap
    (mmapSize 47 pages4096 fun _ _ _ => none) 4096 0 4096 (by decide)).1 hback
  rcases hlee.2 with hle | ⟨i, -, -, hsome⟩
  · exact absurd hle (by decide)
  · simp [mmapSize] at hsome

end MultiMLton.GC.HeapCreate
