import Mathlib.Data.List.DropRight
import MultiMLton.Pacml.CircularQueue

/-!
# Cleaning the circular queue

A channel cleans its queue before it uses it: `cleanPrefix` and `cleanSuffix` walk from either
end over the elements that satisfy a predicate, empty their cells and `shrink` what is left.

* `walkPrefix`, `cleanPrefix`, `walkSuffix`, `cleanSuffix`: the code;
* `getNewSize_spec`: the halving of `shrink` in closed form, and `Tight`, the sizes for which
  the new array has no room for the write pointer;
* `cleanPrefix_eq`, `cleanSuffix_eq`: what the walks hand to `shrink`, and `cleanSuffix_loops`,
  the queues that `cleanSuffix` never returns from;
* `clean_restores_iff`: when the two return a well-formed queue with the right elements.
-/

namespace MultiMLton.CirQueue

open Ring List Int Nat

variable {α : Type*}

/-! ### The code -/

/-- The loop `walk` of `cleanPrefix`: the array, the read and the write pointer it ends with. -/
def walkPrefix (clean : α → Bool) (size wpv : ℤ) :
    ℕ → List (Option α) → ℤ → Except Abort (List (Option α) × ℤ × ℤ)
  | 0, _, _ => .error .loops
  | fuel + 1, arr, ptr =>
    -- the buffer is empty
    if ptr = -1 then .ok (arr, -1, 0)
    -- the buffer becomes empty as we clean
    else if ptr = wpv then .ok (arr, -1, 0)
    else do
      match ← sub arr ptr with
      | none => walkPrefix clean size wpv fuel arr ((ptr + 1) % size)
      | some v =>
        if !clean v then
          .ok (arr, ptr, wpv)
        else do
          let arr ← update arr ptr none
          walkPrefix clean size wpv fuel arr ((ptr + 1) % size)

/-- `cleanPrefix`, with at most `fuel` turns of its loop. -/
def cleanPrefix (q : CirQueue α) (clean : α → Bool) (fuel : ℕ) : Except Abort (CirQueue α) := do
  let p ← walkPrefix clean q.size q.wp fuel q.arr q.rp
  shrink ⟨p.1, q.size, p.2.1, p.2.2⟩

/-- The loop `walk` of `cleanSuffix`. -/
def walkSuffix (clean : α → Bool) (size rpv : ℤ) :
    ℕ → List (Option α) → ℤ → Except Abort (List (Option α) × ℤ × ℤ)
  | 0, _, _ => .error .loops
  | fuel + 1, arr, ptr =>
    -- the buffer is empty
    if rpv = -1 then .ok (arr, -1, 0)
    -- the buffer becomes empty as we clean
    else if rpv > ptr ∧ rpv - ptr = 1 then .ok (arr, -1, 0)
    else do
      match ← sub arr ptr with
      | none => walkSuffix clean size rpv fuel arr ((ptr - 1) % size)
      | some v =>
        if !clean v then
          .ok (arr, rpv, (ptr + 1) % size)
        else do
          let arr ← update arr ptr none
          walkSuffix clean size rpv fuel arr ((ptr - 1) % size)

/-- `cleanSuffix`, with at most `fuel` turns of its loop. -/
def cleanSuffix (q : CirQueue α) (clean : α → Bool) (fuel : ℕ) : Except Abort (CirQueue α) := do
  let p ← walkSuffix clean q.size q.rp fuel q.arr ((q.wp - 1) % q.size)
  shrink ⟨p.1, q.size, p.2.1, p.2.2⟩

/-! ### Layout at the other end -/

variable {n r : ℕ}

theorem intMod_pred (hr : r < n) : ((r : ℤ) - 1) % n = ((r + n - 1) % n : ℕ) := by
  push_cast [show 1 ≤ r + n by omega]
  rw [show (r : ℤ) + n - 1 = r - 1 + n by ring, add_emod_right]

variable {arr : List (Option α)}

/-- An array that holds nothing has only empty cells. -/
theorem Layout.empty_cell (h : Layout arr n r []) {k : ℕ} (hk : k < n) : arr[k]? = some none := by
  have hcell := (h.restart hk).cell 0 (by omega)
  rwa [add_zero, mod_eq_of_lt hk] at hcell

variable {xs : List α}

/-- Emptying the last occupied cell. -/
theorem Layout.popBack {x : α} (h : Layout arr n r (xs ++ [x])) :
    Layout (arr.set ((r + xs.length) % n) none) n r xs where
  length_eq := by simp [h.length_eq]
  start_lt := h.start_lt
  length_le := by have := h.length_le; simp at this; omega
  cell i hi := by
    have hlt : xs.length < n := by have := h.length_le; simp at this; omega
    by_cases hix : i = xs.length
    · subst hix
      simp [h.length_eq, rotate_lt r _ (show 0 < n by omega)]
    · have hne : (r + xs.length) % n ≠ (r + i) % n := fun e =>
        hix ((rotate_inj h.start_lt hlt hi).1 e).symm
      rw [getElem?_set_ne hne, h.cell i hi]
      by_cases hil : i < xs.length
      · rw [getElem?_append_left hil]
      · rw [getElem?_eq_none (by simp; omega), getElem?_eq_none (by omega)]

/-! ### The walks -/

/-- The pointers of a queue of size `n` whose first element lies in the cell `r`. -/
def pointers (n r : ℕ) (xs : List α) : ℤ × ℤ :=
  if xs = [] then (-1, 0) else ((r : ℤ), (((r + xs.length) % n : ℕ) : ℤ))

theorem holdsAt_pointers (hn : 2 ≤ n) (hlt : xs.length < n) (h : Layout arr n r xs) :
    HoldsAt ⟨arr, n, (pointers n r xs).1, (pointers n r xs).2⟩ n r xs := by
  refine ⟨hn, rfl, hlt, h, ?_, ?_⟩
  · show (pointers n r xs).1 = _
    unfold pointers
    split_ifs <;> rfl
  · show (pointers n r xs).2 = _
    unfold pointers
    split_ifs <;> rfl

/-- From the first element on `walkPrefix` empties the cells of the longest prefix to clean. -/
theorem walkPrefix_eq (clean : α → Bool) {n : ℕ} :
    ∀ {arr : List (Option α)} {r : ℕ}, Layout arr n r xs → xs.length < n →
      ∃ arr' r', Layout arr' n r' (xs.dropWhile clean) ∧ ∀ fuel, xs.length < fuel →
        walkPrefix clean n ((r + xs.length) % n : ℕ) fuel arr r =
          .ok (arr', pointers n r' (xs.dropWhile clean)) := by
  induction xs with
  | nil =>
    intro arr r h hlt
    refine ⟨arr, r, h, fun fuel hfuel => ?_⟩
    obtain ⟨fuel, rfl⟩ : ∃ k, fuel = k + 1 := ⟨fuel - 1, by simp at hfuel; omega⟩
    have hr : (r : ℤ) = ((r + 0) % n : ℕ) := by rw [add_zero, mod_eq_of_lt h.start_lt]
    rw [walkPrefix, if_neg (by omega), length_nil, if_pos hr]
    rfl
  | cons x xs ih =>
    intro arr r h hlt
    have hr := h.start_lt
    have hcell := h.cell 0 (by omega)
    rw [add_zero, mod_eq_of_lt hr] at hcell
    -- the write pointer is met only behind the last element
    have hne : (r : ℤ) ≠ ((r + (x :: xs).length) % n : ℕ) := fun e => by
      have e0 : (r + 0) % n = (r + (x :: xs).length) % n := by
        rw [add_zero, mod_eq_of_lt hr]
        exact_mod_cast e
      have := (rotate_inj hr (by omega) hlt).1 e0
      simp at this
    by_cases hx : clean x = true
    · have hwp : (r + (x :: xs).length) % n = ((r + 1) % n + xs.length) % n := by
        rw [Nat.mod_add_mod, length_cons, add_assoc, add_comm 1]
      obtain ⟨arr', r', h', hwalk⟩ := ih h.pop (by simp at hlt; omega)
      rw [dropWhile_cons_of_pos hx]
      refine ⟨arr', r', h', fun fuel hfuel => ?_⟩
      obtain ⟨fuel, rfl⟩ : ∃ k, fuel = k + 1 := ⟨fuel - 1, by omega⟩
      rw [walkPrefix, if_neg (by omega), if_neg hne, sub_of_getElem? hcell,
        ← hwalk fuel (by simpa using hfuel), ← hwp]
      show (if (!clean x) = true then _ else _) = _
      rw [if_neg (by simp [hx]), update_of_lt (by rw [h.length_eq]; exact hr)]
      rfl
    · rw [dropWhile_cons_of_neg hx]
      refine ⟨arr, r, h, fun fuel hfuel => ?_⟩
      obtain ⟨fuel, rfl⟩ : ∃ k, fuel = k + 1 := ⟨fuel - 1, by omega⟩
      rw [walkPrefix, if_neg (by omega), if_neg hne, sub_of_getElem? hcell]
      show (if (!clean x) = true then _ else _) = _
      rw [if_pos (by simpa using hx), pointers, if_neg (by simp)]

theorem last_index (xs : List α) (x : α) {n : ℕ} (r : ℕ) (hn : 0 < n) :
    (r + (xs ++ [x]).length + n - 1) % n = (r + xs.length) % n := by
  rw [length_append, length_singleton,
    show r + (xs.length + 1) + n - 1 = r + xs.length + n by omega, add_mod_right]

theorem pred_index {n : ℕ} (k : ℕ) (hn : 0 < n) :
    ((k % n : ℕ) - 1 : ℤ) % n = ((k + n - 1) % n : ℕ) := by
  rw [intMod_pred (mod_lt _ hn)]
  congr 1
  rw [Nat.add_sub_assoc hn, Nat.mod_add_mod, ← Nat.add_sub_assoc hn]

theorem Layout.last_cell {x : α}
    (h : Layout arr n r (xs ++ [x])) : arr[(r + xs.length) % n]? = some (some x) := by
  have hcell := h.cell xs.length (by have := h.length_le; simp at this; omega)
  rwa [List.getElem?_append_right le_rfl, Nat.sub_self, List.getElem?_cons_zero] at hcell

/-- From the last element on `walkSuffix` empties the cells of the longest suffix to clean; it
stops there unless it would have to stop before the cell `0`. -/
theorem walkSuffix_eq (clean : α → Bool) (hr0 : r = 0 → ¬ xs.all clean = true) :
    ∀ {arr : List (Option α)}, Layout arr n r xs → xs.length < n →
      ∃ arr', Layout arr' n r (xs.rdropWhile clean) ∧ ∀ fuel, xs.length < fuel →
        walkSuffix clean n r fuel arr ((r + xs.length + n - 1) % n : ℕ) =
          .ok (arr', pointers n r (xs.rdropWhile clean)) := by
  induction xs using reverseRecOn with
  | nil =>
    intro arr h hlt
    have hr := h.start_lt
    have hpos : r ≠ 0 := fun e => hr0 e rfl
    have hptr : (r + ([] : List α).length + n - 1) % n = r - 1 := by
      rw [length_nil, show r + 0 + n - 1 = r - 1 + n by omega, add_mod_right,
        mod_eq_of_lt (by omega)]
    refine ⟨arr, by simpa using h, fun fuel hfuel => ?_⟩
    obtain ⟨fuel, rfl⟩ : ∃ k, fuel = k + 1 := ⟨fuel - 1, by simp at hfuel; omega⟩
    rw [hptr, walkSuffix, if_neg (by omega), if_pos (by omega)]
    simp [pointers]
  | append_singleton xs x ih =>
    intro arr h hlt
    have hr := h.start_lt
    have hlt' : xs.length < n := by simp at hlt; omega
    have hk : (r + xs.length) % n < n := rotate_lt _ _ (by omega)
    -- the cell before the first element is free
    have hne : ¬ ((r : ℤ) > ((r + xs.length) % n : ℕ) ∧
        (r : ℤ) - ((r + xs.length) % n : ℕ) = 1) := by
      rintro ⟨-, e⟩
      have e' : (r + xs.length) % n = (r + (n - 1)) % n := by
        rw [show r + (n - 1) = r - 1 + n by omega, add_mod_right,
          mod_eq_of_lt (show r - 1 < n by omega)]
        omega
      have := (rotate_inj hr hlt' (by omega)).1 e'
      simp at hlt
      omega
    by_cases hx : clean x = true
    · obtain ⟨arr', h', hwalk⟩ := ih (fun e => by simpa [hx] using hr0 e) h.popBack hlt'
      rw [rdropWhile_concat_pos _ _ _ hx]
      refine ⟨arr', h', fun fuel hfuel => ?_⟩
      obtain ⟨fuel, rfl⟩ : ∃ k, fuel = k + 1 := ⟨fuel - 1, by omega⟩
      rw [last_index xs x r (by omega), walkSuffix, if_neg (by omega), if_neg hne,
        sub_of_getElem? h.last_cell, ← hwalk fuel (by simpa using hfuel),
        ← pred_index _ (by omega)]
      show (if (!clean x) = true then _ else _) = _
      rw [if_neg (by simp [hx]), update_of_lt (by rw [h.length_eq]; exact hk)]
      rfl
    · rw [rdropWhile_concat_neg _ _ _ hx]
      refine ⟨arr, h, fun fuel hfuel => ?_⟩
      obtain ⟨fuel, rfl⟩ : ∃ k, fuel = k + 1 := ⟨fuel - 1, by omega⟩
      rw [last_index xs x r (by omega), walkSuffix, if_neg (by omega), if_neg hne,
        sub_of_getElem? h.last_cell]
      show (if (!clean x) = true then _ else _) = _
      rw [if_pos (by simpa using hx), pointers, if_neg (by simp), length_append,
        length_singleton, ← add_assoc]
      push_cast
      rw [emod_add_emod]

variable {clean : α → Bool}

/-- Below the cell `0` the test of `walkSuffix` never succeeds: it goes round over empty cells. -/
theorem walkSuffix_loops {n : ℕ} (h : Layout arr n 0 []) (fuel : ℕ) :
    ∀ k < n, walkSuffix clean n (0 : ℕ) fuel arr k = .error .loops := by
  induction fuel with
  | zero => exact fun k _ => rfl
  | succ fuel ih =>
    intro k hk
    rw [walkSuffix, if_neg (by omega), if_neg (by omega), sub_of_getElem? (h.empty_cell hk)]
    show walkSuffix clean n (0 : ℕ) fuel arr (((k : ℤ) - 1) % n) = _
    rw [intMod_pred hk]
    exact ih _ (mod_lt _ (by omega))

/-- When every element is to be cleaned and the first lies in the cell `0`, `walkSuffix` does not
end. -/
theorem walkSuffix_all {n : ℕ} (hclean : xs.all clean = true) :
    ∀ {arr : List (Option α)} (fuel : ℕ), Layout arr n 0 xs → xs.length < n →
      walkSuffix clean n (0 : ℕ) fuel arr ((0 + xs.length + n - 1) % n : ℕ) = .error .loops := by
  induction xs using reverseRecOn with
  | nil =>
    intro arr fuel h hlt
    exact walkSuffix_loops h fuel _ (mod_lt _ h.start_lt)
  | append_singleton xs x ih =>
    intro arr fuel h hlt
    cases fuel with
    | zero => rfl
    | succ fuel =>
      simp only [all_append, all_cons, all_nil, Bool.and_true, Bool.and_eq_true]
        at hclean
      have hlt' : xs.length < n := by simp at hlt; omega
      have hk : (0 + xs.length) % n < n := rotate_lt _ _ (by omega)
      rw [last_index xs x 0 (by omega), walkSuffix, if_neg (by omega), if_neg (by omega),
        sub_of_getElem? h.last_cell, ← ih hclean.1 fuel h.popBack hlt', ← pred_index _ (by omega)]
      show (if (!clean x) = true then _ else _) = _
      rw [if_neg (by simp [hclean.2]), update_of_lt (by rw [h.length_eq]; exact hk)]
      rfl

/-! ### The size that `shrink` settles on -/

/-- The loop halves while both the live elements and two cells fit, and doubles the first size
that is too small; a half is rounded down. -/
theorem getNewSizeLoop_spec (live : ℕ) :
    ∀ (fuel s : ℕ), max live 2 ≤ s → s ≤ fuel →
      ∃ j, getNewSizeLoop live fuel s = (2 * (s / 2 ^ (j + 1)) : ℕ) ∧
        max live 2 ≤ s / 2 ^ j ∧ s / 2 ^ (j + 1) < max live 2 := by
  intro fuel
  induction fuel with
  | zero => exact fun s hs hfuel => absurd hfuel (by omega)
  | succ fuel ih =>
    intro s hs hfuel
    have hloop : getNewSizeLoop live (fuel + 1) s = getNewSizeLoop live fuel (s / 2 : ℕ) := by
      rw [getNewSizeLoop, if_neg (by simp only [startSize]; omega)]
      push_cast
      rfl
    rw [hloop]
    by_cases hhalf : max live 2 ≤ s / 2
    · obtain ⟨j, hj, hle, hlt⟩ := ih (s / 2) hhalf (by omega)
      have hdiv : ∀ i, s / 2 / 2 ^ i = s / 2 ^ (i + 1) := fun i => by
        rw [Nat.div_div_eq_div_mul, pow_succ, mul_comm]
      rw [hdiv] at hj hle hlt
      exact ⟨j + 1, hj, hle, hlt⟩
    · refine ⟨0, ?_, by simpa using hs, by rw [zero_add, pow_one]; omega⟩
      cases fuel with
      | zero => simp [getNewSizeLoop, mul_comm]
      | succ fuel =>
        rw [getNewSizeLoop, if_pos (by simp only [startSize]; omega)]
        push_cast
        ring

theorem getNewSize_spec {live n : ℕ} (hlive : 1 ≤ live) (hn : 4 * live ≤ n) :
    ∃ j, getNewSize live n = (2 * (n / 2 ^ (j + 1)) : ℕ) ∧
      max live 2 ≤ n / 2 ^ j ∧ n / 2 ^ (j + 1) < max live 2 := by
  rw [getNewSize, toNat_natCast]
  exact getNewSizeLoop_spec live n n (by omega) le_rfl

/-- Halving `n` at least twice gives a size that the live elements fill, or fill once it is
rounded down to an even number. -/
def Tight (n live : ℕ) : Prop :=
  2 ≤ live ∧ ∃ j, 2 ≤ j ∧ live ≤ n / 2 ^ j ∧ 2 * (n / 2 ^ (j + 1)) ≤ live

theorem Tight.four_mul_le {n live : ℕ} (h : Tight n live) : 4 * live ≤ n := by
  obtain ⟨-, j, hj, hle, -⟩ := h
  have hpow : n / 2 ^ j ≤ n / 4 :=
    Nat.div_le_div_left (by simpa using Nat.pow_le_pow_right (show 0 < 2 by omega) hj)
      (by omega)
  omega

/-- The new array has a cell beyond the live elements unless the sizes are tight. -/
theorem getNewSize_le_iff {live n : ℕ} (hlive : 1 ≤ live) (hn : 4 * live ≤ n) :
    getNewSize live n ≤ live ↔ Tight n live := by
  obtain ⟨j, hsize, hle, hlt⟩ := getNewSize_spec hlive hn
  rw [hsize, Nat.cast_le]
  constructor
  · intro h
    have htwo : 2 ≤ live := by
      have := Nat.div_div_eq_div_mul n (2 ^ j) 2
      rw [← pow_succ] at this
      omega
    refine ⟨htwo, j, ?_, by omega, h⟩
    -- both `n` and its half are too large to stop at
    by_contra hj
    have hquarter : n / 4 ≤ n / 2 ^ (j + 1) :=
      Nat.div_le_div_left (by
        simpa using Nat.pow_le_pow_right (show 0 < 2 by omega) (show j + 1 ≤ 2 by omega))
        (by positivity)
    omega
  · rintro ⟨htwo, i, -, hi, hle'⟩
    have hanti : ∀ a b, a ≤ b → n / 2 ^ b ≤ n / 2 ^ a := fun a b hab =>
      Nat.div_le_div_left (Nat.pow_le_pow_right (by omega) hab) (by positivity)
    have hij : i = j := by
      rcases lt_trichotomy i j with hlt' | heq | hgt
      · have := hanti (i + 1) j hlt'
        omega
      · exact heq
      · have := hanti (j + 1) i hgt
        omega
    exact hij ▸ hle'

/-! ### Shrinking -/

/-- The queue that `shrink` makes of the live elements `xs` with an array of `m` cells. -/
def moved (m : ℕ) (xs : List α) : CirQueue α :=
  ⟨(List.range m).map fun i => xs[i]?, m, 0, xs.length⟩

theorem moved_holdsAt {m : ℕ} (hxs : xs ≠ []) (hm : xs.length < m) :
    HoldsAt (moved m xs) m 0 xs where
  two_le := by have := length_pos_iff.2 hxs; omega
  size_eq := rfl
  length_lt := hm
  layout := layout_tabulated xs (by omega) hm.le
  rp_eq := by rw [if_neg hxs]; rfl
  wp_eq := by rw [if_neg hxs, zero_add, mod_eq_of_lt hm]; rfl

theorem moved_not_holds {m : ℕ} {xs ys : List α} (hm : m ≤ xs.length) :
    ¬ Holds (moved m xs) ys := fun h => by
  have : (xs.length : ℤ) < m := h.wp_lt
  omega

variable {q : CirQueue α}

/-- What `shrink` does to a queue with elements: nothing, or a move to an array whose size is
some power of two below the old one, rounded down to an even number. -/
theorem shrink_cases (h : HoldsAt q n r xs) (hxs : xs ≠ []) :
    (n < 4 * xs.length ∧ shrink q = .ok q) ∨
      (4 * xs.length ≤ n ∧ ∃ j, shrink q = .ok (moved (2 * (n / 2 ^ (j + 1))) xs) ∧
        max xs.length 2 ≤ n / 2 ^ j ∧ n / 2 ^ (j + 1) < max xs.length 2 ∧
        (2 * (n / 2 ^ (j + 1)) ≤ xs.length ↔ Tight n xs.length)) := by
  have hpos : 1 ≤ xs.length := length_pos_iff.2 hxs
  by_cases hn : 4 * xs.length ≤ n
  · obtain ⟨j, hsize, hle, hlt⟩ := getNewSize_spec hpos hn
    refine .inr ⟨hn, j, shrink_move h hxs hn hsize, hle, hlt, ?_⟩
    rw [← getNewSize_le_iff hpos hn, hsize, Nat.cast_le]
  · exact .inl ⟨by omega, shrink_keep h hxs (by omega)⟩

/-- `shrink` leaves a well-formed queue exactly when the sizes are not tight. -/
theorem shrink_holds_iff (h : HoldsAt q n r xs) :
    ∃ q', shrink q = .ok q' ∧ (Holds q' xs ↔ ¬ Tight n xs.length) := by
  by_cases hxs : xs = []
  · subst hxs
    obtain ⟨q', r', hq', h'⟩ := shrink_nil h
    exact ⟨q', hq', iff_of_true ⟨2, r', h'⟩ fun ht => absurd ht.1 (by simp)⟩
  · rcases shrink_cases h hxs with ⟨hn, hq⟩ | ⟨-, j, hq, -, -, ht⟩
    · exact ⟨q, hq, iff_of_true ⟨n, r, h⟩ fun ht => absurd ht.four_mul_le (by omega)⟩
    · refine ⟨_, hq, ?_⟩
      rw [← ht]
      constructor
      · exact fun hh hle => moved_not_holds hle hh
      · exact fun hle => ⟨_, 0, moved_holdsAt hxs (by omega)⟩

/-! ### Cleaning -/

/-- The call returns `r` once its loop may take enough turns. -/
def Returns {β : Type*} (call : ℕ → Except Abort β) (r : β) : Prop :=
  ∃ k, ∀ fuel, k ≤ fuel → call fuel = .ok r

theorem Returns.unique {β : Type*} {call : ℕ → Except Abort β} {r r' : β} (h : Returns call r)
    (h' : Returns call r') : r = r' := by
  obtain ⟨k, hk⟩ := h
  obtain ⟨k', hk'⟩ := h'
  have := (hk (max k k') (le_max_left _ _)).symm.trans (hk' _ (le_max_right _ _))
  exact Except.ok.inj this

/-- The call returns a well-formed queue that holds `xs`. -/
def Restores (call : ℕ → Except Abort (CirQueue α)) (xs : List α) : Prop :=
  ∃ q, Returns call q ∧ Holds q xs

theorem Returns.restores_iff {call : ℕ → Except Abort (CirQueue α)}
    (h : Returns call q) (xs : List α) : Restores call xs ↔ Holds q xs :=
  ⟨fun ⟨_, hq, hh⟩ => h.unique hq ▸ hh, fun hh => ⟨q, h, hh⟩⟩

theorem not_restores_of_loops {call : ℕ → Except Abort (CirQueue α)}
    (h : ∀ fuel, call fuel = .error .loops) (xs : List α) : ¬ Restores call xs := by
  rintro ⟨q, ⟨k, hk⟩, -⟩
  have := (h k).symm.trans (hk k le_rfl)
  cases this

/-- `cleanPrefix` shrinks the queue of what the longest prefix to clean leaves. -/
theorem cleanPrefix_eq (h : HoldsAt q n r xs) (clean : α → Bool) :
    ∃ q₁ r₁, HoldsAt q₁ n r₁ (xs.dropWhile clean) ∧
      ∀ fuel, xs.length < fuel → cleanPrefix q clean fuel = shrink q₁ := by
  have hlen : (xs.dropWhile clean).length ≤ xs.length := (dropWhile_sublist clean).length_le
  by_cases hxs : xs = []
  · subst hxs
    refine ⟨q, r, h, fun fuel hfuel => ?_⟩
    obtain ⟨fuel, rfl⟩ : ∃ k, fuel = k + 1 := ⟨fuel - 1, by simp at hfuel; omega⟩
    have hrp : q.rp = -1 := h.rp_eq
    have hwp : q.wp = 0 := h.wp_eq
    rw [cleanPrefix, walkPrefix, if_pos hrp]
    show shrink ⟨q.arr, q.size, -1, 0⟩ = _
    rw [← hrp, ← hwp]
  · have hrp : q.rp = r := by rw [h.rp_eq, if_neg hxs]
    have hwp : q.wp = ((r + xs.length) % n : ℕ) := by rw [h.wp_eq, if_neg hxs]
    obtain ⟨arr', r', hl, hwalk⟩ := walkPrefix_eq clean h.layout h.length_lt
    have hlt : (xs.dropWhile clean).length < n := by have := h.length_lt; omega
    refine ⟨_, r', holdsAt_pointers h.two_le hlt hl, fun fuel hfuel => ?_⟩
    rw [cleanPrefix, h.size_eq, hrp, hwp, hwalk fuel hfuel]
    rfl

/-- `cleanSuffix` shrinks the queue of what the longest suffix to clean leaves, unless it has to
clean a queue that starts in the cell `0` altogether. -/
theorem cleanSuffix_eq (h : HoldsAt q n r xs) (hr0 : ¬ (q.rp = 0 ∧ xs.all clean = true)) :
    ∃ q₁, HoldsAt q₁ n r (xs.rdropWhile clean) ∧
      ∀ fuel, xs.length < fuel → cleanSuffix q clean fuel = shrink q₁ := by
  have hlen : (xs.rdropWhile clean).length ≤ xs.length :=
    ( rdropWhile_prefix clean xs).length_le
  by_cases hxs : xs = []
  · subst hxs
    refine ⟨q, by simpa using h, fun fuel hfuel => ?_⟩
    obtain ⟨fuel, rfl⟩ : ∃ k, fuel = k + 1 := ⟨fuel - 1, by simp at hfuel; omega⟩
    have hrp : q.rp = -1 := h.rp_eq
    have hwp : q.wp = 0 := h.wp_eq
    rw [cleanSuffix, walkSuffix, if_pos hrp]
    show shrink ⟨q.arr, q.size, -1, 0⟩ = _
    rw [← hrp, ← hwp]
  · have hrp : q.rp = r := by rw [h.rp_eq, if_neg hxs]
    have hwp : q.wp = ((r + xs.length) % n : ℕ) := by rw [h.wp_eq, if_neg hxs]
    obtain ⟨arr', hl, hwalk⟩ := walkSuffix_eq clean
      (fun e hall => hr0 ⟨by omega, hall⟩) h.layout h.length_lt
    have hlt : (xs.rdropWhile clean).length < n := by have := h.length_lt; omega
    refine ⟨_, holdsAt_pointers h.two_le hlt hl, fun fuel hfuel => ?_⟩
    rw [cleanSuffix, h.size_eq, hrp, hwp, pred_index _ (by have := h.two_le; omega),
      hwalk fuel hfuel]
    rfl

/-- In that case it does not return. -/
theorem cleanSuffix_loops (h : HoldsAt q n r xs)
    (hr0 : q.rp = 0) (hclean : xs.all clean = true) (fuel : ℕ) :
    cleanSuffix q clean fuel = .error .loops := by
  have hxs : xs ≠ [] := fun e => by
    have := h.rp_eq
    rw [if_pos e, hr0] at this
    omega
  have hr : r = 0 := by
    have := h.rp_eq
    rw [if_neg hxs, hr0] at this
    exact_mod_cast this.symm
  subst hr
  have hwp : q.wp = ((0 + xs.length) % n : ℕ) := by rw [h.wp_eq, if_neg hxs]
  rw [cleanSuffix, h.size_eq, hr0, hwp, pred_index _ (by have := h.two_le; omega)]
  have := walkSuffix_all hclean fuel h.layout h.length_lt
  rw [Nat.cast_zero] at this
  rw [this]
  rfl

/-- **Cleaning restores the queue** except where the sizes are tight: then the smaller array has
no cell for the write pointer. And `cleanSuffix` does not return from cleaning a queue that
starts in the cell `0` altogether. -/
theorem clean_restores_iff {q : CirQueue α} {xs : List α} (h : Holds q xs) (clean : α → Bool) :
    (Restores (cleanPrefix q clean) (xs.dropWhile clean) ↔
      ¬ Tight q.size.toNat (xs.dropWhile clean).length) ∧
    (Restores (cleanSuffix q clean) (xs.rdropWhile clean) ↔
      ¬ Tight q.size.toNat (xs.rdropWhile clean).length ∧
        ¬ (q.rp = 0 ∧ ∀ x ∈ xs, clean x = true)) := by
  obtain ⟨n, r, h⟩ := h
  have hsize : q.size.toNat = n := by rw [h.size_eq, toNat_natCast]
  rw [hsize, ← all_eq_true]
  constructor
  · obtain ⟨q₁, r₁, h₁, hcode⟩ := cleanPrefix_eq h clean
    obtain ⟨q', hq', hiff⟩ := shrink_holds_iff h₁
    have hret : Returns (cleanPrefix q clean) q' :=
      ⟨xs.length + 1, fun fuel hfuel => (hcode fuel hfuel).trans hq'⟩
    rw [hret.restores_iff, hiff]
  · by_cases hr0 : q.rp = 0 ∧ xs.all clean = true
    · exact iff_of_false (not_restores_of_loops (cleanSuffix_loops h hr0.1 hr0.2) _)
        fun hc => hc.2 hr0
    · obtain ⟨q₁, h₁, hcode⟩ := cleanSuffix_eq h hr0
      obtain ⟨q', hq', hiff⟩ := shrink_holds_iff h₁
      have hret : Returns (cleanSuffix q clean) q' :=
        ⟨xs.length + 1, fun fuel hfuel => (hcode fuel hfuel).trans hq'⟩
      rw [hret.restores_iff, hiff, and_iff_left hr0]

theorem clean_restores_wrapped :
    Restores (cleanPrefix ⟨[some 2, none, none, some 1], 4, 3, 1⟩ fun x => x == 1) [2] ∧
      Restores (cleanSuffix ⟨[some 2, none, none, some 1], 4, 3, 1⟩ fun x => x == 1) [1, 2] := by
  have hwrap : Holds (⟨[some 2, none, none, some 1], 4, 3, 1⟩ : CirQueue ℕ) [1, 2] := by
    refine ⟨4, 3, by omega, rfl, by simp, ⟨rfl, by omega, by simp, ?_⟩, rfl, rfl⟩
    decide
  constructor
  · exact (clean_restores_iff hwrap fun x => x == 1).1.2 fun ht => absurd ht.1 (by decide)
  · exact (clean_restores_iff hwrap fun x => x == 1).2.2
      ⟨fun ht => absurd ht.four_mul_le (by decide), by simp⟩

/-- A queue of one element in the cell `0`: `cleanSuffix` does not return from cleaning it.
Eight cells with three elements: once the first is cleaned away the write pointer lies outside
the new array. -/
theorem clean_not_restores :
    (Holds (⟨[some 1, none], 2, 0, 1⟩ : CirQueue ℕ) [1] ∧
      ¬ Restores (cleanSuffix ⟨[some 1, none], 2, 0, 1⟩ fun _ => true) []) ∧
    (Holds (⟨[some 1, some 2, some 3, none, none, none, none, none], 8, 0, 3⟩ : CirQueue ℕ)
        [1, 2, 3] ∧
      ¬ Restores (cleanPrefix ⟨[some 1, some 2, some 3, none, none, none, none, none], 8, 0, 3⟩
        fun x => x == 1) [2, 3]) := by
  have hone : HoldsAt (⟨[some 1, none], 2, 0, 1⟩ : CirQueue ℕ) 2 0 [1] := by
    refine ⟨by omega, rfl, by simp, ⟨rfl, by omega, by simp, ?_⟩, rfl, rfl⟩
    decide
  refine ⟨⟨⟨2, 0, hone⟩, not_restores_of_loops (cleanSuffix_loops hone rfl rfl) _⟩, ?_, ?_⟩
  · refine ⟨8, 0, by omega, rfl, by simp, ⟨rfl, by omega, by simp, ?_⟩, rfl, rfl⟩
    decide
  · rintro ⟨q, ⟨k, hk⟩, hh⟩
    have := hk (k + 4) (by omega)
    have hcode : cleanPrefix (⟨[some 1, some 2, some 3, none, none, none, none, none], 8, 0, 3⟩ :
        CirQueue ℕ) (fun x => x == 1) (k + 4) = .ok ⟨[some 2, some 3], 2, 0, 2⟩ := rfl
    rw [hcode] at this
    cases this
    exact absurd hh.wp_lt (by decide)

end MultiMLton.CirQueue
