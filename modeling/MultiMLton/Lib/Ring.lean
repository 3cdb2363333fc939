import Mathlib.Tactic

/-!
# Positions on a ring

Cells `0, …, n - 1` read cyclically from a cell `r`.

* `rotate_eq`, `rotate_inj`: the cell `(r + i) % n`;
* `OnRing cells n r xs`: the cells from `r` on hold the list `xs`, and `OnRing.snoc`, `OnRing.tail`,
  `OnRing.head`, `OnRing.set`;
* `distance_eq`: how far one cell is behind another, in arithmetic modulo a multiple of `n`.
-/

namespace Ring

open List Function Nat

theorem rotate_eq {n r i : ℕ} (hr : r < n) (hi : i < n) :
    (r + i) % n = if r + i < n then r + i else r + i - n := by
  split_ifs with h
  · exact Nat.mod_eq_of_lt h
  · rw [mod_eq_sub_mod (by omega), Nat.mod_eq_of_lt (by omega)]

theorem rotate_inj {n r i j : ℕ} (hr : r < n) (hi : i < n) (hj : j < n) :
    (r + i) % n = (r + j) % n ↔ i = j := by
  rw [rotate_eq hr hi, rotate_eq hr hj]
  split_ifs <;> omega

theorem rotate_lt {n : ℕ} (r i : ℕ) (hn : 0 < n) : (r + i) % n < n := mod_lt _ hn

theorem intMod_rotate (n r i : ℕ) : ((r : ℤ) + i) % n = ((r + i) % n : ℕ) := by
  push_cast; rfl

variable {α : Type*} {cells : ℕ → Option α} {n r : ℕ} {xs : List α}

/-- The cells from `r` on hold `xs`; what the other cells hold does not matter. -/
def OnRing (cells : ℕ → Option α) (n r : ℕ) (xs : List α) : Prop :=
  ∀ i < xs.length, cells ((r + i) % n) = xs[i]?

theorem OnRing.snoc (h : OnRing cells n r xs) (hr : r < n) (hlen : xs.length < n) (v : α) :
    OnRing (Function.update cells ((r + xs.length) % n) (some v)) n r (xs ++ [v]) := by
  intro i hi
  rw [length_append, length_singleton] at hi
  by_cases hix : i = xs.length
  · subst hix
    simp
  · have hlt : i < xs.length := by omega
    have hne : (r + i) % n ≠ (r + xs.length) % n := fun e =>
      hix ((rotate_inj hr (by omega) hlen).1 e)
    rw [update_of_ne hne, h i hlt, List.getElem?_append_left hlt]

theorem OnRing.tail {x : α} (h : OnRing cells n r (x :: xs)) : OnRing cells n ((r + 1) % n) xs := by
  intro i hi
  have hcell := h (i + 1) (by simpa using hi)
  rw [mod_add_mod, add_assoc, add_comm 1 i, hcell, getElem?_cons_succ]

theorem OnRing.head {x : α} (h : OnRing cells n r (x :: xs)) (hr : r < n) :
    cells r = some x := by
  have hcell := h 0 (by simp)
  rwa [add_zero, Nat.mod_eq_of_lt hr] at hcell

/-- Writing to the cell of an element again. -/
theorem OnRing.set {x y : α} {ys : List α} (h : OnRing cells n r (xs ++ x :: ys)) (hr : r < n)
    (hlen : (xs ++ x :: ys).length ≤ n) :
    OnRing (Function.update cells ((r + xs.length) % n) (some y)) n r (xs ++ y :: ys) := by
  intro i hi
  simp only [length_append, length_cons] at hi hlen
  by_cases hix : i = xs.length
  · subst hix
    simp
  · have hne : (r + i) % n ≠ (r + xs.length) % n := fun e =>
      hix ((rotate_inj hr (by omega) (by omega)).1 e)
    rw [update_of_ne hne, h i (by simpa using hi)]
    rcases lt_or_gt_of_ne hix with hlt | hgt
    · rw [List.getElem?_append_left hlt, List.getElem?_append_left hlt]
    · obtain ⟨j, rfl⟩ := Nat.exists_eq_add_of_lt hgt
      rw [List.getElem?_append_right (by omega), List.getElem?_append_right (by omega),
        show xs.length + j + 1 - xs.length = j + 1 by omega, getElem?_cons_succ,
        getElem?_cons_succ]

/-- The number of cells from `r` to the cell `k` further on, computed without negative numbers
modulo a multiple `m` of `n`. -/
theorem distance_eq {m k : ℕ} (hm : n ∣ m) (hn : n ≤ m) (hr : r < n) (hk : k < n) :
    (((r + k) % n + m - r) % m + n) % n = k := by
  have hm0 : 0 < m := by omega
  obtain ⟨c, rfl⟩ := hm
  rw [add_mod_right, mod_mul_right_mod, rotate_eq hr hk]
  split_ifs with h
  · rw [show r + k + n * c - r = k + n * c by omega, add_mul_mod_self_left,
      Nat.mod_eq_of_lt hk]
  · have hc : 0 < c := Nat.pos_of_mul_pos_left hm0
    obtain ⟨d, rfl⟩ : ∃ d, c = d + 1 := ⟨c - 1, by omega⟩
    rw [show r + k - n + n * (d + 1) - r = k + n * d by rw [mul_succ]; omega,
      add_mul_mod_self_left, Nat.mod_eq_of_lt hk]

end Ring
