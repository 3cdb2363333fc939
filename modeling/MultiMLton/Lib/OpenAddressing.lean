import Mathlib.Tactic
import Mathlib.Data.Int.GCD

/-!
# Open addressing

A table of `2 ^ n` cells is probed from a cell on, with an odd stride.

* `findSlot_spec`: what is found is an empty cell or one that satisfies the test;
* `findSlot_isSome`: if some cell is empty, the probes find something;
* `occupied`: the cells that are not empty, and `occupied_update`, `exists_empty`;
* `Findable`: every element is met by its own probes before an empty cell, and `Findable.find`,
  `Findable.update`.
-/

namespace OpenAddressing

open Option Function Finset Nat

variable {α : Type*} {cells : ℕ → Option α} {found : α → Bool}

/-- The first cell of the probes that is empty or satisfies the test. -/
def findSlot (cells : ℕ → Option α) (found : α → Bool) (size stride : ℕ) : ℕ → ℕ → Option ℕ
  | 0, _ => none
  | fuel + 1, slot => match cells slot with
    | none => some slot
    | some e => if found e then some slot else findSlot cells found size stride fuel
        ((slot + stride) % size)

section Equations

attribute [local simp] findSlot

end Equations

variable {size stride fuel slot slot' : ℕ}

theorem findSlot_spec (h : findSlot cells found size stride fuel slot = some slot') :
    cells slot' = none ∨ ∃ e, cells slot' = some e ∧ found e = true := by
  induction fuel generalizing slot with
  | zero => exact absurd h nofun
  | succ fuel ih =>
    rw [findSlot] at h
    cases hcell : cells slot with
    | none =>
      rw [hcell] at h
      cases h
      exact .inl hcell
    | some e =>
      simp only [hcell] at h
      split_ifs at h with hfound
      · cases h
        exact .inr ⟨e, hcell, hfound⟩
      · exact ih h

theorem findSlot_lt (hslot : slot < size)
    (h : findSlot cells found size stride fuel slot = some slot') : slot' < size := by
  induction fuel generalizing slot with
  | zero => exact absurd h nofun
  | succ fuel ih =>
    rw [findSlot] at h
    cases hcell : cells slot with
    | none =>
      rw [hcell] at h
      cases h
      exact hslot
    | some e =>
      simp only [hcell] at h
      split_ifs at h with hfound
      · cases h
        exact hslot
      · exact ih (mod_lt _ (zero_lt_of_lt hslot)) h

/-- The probes reach every cell of which they are a multiple of the stride away. -/
theorem findSlot_of_empty {size stride fuel slot k : ℕ} (hk : k < fuel) (hslot : slot < size)
    (hempty : cells ((slot + k * stride) % size) = none) :
    ∃ slot', findSlot cells found size stride fuel slot = some slot' := by
  induction fuel generalizing slot k with
  | zero => exact absurd hk (not_lt_zero k)
  | succ fuel ih =>
    rw [findSlot]
    cases hcell : cells slot with
    | none => exact ⟨slot, rfl⟩
    | some e =>
      show ∃ slot', (if found e then some slot else _) = some slot'
      split_ifs
      · exact ⟨slot, rfl⟩
      · cases k with
        | zero =>
          rw [zero_mul, add_zero, mod_eq_of_lt hslot, hcell] at hempty
          exact absurd hempty nofun
        | succ k =>
          refine ih (lt_of_succ_lt_succ hk) (mod_lt _ (zero_lt_of_lt hslot)) ?_
          rw [mod_add_mod, add_assoc, add_comm stride, ← succ_mul]
          exact hempty

/-- An odd stride goes through all cells. -/
theorem exists_stride {n stride : ℕ} (hodd : stride % 2 = 1) {slot target : ℕ}
    (hslot : slot < 2 ^ n) (htarget : target < 2 ^ n) :
    ∃ k < 2 ^ n, (slot + k * stride) % 2 ^ n = target := by
  have hcoprime : Nat.Coprime stride (2 ^ n) :=
    Nat.Coprime.pow_right n (coprime_two_right.2 (odd_iff.2 hodd))
  have hpos : 2 ^ n ≠ 0 := by positivity
  obtain ⟨k, hk, hmul⟩ :=
    exists_mul_mod_eq_of_coprime (target + (2 ^ n - slot)) hcoprime hpos
  refine ⟨k, hk, ?_⟩
  rw [mul_comm, add_mod, hmul, ← add_mod]
  have hsum : slot + (target + (2 ^ n - slot)) = target + 2 ^ n := by omega
  rw [hsum, add_mod_right, mod_eq_of_lt htarget]

theorem findSlot_isSome {n stride slot : ℕ} (hodd : stride % 2 = 1) (hslot : slot < 2 ^ n)
    (hempty : ∃ target < 2 ^ n, cells target = none) :
    ∃ slot', findSlot cells found (2 ^ n) stride (2 ^ n) slot = some slot' := by
  obtain ⟨target, htarget, hcell⟩ := hempty
  obtain ⟨k, hk, heq⟩ := exists_stride hodd hslot htarget
  exact findSlot_of_empty hk hslot (heq ▸ hcell)

/-! ### Occupied cells -/

/-- The cells of a table that are not empty. -/
def occupied (cells : ℕ → Option α) (size : ℕ) : Finset ℕ :=
  (Finset.range size).filter fun slot => (cells slot).isSome

theorem exists_empty {size : ℕ} (h : (occupied cells size).card < size) :
    ∃ slot < size, cells slot = none := by
  by_contra hnone
  push Not at hnone
  have hall : occupied cells size = Finset.range size := by
    refine filter_true_of_mem fun slot hslot => ?_
    exact isSome_iff_ne_none.2 (hnone slot (mem_range.1 hslot))
  rw [hall, card_range] at h
  exact h.false

/-- Filling a cell adds at most one. -/
theorem occupied_update (cells : ℕ → Option α) (size slot : ℕ) (e : α) :
    (occupied (Function.update cells slot (some e)) size).card ≤ (occupied cells size).card + 1 := by
  have hsub : occupied (Function.update cells slot (some e)) size ⊆
      insert slot (occupied cells size) := by
    intro k hk
    obtain ⟨hrange, hsome⟩ := mem_filter.1 hk
    by_cases hks : k = slot
    · exact mem_insert.2 (.inl hks)
    · rw [update_of_ne hks] at hsome
      exact mem_insert_of_mem (mem_filter.2 ⟨hrange, hsome⟩)
  exact (card_le_card hsub).trans (card_insert_le _ _)

@[simp] theorem occupied_none (size : ℕ) : occupied (fun _ => (none : Option α)) size = ∅ := by
  simp [occupied]

theorem mem_occupied {size slot : ℕ} :
    slot ∈ occupied cells size ↔ slot < size ∧ (cells slot).isSome := by
  rw [occupied, mem_filter, mem_range]

/-- Filling an empty cell adds one. -/
theorem card_occupied_update {size slot : ℕ} (hslot : slot < size) (hempty : cells slot = none)
    (e : α) : (occupied (Function.update cells slot (some e)) size).card =
      (occupied cells size).card + 1 := by
  have heq : occupied (Function.update cells slot (some e)) size =
      insert slot (occupied cells size) := by
    ext k
    rw [mem_insert, mem_occupied, mem_occupied]
    by_cases hks : k = slot
    · subst hks
      simp [hslot]
    · simp [hks]
  rw [heq, card_insert_of_notMem]
  rw [mem_occupied, hempty]
  simp

/-! ### Elements that can be found again -/

/-- Every element is met by its own probes, and only occupied cells before it. -/
def Findable (cells : ℕ → Option α) (size : ℕ) (start stride : α → ℕ) : Prop :=
  ∀ slot < size, ∀ e, cells slot = some e → ∃ k < size,
    (start e + k * stride e) % size = slot ∧
      ∀ j < k, (cells ((start e + j * stride e) % size)).isSome

/-- The probes pass occupied cells. -/
theorem findSlot_path (hslot : slot < size)
    (h : findSlot cells found size stride fuel slot = some slot') :
    ∃ k < fuel, (slot + k * stride) % size = slot' ∧
      ∀ j < k, (cells ((slot + j * stride) % size)).isSome := by
  induction fuel generalizing slot with
  | zero => exact absurd h nofun
  | succ fuel ih =>
    rw [findSlot] at h
    have hhere : (slot + 0 * stride) % size = slot := by
      rw [zero_mul, add_zero, mod_eq_of_lt hslot]
    cases hcell : cells slot with
    | none =>
      rw [hcell] at h
      cases h
      exact ⟨0, succ_pos _, hhere, nofun⟩
    | some e =>
      simp only [hcell] at h
      split_ifs at h with hfound
      · cases h
        exact ⟨0, succ_pos _, hhere, nofun⟩
      · obtain ⟨k, hk, heq, hpath⟩ := ih (mod_lt _ (zero_lt_of_lt hslot)) h
        have hnext (j : ℕ) : (slot + (j + 1) * stride) % size =
            ((slot + stride) % size + j * stride) % size := by
          rw [mod_add_mod, succ_mul]
          congr 1
          omega
        refine ⟨k + 1, succ_lt_succ hk, (hnext k).trans heq, fun j hj => ?_⟩
        cases j with
        | zero =>
          rw [hhere, hcell]
          rfl
        | succ j =>
          rw [hnext]
          exact hpath j (lt_of_succ_lt_succ hj)

/-- An element on the way satisfies the test, so the probes end at one that does. -/
theorem findSlot_of_path {size stride fuel slot k : ℕ} {e : α} (hk : k < fuel)
    (hslot : slot < size) (hcell : cells ((slot + k * stride) % size) = some e)
    (hfound : found e = true)
    (hpath : ∀ j < k, (cells ((slot + j * stride) % size)).isSome) :
    ∃ slot' e', findSlot cells found size stride fuel slot = some slot' ∧
      cells slot' = some e' ∧ found e' = true := by
  induction fuel generalizing slot k with
  | zero => exact absurd hk (not_lt_zero k)
  | succ fuel ih =>
    have hhere : (slot + 0 * stride) % size = slot := by
      rw [zero_mul, add_zero, mod_eq_of_lt hslot]
    rw [findSlot]
    cases k with
    | zero =>
      rw [hhere] at hcell
      simp only [hcell, hfound, if_true]
      exact ⟨slot, e, rfl, hcell, hfound⟩
    | succ k =>
      have hsome := hpath 0 (succ_pos k)
      rw [hhere] at hsome
      obtain ⟨e₀, he₀⟩ := isSome_iff_exists.1 hsome
      simp only [he₀]
      split_ifs with hfound₀
      · exact ⟨slot, e₀, rfl, he₀, hfound₀⟩
      · have hnext (j : ℕ) : ((slot + stride) % size + j * stride) % size =
            (slot + (j + 1) * stride) % size := by
          rw [mod_add_mod, succ_mul]
          congr 1
          omega
        refine ih (lt_of_succ_lt_succ hk) (mod_lt _ (zero_lt_of_lt hslot))
          ((hnext k).symm ▸ hcell) fun j hj => ?_
        rw [hnext]
        exact hpath (j + 1) (succ_lt_succ hj)

namespace Findable

variable {size : ℕ} {start stride : α → ℕ}

theorem empty : Findable (fun _ => (none : Option α)) size start stride :=
  fun _ _ _ he => absurd he nofun

/-- A search for an element ends at one that satisfies the test. -/
theorem find (h : Findable cells size start stride) (found : α → Bool) {slot : ℕ} {e : α}
    (hslot : slot < size) (hcell : cells slot = some e) (hstart : start e < size)
    (hfound : found e = true) :
    ∃ slot' e', findSlot cells found size (stride e) size (start e) = some slot' ∧
      cells slot' = some e' ∧ found e' = true := by
  obtain ⟨k, hk, rfl, hpath⟩ := h slot hslot e hcell
  exact findSlot_of_path hk hstart hcell hfound hpath

/-- An element is put into the empty cell at which its probes end. -/
theorem update (h : Findable cells size start stride) {slot fuel : ℕ} {e : α} (hfuel : fuel ≤ size)
    (hstart : start e < size)
    (hfind : findSlot cells found size (stride e) fuel (start e) = some slot)
    (hempty : cells slot = none) :
    Findable (Function.update cells slot (some e)) size start stride := by
  have hkeep {i : ℕ} (hi : (cells i).isSome) : (Function.update cells slot (some e) i).isSome := by
    by_cases his : i = slot
    · subst his
      simp
    · rwa [update_of_ne his]
  intro i hi e' he'
  by_cases his : i = slot
  · subst his
    rw [update_self] at he'
    obtain rfl := Option.some.inj he'
    obtain ⟨k, hk, heq, hpath⟩ := findSlot_path hstart hfind
    exact ⟨k, hk.trans_le hfuel, heq, fun j hj => hkeep (hpath j hj)⟩
  · rw [update_of_ne his] at he'
    obtain ⟨k, hk, heq, hpath⟩ := h i hi e' he'
    exact ⟨k, hk, heq, fun j hj => hkeep (hpath j hj)⟩

end Findable

end OpenAddressing
