import Mathlib.Order.Lattice
import Mathlib.Data.List.Basic

/-!
# Tilings of a range by blocks

`Tiles lo hi p bs q`: the blocks of the list `bs`, where `b` covers what lies from `lo b` up to
`hi b`, follow one another from `p` to `q`.  None of them is empty, so no two overlap and none
occurs twice.
-/

variable {β α : Type*} [LinearOrder α]

/-- The blocks follow one another from `p` to `q`. -/
def Tiles (lo hi : β → α) : α → List β → α → Prop
  | p, [], q => p = q
  | p, b :: bs, q => lo b = p ∧ lo b < hi b ∧ Tiles lo hi (hi b) bs q

namespace Tiles

open List

variable {lo hi lo' hi' : β → α} {p q r : α} {as bs cs : List β} {a b : β}

@[simp] theorem nil_iff : Tiles lo hi p [] q ↔ p = q := Iff.rfl

@[simp] theorem cons_iff :
    Tiles lo hi p (b :: bs) q ↔ lo b = p ∧ lo b < hi b ∧ Tiles lo hi (hi b) bs q := Iff.rfl

theorem append (h : Tiles lo hi p as q) (h' : Tiles lo hi q bs r) : Tiles lo hi p (as ++ bs) r := by
  induction as generalizing p with
  | nil => rwa [nil_iff.1 h]
  | cons a as ih => exact ⟨h.1, h.2.1, ih h.2.2⟩

theorem exists_of_append (h : Tiles lo hi p (as ++ bs) r) :
    ∃ q, Tiles lo hi p as q ∧ Tiles lo hi q bs r := by
  induction as generalizing p with
  | nil => exact ⟨p, rfl, h⟩
  | cons a as ih =>
    obtain ⟨q, has, hbs⟩ := ih h.2.2
    exact ⟨q, ⟨h.1, h.2.1, has⟩, hbs⟩

/-- What lies on the two sides of a block. -/
theorem around (h : Tiles lo hi p (as ++ b :: bs) q) :
    Tiles lo hi p as (lo b) ∧ lo b < hi b ∧ Tiles lo hi (hi b) bs q := by
  obtain ⟨r, has, hb, hlt, hbs⟩ := h.exists_of_append
  exact ⟨hb ▸ has, hlt, hbs⟩

/-- Only the ends of the blocks in the list matter. -/
theorem congr (hlo : ∀ b ∈ bs, lo' b = lo b) (hhi : ∀ b ∈ bs, hi' b = hi b)
    (h : Tiles lo hi p bs q) : Tiles lo' hi' p bs q := by
  induction bs generalizing p with
  | nil => exact h
  | cons b bs ih =>
    have hb := mem_cons_self (a := b) (l := bs)
    rw [cons_iff, hlo b hb, hhi b hb]
    exact ⟨h.1, h.2.1, ih (fun c hc => hlo c (mem_cons_of_mem b hc))
      (fun c hc => hhi c (mem_cons_of_mem b hc)) h.2.2⟩

section

variable (h : Tiles lo hi p bs q)

include h

theorem le : p ≤ q := by
  induction bs generalizing p with
  | nil => exact (nil_iff.1 h).le
  | cons b bs ih => exact h.1 ▸ h.2.1.le.trans (ih h.2.2)

theorem le_lo (hb : b ∈ bs) : p ≤ lo b := by
  obtain ⟨as, cs, rfl⟩ := append_of_mem hb
  exact h.around.1.le

theorem hi_le (hb : b ∈ bs) : hi b ≤ q := by
  obtain ⟨as, cs, rfl⟩ := append_of_mem hb
  exact h.around.2.2.le

theorem lt (hb : b ∈ bs) : lo b < hi b := by
  obtain ⟨as, cs, rfl⟩ := append_of_mem hb
  exact h.around.2.1

theorem nodup : bs.Nodup := by
  induction bs generalizing p with
  | nil => exact nodup_nil
  | cons b bs ih =>
    refine nodup_cons.2 ⟨fun hb => ?_, ih h.2.2⟩
    exact (h.2.2.le_lo hb).not_gt h.2.1

/-- Two blocks do not overlap. -/
theorem disjoint (ha : a ∈ bs) (hb : b ∈ bs) (hne : a ≠ b) : hi a ≤ lo b ∨ hi b ≤ lo a := by
  obtain ⟨as, cs, rfl⟩ := append_of_mem ha
  rcases mem_append.1 hb with hb | hb
  · exact Or.inr (h.around.1.hi_le hb)
  · rcases mem_cons.1 hb with rfl | hb
    · exact absurd rfl hne
    · exact Or.inl (h.around.2.2.le_lo hb)

end

/-- A block that ends where the tiling ends is the last one. -/
theorem eq_nil_of_hi_eq (h : Tiles lo hi p (as ++ b :: bs) q) (hb : hi b = q) : bs = [] := by
  cases bs with
  | nil => rfl
  | cons c cs =>
    obtain ⟨hlo, hlt, htail⟩ := h.around.2.2
    have hle := htail.le
    rw [hlo, hb] at hlt
    exact absurd hlt hle.not_gt

end Tiles
