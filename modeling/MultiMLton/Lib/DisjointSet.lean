import Mathlib.Algebra.BigOperators.Group.Finset.Basic
import Mathlib.Logic.Relation
import Mathlib.Tactic

/-!
# Disjoint sets

Collections of disjoint sets with a value for each set, as a function to the representative of an
element.

* `DisjointSet.same_union`: a union joins two sets and nothing else;
* `DisjointSet.same_merges`: a list of unions makes the least equivalence with these pairs;
* `DisjointSet.Weighs`: the value of a set is the sum of the weights of its elements.
-/

namespace MultiMLton.Lib

open Relation List Finset

/-- Disjoint sets of elements of `α`, each with a value. -/
structure DisjointSet (α β : Type) where
  representative : α → α
  idem : ∀ a, representative (representative a) = representative a
  /-- The values, kept at the representatives. -/
  rootValue : α → β

namespace DisjointSet

variable {α β : Type} (s : DisjointSet α β)

/-- Every element in a set of its own. -/
def singletons (v : α → β) : DisjointSet α β := ⟨id, fun _ => rfl, v⟩

/-- The value of the set of an element. -/
def value (a : α) : β := s.rootValue (s.representative a)

/-- Being in one set. -/
def Same (a b : α) : Prop := s.representative a = s.representative b

variable {s} in
theorem Same.symm {a b : α} (h : s.Same a b) : s.Same b a := Eq.symm h

variable {s} in
theorem Same.trans {a b c : α} (h : s.Same a b) (h' : s.Same b c) : s.Same a c := Eq.trans h h'

theorem same_equivalence : Equivalence s.Same := ⟨fun _ => rfl, Eq.symm, Eq.trans⟩

@[simp] theorem same_refl (a : α) : s.Same a a := rfl

variable [DecidableEq α]

instance (a b : α) : Decidable (s.Same a b) :=
  inferInstanceAs (Decidable (s.representative a = s.representative b))

def setValue (a : α) (v : β) : DisjointSet α β :=
  { s with rootValue := Function.update s.rootValue (s.representative a) v }

/-- The union of the sets of two elements. Its value is the one of the first. -/
def union (a b : α) : DisjointSet α β where
  representative x :=
    if s.representative x = s.representative b then s.representative a else s.representative x
  idem x := by split_ifs <;> simp_all [s.idem]
  rootValue := s.rootValue

@[simp] theorem same_setValue {a b c : α} {v : β} : (s.setValue c v).Same a b ↔ s.Same a b := Iff.rfl

theorem value_setValue (a b : α) (v : β) :
    (s.setValue a v).value b = if s.Same b a then v else s.value b :=
  Function.update_apply s.rootValue (s.representative a) v (s.representative b)

theorem same_union {a b x y : α} :
    (s.union a b).Same x y ↔
      s.Same x y ∨ (s.Same x a ∧ s.Same y b) ∨ (s.Same x b ∧ s.Same y a) := by
  simp only [Same, union]
  split_ifs <;> grind

section Merge

variable [AddCommMonoid β]

/-- The union of the sets of two elements, with the sum of their values. -/
def merge (a b : α) : DisjointSet α β :=
  if s.Same a b then s else (s.union a b).setValue a (s.value a + s.value b)

theorem same_merge {a b x y : α} :
    (s.merge a b).Same x y ↔
      s.Same x y ∨ (s.Same x a ∧ s.Same y b) ∨ (s.Same x b ∧ s.Same y a) := by
  unfold merge
  split_ifs with hab
  · refine ⟨.inl, ?_⟩
    rintro (h | ⟨hx, hy⟩ | ⟨hx, hy⟩)
    · exact h
    · exact hx.trans (hab.trans hy.symm)
    · exact hx.trans (hab.symm.trans hy.symm)
  · rw [same_setValue, same_union]

theorem merge_le {a b x y : α} (h : s.Same x y) : (s.merge a b).Same x y := s.same_merge.2 (.inl h)

theorem merge_same (a b : α) : (s.merge a b).Same a b :=
  s.same_merge.2 (.inr (.inl ⟨rfl, rfl⟩))

/-- The value of a merged set is the sum, that of any other set is the one it was. -/
theorem value_merge (a b x : α) :
    (s.merge a b).value x =
      if ¬ s.Same a b ∧ (s.Same x a ∨ s.Same x b) then s.value a + s.value b else s.value x := by
  unfold merge
  split_ifs with hab hx hx
  · exact absurd hab hx.1
  · rfl
  · rw [value_setValue, if_pos]
    rcases hx.2 with hx | hx
    · exact s.same_union.2 (.inl hx)
    · exact s.same_union.2 (.inr (.inr ⟨hx, rfl⟩))
  · have hneither : ¬ s.Same x a ∧ ¬ s.Same x b := by tauto
    rw [value_setValue, if_neg, value, value]
    · have hrep : (s.union a b).representative x = s.representative x := if_neg hneither.2
      rw [hrep]
      rfl
    · rw [same_union]
      tauto

/-- Merging pairs makes the least equivalence that has them. -/
theorem same_merges (l : List (α × α)) {x y : α} :
    (l.foldl (fun s p => s.merge p.1 p.2) s).Same x y ↔
      EqvGen (fun x y => s.Same x y ∨ (x, y) ∈ l) x y := by
  induction l generalizing s x y with
  | nil =>
    simp only [foldl_nil, not_mem_nil, or_false]
    exact s.same_equivalence.eqvGen_iff.symm
  | cons p l ih =>
    rw [foldl_cons, ih]
    constructor
    · intro h
      induction h with
      | rel x y h =>
        rcases h with h | h
        · have hpair : EqvGen (fun x y => s.Same x y ∨ (x, y) ∈ p :: l) p.1 p.2 :=
            .rel _ _ (.inr mem_cons_self)
          have hsame {x y : α} (h : s.Same x y) :
              EqvGen (fun x y => s.Same x y ∨ (x, y) ∈ p :: l) x y := .rel _ _ (.inl h)
          rcases s.same_merge.1 h with h | ⟨hx, hy⟩ | ⟨hx, hy⟩
          · exact hsame h
          · exact .trans _ _ _ (hsame hx) (.trans _ _ _ hpair (hsame hy.symm))
          · exact .trans _ _ _ (hsame hx) (.trans _ _ _ (.symm _ _ hpair) (hsame hy.symm))
        · exact .rel _ _ (.inr (mem_cons_of_mem _ h))
      | refl x => exact .refl x
      | symm x y _ ih => exact .symm _ _ ih
      | trans x y z _ _ ih ih' => exact .trans _ _ _ ih ih'
    · intro h
      refine h.mono fun x y h => ?_
      rcases h with h | h
      · exact .inl (s.merge_le h)
      · rcases mem_cons.1 h with rfl | h
        · exact .inl (s.merge_same x y)
        · exact .inr h

/-- The value of a set is the sum of the weights of its elements. -/
def Weighs (univ : Finset α) (w : α → β) : Prop :=
  ∀ a ∈ univ, s.value a = ∑ x ∈ univ with s.Same a x, w x

variable {s} in
/-- A new element, which is alone. -/
theorem Weighs.setValue {univ : Finset α} {w : α → β} (h : s.Weighs univ w) {a : α}
    (ha : ∀ x ∈ univ, ¬ s.Same a x) : (s.setValue a (w a)).Weighs (insert a univ) w := by
  have hnot : a ∉ univ := fun h => ha a h rfl
  intro x hx
  rw [value_setValue]
  simp only [same_setValue]
  rcases mem_insert.1 hx with rfl | hx
  · have hfilter : (insert x univ).filter (fun y => s.Same x y) = {x} := by
      rw [filter_insert, if_pos (s.same_refl x), filter_false_of_mem ha]
      rfl
    rw [if_pos (s.same_refl x), hfilter, Finset.sum_singleton]
  · have hxa : ¬ s.Same x a := fun h => ha x hx h.symm
    rw [if_neg hxa, filter_insert, if_neg hxa, h x hx]

variable {s} in
theorem Weighs.merge {univ : Finset α} {w : α → β} (h : s.Weighs univ w)
    {a b : α} (ha : a ∈ univ) (hb : b ∈ univ) : (s.merge a b).Weighs univ w := by
  intro x hx
  rw [value_merge]
  simp only [same_merge]
  split_ifs with hab
  · have hparts : univ.filter (fun y => s.Same x y ∨ s.Same x a ∧ s.Same y b ∨
        s.Same x b ∧ s.Same y a) =
        univ.filter (fun y => s.Same a y) ∪ univ.filter (fun y => s.Same b y) := by
      ext y
      simp only [mem_union, Same] at hab ⊢
      grind
    have hdisjoint : Disjoint (univ.filter (fun y => s.Same a y))
        (univ.filter (fun y => s.Same b y)) := by
      rw [disjoint_filter]
      intro y _ hay hby
      exact hab.1 (hay.trans hby.symm)
    rw [hparts, sum_union hdisjoint, h a ha, h b hb]
  · have hsame : univ.filter (fun y => s.Same x y ∨ s.Same x a ∧ s.Same y b ∨
        s.Same x b ∧ s.Same y a) = univ.filter (fun y => s.Same x y) := by
      ext y
      simp only [Same] at hab ⊢
      grind
    rw [hsame, h x hx]

end Merge

end DisjointSet

end MultiMLton.Lib
