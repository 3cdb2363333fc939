import Mathlib.Logic.Relation
import Mathlib.Order.Interval.Finset.Nat
import Mathlib.Tactic

/-!
# Dominance

Paths from a root, and the nodes that all paths to a node pass through.

* `PathTo`, `Dominates`, `IsIdom`: paths, dominators, and the closest strict dominator;
* `Dominates.antisymm`, `IsIdom.unique`: they form a tree;
* `dominates_map_iff`: the same under other names of the nodes;
* `Anc`: what is above a node in a forest that is given by the fathers, and how it changes when one
  father does (`Anc.update`);
* `AvoidTo`: paths that avoid a node, by the number of edges that do not go down.
-/

namespace MultiMLton.Lib

open List Function

variable {α : Type} {edge : α → α → Prop} {root : α}

/-- A path from the root, as the nodes on it, the last one first. -/
inductive PathTo (edge : α → α → Prop) (root : α) : List α → α → Prop
  | root : PathTo edge root [root] root
  | step {l : List α} {a b : α} (path : PathTo edge root l a) (h : edge a b) :
    PathTo edge root (b :: l) b

/-- All paths from the root to `v` pass through `d`. -/
def Dominates (edge : α → α → Prop) (root d v : α) : Prop := ∀ l, PathTo edge root l v → d ∈ l

/-- `d` is a strict dominator of `v`, and every other one dominates it. -/
structure IsIdom (edge : α → α → Prop) (root d v : α) : Prop where
  ne : d ≠ v
  dominates : Dominates edge root d v
  closest : ∀ d', d' ≠ v → Dominates edge root d' v → Dominates edge root d' d

/-! ### Dominators -/

section Dominators

variable {d e v a : α} {l : List α}

theorem PathTo.head? (h : PathTo edge root l v) : l.head? = some v := by
  cases h with
  | root => rfl
  | step path hab => rfl

theorem PathTo.mem (h : PathTo edge root l v) : v ∈ l := mem_of_head? h.head?

/-- The beginning of a path. -/
theorem PathTo.of_mem (h : PathTo edge root l v) (he : e ∈ l) :
    ∃ l', l' <:+ l ∧ PathTo edge root l' e := by
  induction h with
  | root =>
    rw [List.mem_singleton] at he
    subst he
    exact ⟨_, suffix_rfl, .root⟩
  | @step l a b path hab ih =>
    rcases List.mem_cons.1 he with rfl | he
    · exact ⟨e :: l, suffix_rfl, .step path hab⟩
    · obtain ⟨l', hsuffix, hl'⟩ := ih he
      exact ⟨l', hsuffix.trans (suffix_cons b l), hl'⟩

/-- Some path comes to its last node for the first time. -/
theorem PathTo.exists_first (h : PathTo edge root l v) :
    ∃ l', PathTo edge root l' v ∧ v ∉ l'.tail := by
  induction hn : l.length using Nat.strong_induction_on generalizing l with
  | _ n ih =>
    cases h with
    | root => exact ⟨[root], .root, not_mem_nil⟩
    | @step l a b path hab =>
      by_cases hb : v ∈ l
      · obtain ⟨l', hsuffix, hl'⟩ := path.of_mem hb
        have hle := hsuffix.length_le
        rw [length_cons] at hn
        exact ih l'.length (by omega) hl' rfl
      · exact ⟨v :: l, .step path hab, hb⟩

theorem pathTo_iff_reach : (∃ l, PathTo edge root l v) ↔ Relation.ReflTransGen edge root v := by
  constructor
  · rintro ⟨l, h⟩
    induction h with
    | root => exact .refl
    | step path hab ih => exact ih.tail hab
  · intro h
    induction h with
    | refl => exact ⟨[root], .root⟩
    | tail hreach hab ih =>
      obtain ⟨l, hl⟩ := ih
      exact ⟨_, .step hl hab⟩

/-- A path that goes on after `a` goes on by one of its edges. -/
theorem PathTo.mem_next (h : PathTo edge root l v) (ha : a ∈ l) (hne : a ≠ v)
    (hedge : ∀ b, edge a b → b = e) : e ∈ l := by
  induction h with
  | root => exact absurd (List.mem_singleton.1 ha) hne
  | @step l c b path hcb ih =>
    have hal := (List.mem_cons.1 ha).resolve_left hne
    by_cases hac : a = c
    · subst hac
      rw [hedge b hcb]
      exact mem_cons_self
    · exact mem_cons_of_mem _ (ih hal hac)

theorem Dominates.reach (h : Dominates edge root d v) (hv : Relation.ReflTransGen edge root v) :
    Relation.ReflTransGen edge root d := by
  obtain ⟨l, hl⟩ := pathTo_iff_reach.2 hv
  obtain ⟨l', -, hl'⟩ := hl.of_mem (h l hl)
  exact pathTo_iff_reach.1 ⟨l', hl'⟩

theorem Dominates.refl (edge : α → α → Prop) (root v : α) : Dominates edge root v v :=
  fun _ h => h.mem

/-- On a shortest path two nodes that dominate each other come twice, if they are different. -/
theorem Dominates.antisymm (h : Dominates edge root d e) (h' : Dominates edge root e d)
    (hreach : ∃ l, PathTo edge root l e) : d = e := by
  classical
  by_contra hne
  have hex : ∃ k l, PathTo edge root l e ∧ l.length = k := by
    obtain ⟨l, hl⟩ := hreach
    exact ⟨_, l, hl, rfl⟩
  obtain ⟨l, hl, hlen⟩ := Nat.find_spec hex
  -- the path to `e` begins with one to `d`, which begins with another one to `e`
  obtain ⟨l', hsuffix, hl'⟩ := hl.of_mem (h l hl)
  obtain ⟨l'', hsuffix', hl''⟩ := hl'.of_mem (h' l' hl')
  have hmin := Nat.find_min' hex ⟨l'', hl'', rfl⟩
  have hle := hsuffix'.length_le
  have hlen' : l'.length = l.length := le_antisymm hsuffix.length_le (by omega)
  rw [hsuffix.eq_of_length hlen'] at hl'
  exact hne (Option.some.inj (hl'.head?.symm.trans hl.head?))

theorem IsIdom.unique (h : IsIdom edge root d v) (h' : IsIdom edge root e v)
    (hreach : ∃ l, PathTo edge root l v) : d = e := by
  have hed := h.closest e h'.ne h'.dominates
  have hde := h'.closest d h.ne h.dominates
  refine Dominates.antisymm hde hed ?_
  obtain ⟨l, hl⟩ := hreach
  obtain ⟨l', -, hl'⟩ := hl.of_mem (h'.dominates l hl)
  exact ⟨l', hl'⟩

/-- A strict dominator dominates the nodes before. -/
theorem Dominates.of_edge (h : Dominates edge root d v) (hne : d ≠ v) (hab : edge a v) :
    Dominates edge root d a := by
  intro l hl
  exact (List.mem_cons.1 (h _ (.step hl hab))).resolve_left hne

theorem dominates_of_edges (hroot : v ≠ root) (h : ∀ a, edge a v → Dominates edge root d a) :
    Dominates edge root d v := by
  intro l hl
  cases hl with
  | root => exact absurd rfl hroot
  | step path hab => exact mem_cons_of_mem _ (h _ hab _ path)

end Dominators

/-! ### Names -/

section Names

variable {β : Type} {edge' : β → β → Prop} {f : β → α} {r d v : β} {l : List β}

/-- The edges from nodes with a name are the edges between names. -/
structure Names (edge : α → α → Prop) (edge' : β → β → Prop) (f : β → α) : Prop where
  map : ∀ a b, edge' a b → edge (f a) (f b)
  lift : ∀ a y, edge (f a) y → ∃ b, f b = y ∧ edge' a b

theorem Names.pathTo (h : Names edge edge' f) (hl : PathTo edge' r l v) :
    PathTo edge (f r) (l.map f) (f v) := by
  induction hl with
  | root => exact .root
  | step path hab ih => exact .step ih (h.map _ _ hab)

theorem Names.lift_pathTo (h : Names edge edge' f) {l : List α} {y : α}
    (hl : PathTo edge (f r) l y) : ∃ l' v, l'.map f = l ∧ f v = y ∧ PathTo edge' r l' v := by
  induction hl with
  | root => exact ⟨[r], r, rfl, rfl, .root⟩
  | @step l a b path hab ih =>
    obtain ⟨l', v, rfl, rfl, hl'⟩ := ih
    obtain ⟨w, rfl, hvw⟩ := h.lift v b hab
    exact ⟨w :: l', w, rfl, rfl, .step hl' hvw⟩

theorem dominates_map_iff (h : Names edge edge' f) (hinj : Function.Injective f) :
    Dominates edge (f r) (f d) (f v) ↔ Dominates edge' r d v := by
  constructor
  · intro hdom l hl
    exact (mem_map_of_injective hinj).1 (hdom _ (h.pathTo hl))
  · intro hdom l hl
    obtain ⟨l', w, rfl, hw, hl'⟩ := h.lift_pathTo hl
    rw [hinj hw] at hl'
    exact mem_map_of_mem (hdom l' hl')

end Names

/-! ### Forests -/

section Forests

variable {father : α → Option α} {a b c i k new : α}

/-- `a` is `b` or above it. -/
inductive Anc (father : α → Option α) : α → α → Prop
  | refl (b : α) : Anc father b b
  | up {a b c : α} (h : father b = some c) (hac : Anc father a c) : Anc father a b

theorem Anc.trans (h : Anc father a b) (h' : Anc father b c) : Anc father a c := by
  induction h' with
  | refl => exact h
  | up hc _ ih => exact .up hc ih

/-- A strict ancestor is above the father. -/
theorem Anc.of_ne (h : Anc father a b) (hne : a ≠ b) : ∃ c, father b = some c ∧ Anc father a c := by
  cases h with
  | refl => exact absurd rfl hne
  | up hc hac => exact ⟨_, hc, hac⟩

/-- What is above a node is a chain. -/
theorem Anc.total (h : Anc father a c) (h' : Anc father b c) : Anc father a b ∨ Anc father b a := by
  induction h with
  | refl => exact .inr h'
  | @up c e hc hac ih =>
    cases h' with
    | refl => exact .inl (.up hc hac)
    | up hc' hbc =>
      rw [hc] at hc'
      cases hc'
      exact ih hbc

variable [DecidableEq α]

/-- With another father of `i` the nodes below it are below the new father. -/
theorem Anc.of_update (h : Anc (Function.update father i (some new)) a b) (hnew : ¬Anc father i new) :
    (Anc father a b ∧ (Anc father i b → Anc father i a)) ∨ (Anc father i b ∧ Anc father a new) := by
  have hkeep {a b : α} (h : Anc (Function.update father i (some new)) a b)
      (hb : ¬Anc father i b) : Anc father a b ∧ ¬Anc father i a := by
    induction h with
    | refl => exact ⟨.refl _, hb⟩
    | @up b c hc hac ih =>
      have hne : b ≠ i := by
        rintro rfl
        exact hb (.refl b)
      rw [update_of_ne hne] at hc
      obtain ⟨h1, h2⟩ := ih fun hi => hb (.up hc hi)
      exact ⟨.up hc h1, h2⟩
  induction h with
  | refl => exact .inl ⟨.refl _, id⟩
  | @up b c hc hac ih =>
    by_cases hne : b = i
    · subst hne
      rw [update_self] at hc
      cases hc
      exact .inr ⟨.refl b, (hkeep hac hnew).1⟩
    · rw [update_of_ne hne] at hc
      rcases ih with ⟨h1, h2⟩ | ⟨h1, h2⟩
      · refine .inl ⟨.up hc h1, fun hi => h2 ?_⟩
        obtain ⟨c', hc', hi'⟩ := hi.of_ne (Ne.symm hne)
        rw [hc] at hc'
        cases hc'
        exact hi'
      · exact .inr ⟨.up hc h1, h2⟩

theorem Anc.update_of_not (h : Anc father a b) (hb : ¬Anc father i b) :
    Anc (Function.update father i (some new)) a b := by
  induction h with
  | refl => exact .refl _
  | @up b c hc hac ih =>
    have hne : b ≠ i := by
      rintro rfl
      exact hb (.refl b)
    refine .up ?_ (ih fun hi => hb (.up hc hi))
    rwa [update_of_ne hne]

/-- Up to `i` nothing changes. -/
theorem Anc.update_of_anc (h : Anc father a b) (hi : Anc father i a) (hback : ∀ x, Anc father x i →
    Anc father i x → x = i) : Anc (Function.update father i (some new)) a b := by
  induction h with
  | refl => exact .refl _
  | @up b c hc hac ih =>
    by_cases hne : b = i
    · subst hne
      obtain rfl := hback a (.up hc hac) hi
      exact .refl a
    · refine .up ?_ ih
      rwa [update_of_ne hne]

theorem Anc.update_of_new (h : Anc father i b) (ha : Anc father a new) (hnew : ¬Anc father i new)
    (hback : ∀ x, Anc father x i → Anc father i x → x = i) :
    Anc (Function.update father i (some new)) a b := by
  refine Anc.trans ?_ (h.update_of_anc (.refl i) hback)
  exact .up (update_self ..) (ha.update_of_not hnew)

end Forests

/-! ### Paths that avoid a node -/

section Avoid

variable {E : ℕ → ℕ → Prop} {r v i k m : ℕ}

/-- A path from `r` avoids `v` and has so many edges that do not lead to a smaller number. -/
inductive AvoidTo (E : ℕ → ℕ → Prop) (r v : ℕ) : ℕ → ℕ → Prop
  | root (h : v ≠ r) : AvoidTo E r v 0 r
  | advance {m a b : ℕ} (path : AvoidTo E r v m a) (hab : E a b) (hlt : b < a) (hv : v ≠ b) :
    AvoidTo E r v m b
  | retreat {m a b : ℕ} (path : AvoidTo E r v m a) (hab : E a b) (hle : a ≤ b) (hv : v ≠ b) :
    AvoidTo E r v (m + 1) b

theorem AvoidTo.ne (h : AvoidTo E r v m k) : v ≠ k := by
  cases h with
  | root h => exact h
  | advance path hab hlt hv => exact hv
  | retreat path hab hle hv => exact hv

theorem not_dominates_of_avoidTo (h : AvoidTo E r v m k) : ¬Dominates E r v k := by
  have hpath : ∃ l, PathTo E r l k ∧ v ∉ l := by
    induction h with
    | root h => exact ⟨[r], .root, by simpa using h⟩
    | advance path hab hlt hv ih | retreat path hab hle hv ih =>
      obtain ⟨l, hl, hmem⟩ := ih
      exact ⟨_, .step hl hab, by simp [hv, hmem]⟩
  obtain ⟨l, hl, hmem⟩ := hpath
  exact fun hdom => hmem (hdom l hl)

theorem exists_avoidTo {l : List ℕ} (h : PathTo E r l k) (hv : v ∉ l) : ∃ m, AvoidTo E r v m k := by
  induction h with
  | root => exact ⟨0, .root (by simpa using hv)⟩
  | @step l a b path hab ih =>
    rw [List.mem_cons, not_or] at hv
    obtain ⟨m, hm⟩ := ih hv.2
    rcases Nat.lt_or_ge b a with hlt | hle
    · exact ⟨m, .advance hm hab hlt hv.1⟩
    · exact ⟨m + 1, .retreat hm hab hle hv.1⟩

theorem dominates_iff_not_avoidTo : Dominates E r v k ↔ ∀ m, ¬AvoidTo E r v m k := by
  constructor
  · exact fun h m hm => not_dominates_of_avoidTo hm h
  · intro h l hl
    by_contra hv
    obtain ⟨m, hm⟩ := exists_avoidTo hl hv
    exact h m hm

/-- A path avoids `i` too, or begins with one to `i`. -/
theorem AvoidTo.split (h : AvoidTo E r v m k) (i : ℕ) :
    AvoidTo E r i m k ∨ ∃ m' ≤ m, AvoidTo E r v m' i := by
  induction h with
  | root h =>
    by_cases hi : i = r
    · exact .inr ⟨0, le_rfl, by rw [hi]; exact .root h⟩
    · exact .inl (.root hi)
  | @advance m a b path hab hlt hv ih =>
    by_cases hi : i = b
    · exact .inr ⟨m, le_rfl, hi ▸ .advance path hab hlt hv⟩
    · rcases ih with h | h
      · exact .inl (.advance h hab hlt hi)
      · exact .inr h
  | @retreat m a b path hab hle hv ih =>
    by_cases hi : i = b
    · exact .inr ⟨m + 1, le_rfl, hi ▸ .retreat path hab hle hv⟩
    · rcases ih with h | ⟨m', hm', h⟩
      · exact .inl (.retreat h hab hle hi)
      · exact .inr ⟨m', hm'.trans (Nat.le_succ m), h⟩

/-- Finitely many nodes need paths with boundedly many such edges. -/
theorem exists_avoidTo_bound (E : ℕ → ℕ → Prop) (r n : ℕ) :
    ∃ M, ∀ v ≤ n, ∀ k ≤ n, (∃ m, AvoidTo E r v m k) → ∃ m < M, AvoidTo E r v m k := by
  classical
  let need (v k : ℕ) : ℕ := if h : ∃ m, AvoidTo E r v m k then Nat.find h + 1 else 0
  refine ⟨(Finset.range (n + 1)).sup fun v => (Finset.range (n + 1)).sup (need v), ?_⟩
  intro v hv k hk hex
  refine ⟨Nat.find hex, ?_, Nat.find_spec hex⟩
  have hneed : need v k = Nat.find hex + 1 := dif_pos hex
  have hle : need v k ≤ (Finset.range (n + 1)).sup fun v => (Finset.range (n + 1)).sup (need v) :=
    (Finset.le_sup (f := need v) (Finset.mem_range.2 (Nat.lt_succ_of_le hk))).trans
      (Finset.le_sup (f := fun v => (Finset.range (n + 1)).sup (need v))
        (Finset.mem_range.2 (Nat.lt_succ_of_le hv)))
  omega

end Avoid

end MultiMLton.Lib
