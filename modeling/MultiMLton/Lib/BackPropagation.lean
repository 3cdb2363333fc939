import Mathlib.Data.Finset.Card
import Mathlib.Tactic

/-!
# Propagating marks backwards

Marks are passed on from nodes to their predecessors, unless these stop them or are marked already.
The marks are part of a state, and carry values.

* `Marking`: how a state keeps marks;
* `Marking.consider`, `Marking.propagate`: the loop over the nodes that are still to do;
* `Marking.propagate_seen`: in the end the nodes are marked that `Reaches` says;
* `Marking.propagate_preserves`: what single marks preserve;
* `Marking.propagate_isSome`: the loop ends.
-/

namespace MultiMLton.Lib

open List

/-- Marks with values of type `α` on nodes of type `N`, in a state of type `σ`. -/
structure Marking (σ N α : Type) where
  seen : σ → N → Bool
  mark : σ → N → α → σ
  seen_mark : ∀ s n a m, seen (mark s n a) m = true ↔ m = n ∨ seen s m = true

/-- The nodes from which a path leads forwards to a seed, such that all nodes but the seed let marks
through. -/
inductive Reaches {N : Type} (preds : N → List N) (stop : N → Bool) (seed : N → Prop) : N → Prop
  | seed {n} : seed n → Reaches preds stop seed n
  | step {m n} : Reaches preds stop seed m → n ∈ preds m → stop n = false →
    Reaches preds stop seed n

namespace Marking

variable {σ N α : Type} (M : Marking σ N α) (preds : N → List N) (stop : N → Bool)

def consider (a : α) (st : σ × List (α × N)) (n : N) : σ × List (α × N) :=
  if stop n || M.seen st.1 n then st else (M.mark st.1 n a, (a, n) :: st.2)

/-- The loop, with the number of its turns. -/
def propagate : ℕ → σ × List (α × N) → Option σ
  | _, (s, []) => some s
  | 0, (_, _ :: _) => none
  | fuel + 1, (s, (a, n) :: todo) =>
    propagate fuel ((preds n).foldl (consider M stop a) (s, todo))

/-! ### One turn -/

variable {M preds stop} {a : α} {st : σ × List (α × N)} {n m : N}

theorem seen_consider :
    M.seen (M.consider stop a st n).1 m = true ↔
      M.seen st.1 m = true ∨ (m = n ∧ stop n = false) := by
  unfold consider
  split_ifs with h
  · rw [Bool.or_eq_true] at h
    constructor
    · exact Or.inl
    · rintro (hm | ⟨rfl, hstop⟩)
      · exact hm
      · rcases h with h | h
        · rw [hstop] at h
          cases h
        · exact h
  · simp only [Bool.or_eq_true, not_or, Bool.not_eq_true] at h
    rw [M.seen_mark]
    constructor
    · rintro (rfl | hm)
      · exact Or.inr ⟨rfl, h.1⟩
      · exact Or.inl hm
    · rintro (hm | ⟨rfl, -⟩)
      · exact Or.inr hm
      · exact Or.inl rfl

/-- What is to do has been marked. -/
theorem mem_consider {x : α × N} :
    x ∈ (M.consider stop a st n).2 ↔
      x ∈ st.2 ∨ (x = (a, n) ∧ stop n = false ∧ M.seen st.1 n = false) := by
  unfold consider
  split_ifs with h
  · rw [Bool.or_eq_true] at h
    refine ⟨Or.inl, ?_⟩
    rintro (hx | ⟨-, hstop, hseen⟩)
    · exact hx
    · rcases h with h | h
      · rw [hstop] at h
        cases h
      · rw [hseen] at h
        cases h
  · simp only [Bool.or_eq_true, not_or, Bool.not_eq_true] at h
    rw [List.mem_cons]
    constructor
    · rintro (hx | hx)
      · exact Or.inr ⟨hx, h⟩
      · exact Or.inl hx
    · rintro (hx | ⟨hx, -⟩)
      · exact Or.inr hx
      · exact Or.inl hx

theorem seen_foldl {ns : List N} :
    M.seen (ns.foldl (M.consider stop a) st).1 m = true ↔
      M.seen st.1 m = true ∨ (m ∈ ns ∧ stop m = false) := by
  induction ns generalizing st with
  | nil => simp
  | cons n ns ih =>
    rw [List.foldl_cons, ih, seen_consider, List.mem_cons]
    constructor
    · rintro ((hm | ⟨rfl, hstop⟩) | ⟨hm, hstop⟩)
      · exact Or.inl hm
      · exact Or.inr ⟨Or.inl rfl, hstop⟩
      · exact Or.inr ⟨Or.inr hm, hstop⟩
    · rintro (hm | ⟨rfl | hm, hstop⟩)
      · exact Or.inl (Or.inl hm)
      · exact Or.inl (Or.inr ⟨rfl, hstop⟩)
      · exact Or.inr ⟨hm, hstop⟩

variable (M stop a m) in
/-- A node that a turn marks is to do after it. -/
theorem mem_foldl (ns : List N) (st : σ × List (α × N)) :
    (∀ x ∈ st.2, x ∈ (ns.foldl (M.consider stop a) st).2) ∧
      (M.seen (ns.foldl (M.consider stop a) st).1 m = true → M.seen st.1 m = false →
        (a, m) ∈ (ns.foldl (M.consider stop a) st).2) := by
  induction ns generalizing st with
  | nil =>
    refine ⟨fun x hx => hx, fun hm hm' => ?_⟩
    rw [foldl_nil, hm'] at hm
    cases hm
  | cons n ns ih =>
    rw [List.foldl_cons]
    obtain ⟨hkeep, hnew⟩ := ih (M.consider stop a st n)
    refine ⟨fun x hx => hkeep x (mem_consider.mpr (Or.inl hx)), fun hm hm' => ?_⟩
    cases hseen : M.seen (M.consider stop a st n).1 m with
    | false => exact hnew hm hseen
    | true =>
      rcases seen_consider.mp hseen with hst | ⟨rfl, hstop⟩
      · rw [hst] at hm'
        cases hm'
      · exact hkeep _ (mem_consider.mpr (Or.inr ⟨rfl, hstop, hm'⟩))

/-- What is to do is marked. -/
theorem todo_foldl {ns : List N} (h : ∀ x ∈ st.2, M.seen st.1 x.2 = true) :
    ∀ x ∈ (ns.foldl (M.consider stop a) st).2,
      M.seen (ns.foldl (M.consider stop a) st).1 x.2 = true := by
  induction ns generalizing st with
  | nil => exact h
  | cons n ns ih =>
    rw [List.foldl_cons]
    apply ih
    intro x hx
    rw [seen_consider]
    rcases mem_consider.mp hx with hx | ⟨rfl, hstop, -⟩
    · exact Or.inl (h x hx)
    · exact Or.inr ⟨rfl, hstop⟩

/-- What marks on nodes without marks preserve. -/
theorem foldl_preserves (P : σ → Prop)
    (hP : ∀ s n a, stop n = false → M.seen s n = false → P s → P (M.mark s n a)) {ns : List N}
    (h : P st.1) : P (ns.foldl (M.consider stop a) st).1 := by
  induction ns generalizing st with
  | nil => exact h
  | cons n ns ih =>
    rw [List.foldl_cons]
    apply ih
    unfold consider
    split_ifs with hstop
    · exact h
    · simp only [Bool.or_eq_true, not_or, Bool.not_eq_true] at hstop
      exact hP _ _ _ hstop.1 hstop.2 h

/-! ### The loop -/

variable {seed : N → Prop} {fuel : ℕ} {s' : σ}

/-- Nodes are marked with reason, the seeds are, and a marked node is to do or has passed its mark
on. -/
structure Inv (M : Marking σ N α) (preds : N → List N) (stop : N → Bool) (seed : N → Prop)
    (st : σ × List (α × N)) : Prop where
  sound : ∀ n, M.seen st.1 n = true → Reaches preds stop seed n
  seeds : ∀ n, seed n → M.seen st.1 n = true
  todo : ∀ x ∈ st.2, M.seen st.1 x.2 = true
  done : ∀ m, M.seen st.1 m = true → (∃ a, (a, m) ∈ st.2) ∨
    ∀ n ∈ preds m, stop n = false → M.seen st.1 n = true

theorem Inv.turn {s : σ} {todo : List (α × N)} (h : Inv M preds stop seed (s, (a, n) :: todo)) :
    Inv M preds stop seed ((preds n).foldl (M.consider stop a) (s, todo)) where
  sound m hm := by
    rcases seen_foldl.mp hm with hm | ⟨hm, hstop⟩
    · exact h.sound m hm
    · exact Reaches.step (h.sound n (h.todo _ mem_cons_self)) hm hstop
  seeds m hm := seen_foldl.mpr (Or.inl (h.seeds m hm))
  todo x hx := by
    refine todo_foldl (fun y hy => ?_) x hx
    exact h.todo y (mem_cons_of_mem _ hy)
  done m hm := by
    obtain ⟨hkeep, hnew⟩ := M.mem_foldl stop a m (preds n) (s, todo)
    cases hs : M.seen s m with
    | false => exact Or.inl ⟨a, hnew hm hs⟩
    | true =>
      rcases h.done m hs with ⟨b, hb⟩ | hpreds
      · rcases List.mem_cons.mp hb with heq | hb
        · cases heq
          exact Or.inr fun k hk hstop => seen_foldl.mpr (Or.inr ⟨hk, hstop⟩)
        · exact Or.inl ⟨b, hkeep _ hb⟩
      · exact Or.inr fun k hk hstop => seen_foldl.mpr (Or.inl (hpreds k hk hstop))

/-- The loop starts with marks on the nodes of a list that do not stop them. -/
theorem Inv.start {s : σ} {ns : List N} (h : ∀ n, M.seen s n = false) :
    Inv M preds stop (fun n => n ∈ ns ∧ stop n = false) (ns.foldl (M.consider stop a) (s, [])) where
  sound m hm := by
    rcases seen_foldl.mp hm with hm | hm
    · rw [h m] at hm
      cases hm
    · exact Reaches.seed hm
  seeds m hm := seen_foldl.mpr (Or.inr hm)
  todo := todo_foldl fun x hx => by cases hx
  done m hm := Or.inl ⟨a, (M.mem_foldl stop a m ns (s, [])).2 hm (h m)⟩

/-- When there is nothing to do, all nodes are marked that reach a seed. -/
theorem Inv.seen_iff {s : σ} (h : Inv M preds stop seed (s, [])) :
    M.seen s n = true ↔ Reaches preds stop seed n := by
  refine ⟨h.sound n, fun hreach => ?_⟩
  induction hreach with
  | seed hseed => exact h.seeds _ hseed
  | step _ hmem hstop ih =>
    rcases h.done _ ih with ⟨a, ha⟩ | hpreds
    · cases ha
    · exact hpreds _ hmem hstop

/-- In the end the nodes are marked that reach a seed. -/
theorem propagate_seen (h : Inv M preds stop seed st)
    (hrun : M.propagate preds stop fuel st = some s') :
    M.seen s' n = true ↔ Reaches preds stop seed n := by
  obtain ⟨s, todo⟩ := st
  induction fuel generalizing s todo with
  | zero =>
    cases todo with
    | nil =>
      cases hrun
      exact h.seen_iff
    | cons x todo => cases hrun
  | succ fuel ih =>
    cases todo with
    | nil =>
      cases hrun
      exact h.seen_iff
    | cons x todo => exact ih _ _ h.turn hrun

theorem propagate_preserves (P : σ → Prop)
    (hP : ∀ s n a, stop n = false → M.seen s n = false → P s → P (M.mark s n a)) (h : P st.1)
    (hrun : M.propagate preds stop fuel st = some s') : P s' := by
  obtain ⟨s, todo⟩ := st
  induction fuel generalizing s todo with
  | zero =>
    cases todo with
    | nil =>
      cases hrun
      exact h
    | cons x todo => cases hrun
  | succ fuel ih =>
    cases todo with
    | nil =>
      cases hrun
      exact h
    | cons x todo =>
      refine ih _ _ ?_ hrun
      exact foldl_preserves P hP h

/-! ### There is an end -/

variable {U : Finset N}

/-- The nodes without marks. -/
def unseen (M : Marking σ N α) (U : Finset N) (s : σ) : Finset N :=
  U.filter fun n => M.seen s n = false

theorem unseen_consider (hn : n ∈ U) :
    (M.consider stop a st n).2.length + (M.unseen U (M.consider stop a st n).1).card ≤
      st.2.length + (M.unseen U st.1).card := by
  unfold consider
  split_ifs with h
  · exact le_rfl
  · simp only [Bool.or_eq_true, not_or, Bool.not_eq_true] at h
    have hlt : (M.unseen U (M.mark st.1 n a)).card < (M.unseen U st.1).card := by
      refine Finset.card_lt_card (Finset.ssubset_iff_of_subset (fun m hm => ?_) |>.mpr ⟨n, ?_, ?_⟩)
      · simp only [unseen, Finset.mem_filter] at hm ⊢
        refine ⟨hm.1, Bool.eq_false_iff.mpr fun hseen => ?_⟩
        rw [(M.seen_mark _ _ _ _).mpr (Or.inr hseen)] at hm
        exact Bool.false_ne_true hm.2.symm
      · simp only [unseen, Finset.mem_filter]
        exact ⟨hn, h.2⟩
      · simp only [unseen, Finset.mem_filter, not_and]
        rw [(M.seen_mark _ _ _ _).mpr (Or.inl rfl)]
        exact fun _ => Bool.false_ne_true.symm
    dsimp only
    rw [length_cons]
    omega

variable (M stop a) in
theorem unseen_foldl {ns : List N} (hns : ∀ n ∈ ns, n ∈ U) (st : σ × List (α × N)) :
    (ns.foldl (M.consider stop a) st).2.length +
        (M.unseen U (ns.foldl (M.consider stop a) st).1).card ≤
      st.2.length + (M.unseen U st.1).card := by
  induction ns generalizing st with
  | nil => exact le_rfl
  | cons n ns ih =>
    rw [List.foldl_cons]
    exact (ih (fun m hm => hns m (mem_cons_of_mem n hm)) _).trans
      (unseen_consider (hns n mem_cons_self))

variable (M stop) in
/-- Each turn does one node, and each node is marked once. -/
theorem propagate_isSome (hpreds : ∀ m, ∀ n ∈ preds m, n ∈ U)
    (hfuel : st.2.length + (M.unseen U st.1).card ≤ fuel) :
    (M.propagate preds stop fuel st).isSome := by
  obtain ⟨s, todo⟩ := st
  induction fuel generalizing s todo with
  | zero =>
    cases todo with
    | nil => rfl
    | cons x todo =>
      simp only [length_cons] at hfuel
      omega
  | succ fuel ih =>
    cases todo with
    | nil => rfl
    | cons x todo =>
      have hle := M.unseen_foldl stop x.1 (hpreds x.2) (s, todo)
      simp only [length_cons] at hfuel hle
      exact ih _ _ (by dsimp only; omega)

end Marking

end MultiMLton.Lib
