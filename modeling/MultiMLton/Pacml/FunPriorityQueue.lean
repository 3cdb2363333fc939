import Mathlib.Order.Lattice
import Mathlib.Data.List.TakeWhile

/-!
# The functional priority queues of `util/fun-priority-queue.fun`

A queue is a list of keyed elements in increasing order of the keys.  `enque` puts a new element
behind all elements with the same key.

* `Elt`, `enque`, `filterPrefix`, `peek`;
* `Ordered r q`: the keys do not decrease, and elements with equal keys are in the order `r`;
* `Ordered.enque`.
-/

namespace MultiMLton.FunPriorityQueue

open List

variable {κ β : Type*}

/-- `Elt.t` -/
structure Elt (κ β : Type*) where
  key : κ
  value : β
  deriving DecidableEq

variable [LinearOrder κ]

/-- The `loop` of `enque`. -/
def enque.loop (k' : κ) (v' : β) : List (Elt κ β) → List (Elt κ β) → List (Elt κ β)
  | [], ys => ys.reverse ++ [⟨k', v'⟩]
  | z :: zs, ys =>
    if k' < z.key then ys.reverse ++ ⟨k', v'⟩ :: z :: zs else enque.loop k' v' zs (z :: ys)

def enque (xs : List (Elt κ β)) (k' : κ) (v' : β) : List (Elt κ β) := enque.loop k' v' xs []

def filterPrefix (p : Elt κ β → Bool) : List (Elt κ β) → List (Elt κ β)
  | [] => []
  | y :: ys => if p y then filterPrefix p ys else y :: ys

def peek (xs : List (Elt κ β)) : Option (Elt κ β) := xs.head?

/-- `x` may stand before `y`: by the key, and with equal keys in the order `r`. -/
def Before (r : β → β → Prop) (x y : Elt κ β) : Prop :=
  x.key < y.key ∨ x.key = y.key ∧ r x.value y.value

/-- A queue in order. -/
def Ordered (r : β → β → Prop) (q : List (Elt κ β)) : Prop := q.Pairwise (Before r)

theorem Before.key_le {r : β → β → Prop} {x y : Elt κ β} (h : Before r x y) : x.key ≤ y.key := by
  rcases h with h | ⟨h, -⟩
  · exact h.le
  · exact h.le

theorem loop_eq (k' : κ) (v' : β) (xs ys : List (Elt κ β)) :
    enque.loop k' v' xs ys = ys.reverse ++ (xs.takeWhile (fun z => z.key ≤ k') ++
      ⟨k', v'⟩ :: xs.dropWhile (fun z => z.key ≤ k')) := by
  induction xs generalizing ys with
  | nil => rfl
  | cons z zs ih =>
    unfold enque.loop
    by_cases h : k' < z.key
    · have hle : ¬ z.key ≤ k' := not_le.2 h
      simp [h, hle]
    · have hle : z.key ≤ k' := not_lt.1 h
      simp [h, hle, ih]

/-- `enque` puts the new element behind all elements whose key is not greater. -/
theorem enque_eq (xs : List (Elt κ β)) (k' : κ) (v' : β) :
    enque xs k' v' = xs.takeWhile (fun z => z.key ≤ k') ++
      ⟨k', v'⟩ :: xs.dropWhile (fun z => z.key ≤ k') := by
  unfold enque
  rw [loop_eq]
  rfl

theorem perm_enque (xs : List (Elt κ β)) (k' : κ) (v' : β) :
    (enque xs k' v').Perm (⟨k', v'⟩ :: xs) := by
  rw [enque_eq]
  refine perm_middle.trans (List.Perm.cons _ ?_)
  rw [takeWhile_append_dropWhile]

/-- Behind the head of the rest of an ordered queue all keys are at least as large. -/
theorem Ordered.lt_of_mem_dropWhile {r : β → β → Prop} {q : List (Elt κ β)} (h : Ordered r q)
    {k : κ} {x : Elt κ β} (hx : x ∈ q.dropWhile (fun z => z.key ≤ k)) : k < x.key := by
  induction q with
  | nil => cases hx
  | cons y ys ih =>
    obtain ⟨hy, hys⟩ := pairwise_cons.1 h
    by_cases hk : y.key ≤ k
    · rw [dropWhile_cons_of_pos (by simpa using hk)] at hx
      exact ih hys hx
    · rw [dropWhile_cons_of_neg (by simpa using hk)] at hx
      have hlt : k < y.key := not_le.1 hk
      rcases mem_cons.1 hx with rfl | hx
      · exact hlt
      · exact hlt.trans_le (hy x hx).key_le

/-- A queue stays in order when a new element comes behind all others in the order `r`. -/
theorem Ordered.enque {r : β → β → Prop} {q : List (Elt κ β)} (h : Ordered r q) (k' : κ) {v' : β}
    (hnew : ∀ x ∈ q, r x.value v') : Ordered r (enque q k' v') := by
  have htake : (q.takeWhile (fun z => z.key ≤ k')).Pairwise (Before r) :=
    h.sublist (takeWhile_sublist _)
  have hdrop : (q.dropWhile (fun z => z.key ≤ k')).Pairwise (Before r) :=
    h.sublist (dropWhile_sublist _)
  have hbefore : ∀ x ∈ q.takeWhile (fun z => z.key ≤ k'), x.key ≤ k' ∧ r x.value v' := by
    intro x hx
    have hle := mem_takeWhile_imp hx
    exact ⟨by simpa using hle, hnew x ((takeWhile_sublist _).subset hx)⟩
  unfold Ordered
  rw [enque_eq]
  refine pairwise_append.2 ⟨htake, pairwise_cons.2 ⟨fun y hy => ?_, hdrop⟩, ?_⟩
  · exact .inl (h.lt_of_mem_dropWhile hy)
  · intro x hx y hy
    rcases mem_cons.1 hy with rfl | hy
    · obtain ⟨hle, hr⟩ := hbefore x hx
      rcases hle.lt_or_eq with hlt | heq
      · exact .inl hlt
      · exact .inr ⟨heq, hr⟩
    · rw [← takeWhile_append_dropWhile (p := fun z : Elt κ β => z.key ≤ k') (l := q)] at h
      exact (pairwise_append.1 h).2.2 x hx y hy

end MultiMLton.FunPriorityQueue
