import MultiMLton.Basic.Dominators
import MultiMLton.Lib.Folds
import MultiMLton.Basic.DominatorsIterate

/-!
# Trees from fathers

What `treeAt` of `dominatorTree` builds from the lists of children.

* `Tree.values`, `Tree.map`, `Tree.Child`: the values of a tree, and which is a child of which;
* `mem_childrenOf`, `nodup_childrenOf`: the lists that the pushes make;
* `treeAt_eq`: the tree below a node has the nodes below it once, as the children of their fathers.
-/

namespace MultiMLton.Basic

open Lib List

variable {α β : Type}

namespace Tree

/-- The root of a tree. -/
def value : Tree α → α
  | T a _ => a

mutual

/-- The values in the order of `foldPre`. -/
def values : Tree α → List α
  | T a ts => a :: valuesList ts

def valuesList : List (Tree α) → List α
  | [] => []
  | t :: ts => values t ++ valuesList ts

end

mutual

/-- `Tree.map` -/
def map (f : α → β) : Tree α → Tree β
  | T a ts => T (f a) (mapList f ts)

def mapList (f : α → β) : List (Tree α) → List (Tree β)
  | [] => []
  | t :: ts => map f t :: mapList f ts

end

@[simp] theorem valuesList_eq (ts : List (Tree α)) : valuesList ts = ts.flatMap values := by
  induction ts with
  | nil => rfl
  | cons t ts ih => rw [valuesList, ih, flatMap_cons]

@[simp] theorem mapList_eq (f : α → β) (ts : List (Tree α)) : mapList f ts = ts.map (map f) := by
  induction ts with
  | nil => rfl
  | cons t ts ih => rw [mapList, ih, map_cons]

/-- `c` is the value of a child of a node with value `p`. -/
inductive Child : Tree α → α → α → Prop
  | root {p : α} {ts : List (Tree α)} {t : Tree α} (ht : t ∈ ts) : Child (T p ts) p t.value
  | inner {a p c : α} {ts : List (Tree α)} {t : Tree α} (ht : t ∈ ts) (h : Child t p c) :
    Child (T a ts) p c

end Tree

namespace Dominators

/-! ### Children -/

section Children

variable [DecidableEq α]

/-- The father of a node. -/
def fatherOf (idom : α → IdomRes α) (v : α) : Option α :=
  match idom v with
  | .idom d => some d
  | .root => none
  | .unreachable => none

omit [DecidableEq α] in
theorem fatherOf_eq_some {idom : α → IdomRes α} {v d : α} :
    fatherOf idom v = some d ↔ idom v = .idom d := by
  rw [fatherOf]
  cases idom v <;> simp

variable {idom : α → IdomRes α} {nodes : List α}

/-- The pushes onto the lists that are there. -/
theorem foldl_push (nodes : List α) (init : α → List α) (n : α) :
    nodes.foldl (pushChild idom) init n =
      (nodes.filter fun c => fatherOf idom c = some n).reverse ++ init n := by
  induction nodes generalizing init with
  | nil => rfl
  | cons c nodes ih =>
    rw [foldl_cons, ih, filter_cons]
    cases hc : idom c with
    | idom d =>
      by_cases hd : d = n
      · subst hd
        simp [pushChild, fatherOf, hc]
      · simp [pushChild, fatherOf, hc, hd, Function.update_of_ne (Ne.symm hd)]
    | root | unreachable => simp [pushChild, fatherOf, hc]

theorem mem_childrenOf {n c : α} :
    c ∈ childrenOf idom nodes n ↔ c ∈ nodes ∧ fatherOf idom c = some n := by
  rw [childrenOf, foldl_push]
  simp

theorem nodup_childrenOf (h : nodes.Nodup) (n : α) : (childrenOf idom nodes n).Nodup := by
  rw [childrenOf, foldl_push, append_nil, nodup_reverse]
  exact h.filter _

end Children

/-! ### The tree below a node -/

section Below

variable {father : α → Option α} {rank : α → ℕ} {children : α → List α} {n : α}

/-- The tree has what is below `n`, once and under its father. -/
structure Below (father : α → Option α) (n : α) (t : Tree α) : Prop where
  value : t.value = n
  nodup : t.values.Nodup
  mem : ∀ v, v ∈ t.values ↔ Anc father n v
  child : ∀ p c, t.Child p c ↔ father c = some p ∧ Anc father n p

theorem anc_rank_le (hrank : ∀ c p, father c = some p → rank c < rank p) {a b : α}
    (h : Anc father a b) : rank b ≤ rank a := by
  induction h with
  | refl => exact le_rfl
  | up hc _ ih => exact (hrank _ _ hc).le.trans ih

/-- What is below is the node itself, or below one of its children. -/
theorem anc_iff_child {v : α} :
    Anc father n v ↔ v = n ∨ ∃ c, father c = some n ∧ Anc father c v := by
  constructor
  · intro h
    induction h with
    | refl => exact .inl rfl
    | @up b c hc _ ih =>
      rcases ih with rfl | ⟨c', hc', hanc⟩
      · exact .inr ⟨b, hc, .refl b⟩
      · exact .inr ⟨c', hc', .up hc hanc⟩
  · rintro (rfl | ⟨c, hc, hanc⟩)
    · exact .refl v
    · exact (Anc.up hc (.refl n)).trans hanc

section

variable (hrank : ∀ c p, father c = some p → rank c < rank p)

include hrank

/-- What is below a child is below no other one. -/
theorem eq_of_child {c c' v : α}
    (hc : father c = some n) (hc' : father c' = some n) (h : Anc father c v) (h' : Anc father c' v) :
    c = c' := by
  wlog hanc : Anc father c c' generalizing c c'
  · exact (this hc' hc h' h ((h.total h').resolve_left hanc)).symm
  by_contra hne
  obtain ⟨p, hp, hcp⟩ := hanc.of_ne hne
  rw [hc'] at hp
  cases hp
  have hle := anc_rank_le hrank hcp
  have hlt := hrank c n hc
  omega

/-- The trees below the children make the tree below a node. -/
theorem below_of_children
    (hnodup : (children n).Nodup) (hmem : ∀ c, c ∈ children n ↔ father c = some n)
    {tree : α → Tree α} (htree : ∀ c ∈ children n, Below father c (tree c)) :
    Below father n (.T n ((children n).map tree)) := by
  have hbelow (v : α) : v ∈ ((children n).map tree).flatMap Tree.values ↔
      ∃ c, father c = some n ∧ Anc father c v := by
    rw [flatMap_map, mem_flatMap]
    refine exists_congr fun c => ?_
    rw [hmem]
    exact and_congr_right fun hc => (htree c ((hmem c).2 hc)).mem v
  refine ⟨rfl, ?_, fun v => ?_, fun p c => ⟨fun h => ?_, fun h => ?_⟩⟩
  · rw [Tree.values, Tree.valuesList_eq, nodup_cons]
    refine ⟨fun hself => ?_, ?_⟩
    · obtain ⟨c, hc, hanc⟩ := (hbelow n).1 hself
      have hle := anc_rank_le hrank hanc
      have hlt := hrank c n hc
      omega
    · rw [flatMap_map, nodup_flatMap]
      refine ⟨fun c hc => (htree c hc).nodup, hnodup.imp_of_mem ?_⟩
      intro c c' hc hc' hne v hv hv'
      exact hne (eq_of_child hrank ((hmem c).1 hc) ((hmem c').1 hc') (((htree c hc).mem v).1 hv)
        (((htree c' hc').mem v).1 hv'))
  · rw [Tree.values, Tree.valuesList_eq, mem_cons, hbelow, anc_iff_child]
  · cases h with
    | root ht =>
      obtain ⟨c, hc, rfl⟩ := mem_map.1 ht
      rw [(htree c hc).value]
      exact ⟨(hmem c).1 hc, .refl n⟩
    | inner ht h =>
      obtain ⟨c', hc', rfl⟩ := mem_map.1 ht
      obtain ⟨hc, hanc⟩ := ((htree c' hc').child p c).1 h
      exact ⟨hc, (Anc.up ((hmem c').1 hc') (.refl n)).trans hanc⟩
  · obtain ⟨hc, hanc⟩ := h
    rcases anc_iff_child.1 hanc with rfl | ⟨c', hc', hanc⟩
    · have hin := (hmem c).2 hc
      rw [← (htree c hin).value]
      exact .root (mem_map_of_mem hin)
    · have hin := (hmem c').2 hc'
      exact .inner (mem_map_of_mem hin) (((htree c' hin).child p c).2 ⟨hc, hanc⟩)

/-- `treeAt` returns with more fuel than the number of a node. -/
theorem treeAt_eq
    (hnodup : ∀ n, (children n).Nodup) (hmem : ∀ n c, c ∈ children n ↔ father c = some n) (n : α) :
    ∃ t, Below father n t ∧ ∀ fuel, rank n < fuel → ∀ {β : Type} (nodeValue : α → β),
      treeAt children nodeValue fuel n = some (t.map nodeValue) := by
  induction hk : rank n using Nat.strong_induction_on generalizing n with
  | _ k ih =>
    have hex (c : α) : ∃ t : Tree α, c ∈ children n → Below father c t ∧
        ∀ fuel, rank c < fuel → ∀ {β : Type} (nodeValue : α → β),
          treeAt children nodeValue fuel c = some (t.map nodeValue) := by
      by_cases hc : c ∈ children n
      · have hlt := hrank c n ((hmem n c).1 hc)
        obtain ⟨t, ht⟩ := ih (rank c) (by omega) c rfl
        exact ⟨t, fun _ => ht⟩
      · exact ⟨.T n [], fun h => absurd h hc⟩
    choose tree htree using hex
    refine ⟨.T n ((children n).map tree),
      below_of_children hrank (hnodup n) (hmem n) fun c hc => (htree c hc).1, ?_⟩
    intro fuel hfuel β nodeValue
    obtain ⟨fuel, rfl⟩ := Nat.exists_eq_add_of_lt hfuel
    have hmap : (children n).mapM (treeAt children nodeValue (k + fuel)) =
        some ((children n).map fun c => (tree c).map nodeValue) := by
      refine mapM_eq_some fun c hc => (htree c hc).2 _ ?_ nodeValue
      have hlt := hrank c n ((hmem n c).1 hc)
      omega
    rw [treeAt, hmap, Tree.map, Tree.mapList_eq, map_map]
    rfl

end

end Below

end Dominators

end MultiMLton.Basic

/-!
## Dominators are exact

`dominators` returns for every node its closest strict dominator, and `dominatorTree` has every node
that the root reaches once, under its immediate dominator.

* `Numbers.dominates_iff`: dominance between numbers is that between nodes;
* `dominators_yields`: what `dominators` returns;
* `dominators_exact`: both functions.
-/

namespace MultiMLton.Basic

open Filter Lib

variable {α : Type}

/-- Every node that the root reaches has its immediate dominator. -/
structure IsDominators (g : DirectedGraph α) (root : α) (idom : α → IdomRes α) : Prop where
  eq_root : ∀ v, idom v = .root ↔ v = root
  unreachable : ∀ v, idom v = .unreachable ↔ ¬g.Reach root v
  idom : ∀ v, v ≠ root → g.Reach root v → ∃ d, idom v = .idom d ∧ IsIdom g.Edge root d v ∧
    ∀ d', IsIdom g.Edge root d' v → d' = d

section IsDominators

variable {g : DirectedGraph α} {root : α} {idom idom' : α → IdomRes α}

theorem IsDominators.unique (h : IsDominators g root idom)
    (h' : IsDominators g root idom') : idom = idom' := by
  funext v
  by_cases hroot : v = root
  · rw [(h.eq_root v).2 hroot, (h'.eq_root v).2 hroot]
  · by_cases hreach : g.Reach root v
    · obtain ⟨d, hd, -, hunique⟩ := h.idom v hroot hreach
      obtain ⟨d', hd', hdom', -⟩ := h'.idom v hroot hreach
      rw [hd, hd', hunique d' hdom']
    · rw [(h.unreachable v).2 hreach, (h'.unreachable v).2 hreach]

theorem IsDominators.reach (h : IsDominators g root idom) {v d : α} (hd : idom v = .idom d) :
    g.Reach root v := by
  by_contra hv
  rw [(h.unreachable v).2 hv] at hd
  cases hd

theorem IsDominators.ne_root (h : IsDominators g root idom) {v d : α} (hd : idom v = .idom d) :
    v ≠ root := by
  intro hv
  rw [(h.eq_root v).2 hv] at hd
  cases hd

/-- An immediate dominator is on every path. -/
theorem IsDominators.reach_idom (h : IsDominators g root idom) {v d : α} (hd : idom v = .idom d) :
    g.Reach root d := by
  obtain ⟨d', hd', hdom, -⟩ := h.idom v (h.ne_root hd) (h.reach hd)
  rw [hd] at hd'
  cases hd'
  obtain ⟨l, hl⟩ := pathTo_iff_reach.2 (h.reach hd)
  obtain ⟨l', -, hl'⟩ := hl.of_mem (hdom.dominates l hl)
  exact pathTo_iff_reach.1 ⟨l', hl'⟩

end IsDominators

/-- Every node that the root reaches is there once, under its immediate dominator. -/
structure IsDominatorTree (g : DirectedGraph α) (root : α) (idom : α → IdomRes α) (t : Tree α) :
    Prop where
  value : t.value = root
  nodup : t.values.Nodup
  mem : ∀ v, v ∈ t.values ↔ g.Reach root v
  child : ∀ p c, t.Child p c ↔ idom c = .idom p

namespace Dominators

variable {g : DirectedGraph α} {root : α} {r : ℕ} {s : Numbering α} {preds : ℕ → List ℕ}
  {idoms : ℕ → Option ℕ}

/-! ### Numbers and nodes -/

theorem Numbers.flow (h : Numbers g root r s) (hpreds : Predecessors (NumEdge g s r) (r + 1) preds) :
    Flow (NumEdge g s r) r preds where
  mem t j := by
    rw [hpreds.mem]
    exact and_iff_right_of_imp fun hedge => Nat.lt_succ_of_le hedge.1
  le j t hedge := by
    obtain ⟨hj, w, -, ht⟩ := hedge
    exact ⟨hj, (h.of_num w t ht).1⟩
  sorted := hpreds.sorted
  exists_lt t ht := by
    obtain ⟨j, hj, hlt, hmem⟩ := h.pred t ht
    exact ⟨j, ⟨hj, s.node t, hmem, h.num t ht.le⟩, hlt⟩

theorem Numbers.node_inj (h : Numbers g root r s) {j k : ℕ} (hj : j ≤ r) (hk : k ≤ r)
    (heq : s.node j = s.node k) : j = k := by
  have hnum := h.num j hj
  rw [heq, h.num k hk] at hnum
  cases hnum
  rfl

theorem Numbers.reach_node (h : Numbers g root r s) {k : ℕ} (hk : k ≤ r) : g.Reach root (s.node k) :=
  (h.reach _).1 ⟨k, h.num k hk⟩

theorem Numbers.exists_node (h : Numbers g root r s) {v : α} (hv : g.Reach root v) :
    ∃ k ≤ r, s.node k = v := by
  obtain ⟨k, hk⟩ := (h.reach v).2 hv
  exact ⟨k, h.of_num v k hk⟩

/-- The numbers up to that of the root are names of the nodes it reaches, and of themselves. -/
theorem Numbers.dominates_iff (h : Numbers g root r s) {d k : ℕ} (hd : d ≤ r) (hk : k ≤ r) :
    Dominates g.Edge root (s.node d) (s.node k) ↔ Dominates (NumEdge g s r) r d k := by
  let edge (a b : {k // k ≤ r}) : Prop := NumEdge g s r a b
  have hnodes : Names g.Edge edge fun k => s.node k := by
    refine ⟨fun a b hab => ?_, fun a y hy => ?_⟩
    · obtain ⟨-, w, hw, hb⟩ := hab
      rwa [← (h.of_num w b hb).2] at hw
    · obtain ⟨k, hk⟩ := (h.reach y).2 ((h.reach_node a.2).tail hy)
      obtain ⟨hle, rfl⟩ := h.of_num y k hk
      exact ⟨⟨k, hle⟩, rfl, a.2, s.node k, hy, hk⟩
  have hnums : Names (NumEdge g s r) edge Subtype.val := by
    refine ⟨fun a b hab => hab, fun a y hy => ?_⟩
    obtain ⟨-, w, -, hy'⟩ := id hy
    exact ⟨⟨y, (h.of_num w y hy').1⟩, rfl, hy⟩
  have hinj : Function.Injective fun k : {k // k ≤ r} => s.node k :=
    fun a b heq => Subtype.ext (h.node_inj a.2 b.2 heq)
  have h1 := dominates_map_iff hnodes hinj (r := ⟨r, le_rfl⟩) (d := ⟨d, hd⟩) (v := ⟨k, hk⟩)
  have h2 := dominates_map_iff hnums Subtype.val_injective (r := ⟨r, le_rfl⟩) (d := ⟨d, hd⟩)
    (v := ⟨k, hk⟩)
  dsimp only at h1 h2
  rw [h.last] at h1
  rw [h1, h2]

/-- The father of a number is the immediate dominator of its node. -/
theorem Numbers.isIdom (h : Numbers g root r s)
    (hpreds : Predecessors (NumEdge g s r) (r + 1) preds)
    (hexact : Exact (NumEdge g s r) r preds idoms) {k d : ℕ} (hk : k < r) (hd : idoms k = some d) :
    k < d ∧ d ≤ r ∧ IsIdom g.Edge root (s.node d) (s.node k) := by
  have hlt := hexact.chains.lt k hk d hd
  have hanc : Anc idoms d k := .up hd (.refl d)
  have hdr := (hexact.chains.anc (h.flow hpreds) hanc hk.le).2.1
  refine ⟨hlt, hdr, fun heq => ?_, ?_, fun d' hne hdom => ?_⟩
  · have := h.node_inj hdr hk.le heq
    omega
  · exact (h.dominates_iff hdr hk.le).2 ((hexact.anc k hk.le d).1 hanc)
  · obtain ⟨l, hl⟩ := pathTo_iff_reach.2 (h.reach_node hk.le)
    obtain ⟨l', -, hl'⟩ := hl.of_mem (hdom l hl)
    obtain ⟨e, he, rfl⟩ := h.exists_node (pathTo_iff_reach.1 ⟨l', hl'⟩)
    have hek : e ≠ k := fun hek => hne (by rw [hek])
    obtain ⟨c, hc, hec⟩ := ((hexact.anc k hk.le e).2 ((h.dominates_iff he hk.le).1 hdom)).of_ne hek
    rw [hd] at hc
    cases hc
    exact (h.dominates_iff he hdr).2 ((hexact.anc d hdr e).1 hec)

/-! ### What `dominators` returns -/

variable [DecidableEq α]

/-- The loop that sets `idomFinal`. -/
theorem foldlM_final (h : Numbers g root r s) (hknown : ∀ k < r, idoms k ≠ none)
    (init : α → IdomRes α) {n : ℕ} (hn : n ≤ r) : ∃ idomFinal,
    (List.range n).foldlM
        (fun idomFinal i => (idoms i).map fun d =>
          Function.update idomFinal (s.node i) (.idom (s.node d))) init = some idomFinal ∧
      (∀ v, (∀ k < n, s.node k ≠ v) → idomFinal v = init v) ∧
      ∀ k < n, ∀ d, idoms k = some d → idomFinal (s.node k) = .idom (s.node d) := by
  induction n with
  | zero => exact ⟨init, rfl, fun _ _ => rfl, nofun⟩
  | succ n ih =>
    obtain ⟨idomFinal, heq, hother, hset⟩ := ih (by omega)
    obtain ⟨d, hd⟩ := Option.ne_none_iff_exists'.1 (hknown n (by omega))
    refine ⟨Function.update idomFinal (s.node n) (.idom (s.node d)), ?_, fun v hv => ?_,
      fun k hk d' hd' => ?_⟩
    · rw [List.range_succ, List.foldlM_append, heq]
      simp [hd]
    · rw [Function.update_of_ne (hv n (Nat.lt_succ_self n)).symm]
      exact hother v fun k hk => hv k (by omega)
    · by_cases hkn : k = n
      · subst hkn
        rw [hd] at hd'
        cases hd'
        rw [Function.update_self]
      · have hne : s.node k ≠ s.node n := fun heq => hkn (h.node_inj (by omega) (by omega) heq)
        rw [Function.update_of_ne hne]
        exact hset k (by omega) d' hd'

/-- The function that the last loop makes of the numbers of immediate dominators. -/
theorem Numbers.isDominators (h : Numbers g root r s)
    (hpreds : Predecessors (NumEdge g s r) (r + 1) preds)
    (hexact : Exact (NumEdge g s r) r preds idoms) {idom : α → IdomRes α}
    (hother : ∀ v, (∀ k < r, s.node k ≠ v) →
      idom v = Function.update (fun _ => IdomRes.unreachable) root .root v)
    (hset : ∀ k < r, ∀ d, idoms k = some d → idom (s.node k) = .idom (s.node d)) :
    IsDominators g root idom ∧
      ∀ v d, idom v = .idom d → ∃ k j, k < j ∧ j ≤ r ∧ s.node k = v ∧ s.node j = d := by
  have hroot : idom root = .root := by
    rw [hother root, Function.update_self]
    intro k hk heq
    have := h.node_inj hk.le le_rfl (heq.trans h.last.symm)
    omega
  have hunreachable {v : α} (hv : ¬g.Reach root v) : idom v = .unreachable := by
    have hne : v ≠ root := fun heq => hv (heq ▸ .refl)
    rw [hother v, Function.update_of_ne hne]
    rintro k hk rfl
    exact hv (h.reach_node hk.le)
  have hidom {v : α} (hne : v ≠ root) (hv : g.Reach root v) : ∃ k d, k < r ∧ s.node k = v ∧
      idoms k = some d ∧ idom v = .idom (s.node d) := by
    obtain ⟨k, hk, rfl⟩ := h.exists_node hv
    have hlt : k < r := lt_of_le_of_ne hk fun heq => hne (by rw [heq, h.last])
    obtain ⟨d, hd⟩ := Option.ne_none_iff_exists'.1 (hexact.known k hk)
    exact ⟨k, d, hlt, rfl, hd, hset k hlt d hd⟩
  refine ⟨⟨fun v => ⟨fun hv => ?_, fun hv => hv ▸ hroot⟩, fun v => ⟨fun hv hreach => ?_, hunreachable⟩,
    fun v hne hv => ?_⟩, fun v d hd => ?_⟩
  · by_contra hne
    by_cases hreach : g.Reach root v
    · obtain ⟨k, d, -, -, -, heq⟩ := hidom hne hreach
      rw [hv] at heq
      cases heq
    · rw [hunreachable hreach] at hv
      cases hv
  · by_cases hne : v = root
    · rw [hne, hroot] at hv
      cases hv
    · obtain ⟨k, d, -, -, -, heq⟩ := hidom hne hreach
      rw [hv] at heq
      cases heq
  · obtain ⟨k, d, hk, rfl, hd, heq⟩ := hidom hne hv
    obtain ⟨-, -, hdom⟩ := h.isIdom hpreds hexact hk hd
    exact ⟨s.node d, heq, hdom, fun d' hd' => hd'.unique hdom (pathTo_iff_reach.2 hv)⟩
  · have hne : v ≠ root := by
      rintro rfl
      rw [hroot] at hd
      cases hd
    have hreach : g.Reach root v := by
      by_contra hv
      rw [hunreachable hv] at hd
      cases hd
    obtain ⟨k, j, hk, rfl, hj, heq⟩ := hidom hne hreach
    rw [hd] at heq
    cases heq
    obtain ⟨hlt, hle, -⟩ := h.isIdom hpreds hexact hk hj
    exact ⟨k, j, hlt, hle, rfl, rfl⟩

/-- The number of a node. -/
def rankOf (s : Numbering α) (v : α) : ℕ :=
  match s.getNum v with
  | .num k => k
  | .unknown => 0
  | .visiting => 0

omit [DecidableEq α] in
theorem Numbers.rankOf_node (h : Numbers g root r s) {k : ℕ} (hk : k ≤ r) :
    rankOf s (s.node k) = k := by
  rw [rankOf, h.num k hk]

/-- `dominators` returns, and immediate dominators have larger numbers. -/
theorem dominators_yields (g : DirectedGraph α) {root : α} (hroot : root ∈ g.nodes) : ∃ idom,
    Yields (dominators g root) idom ∧ IsDominators g root idom ∧ ∃ (rank : α → ℕ) (r : ℕ),
      (∀ v, g.Reach root v → rank v ≤ r) ∧ ∀ v d, idom v = .idom d → rank v < rank d := by
  obtain ⟨r, s, hdfs, h⟩ := dfs_numbers g hroot
  obtain ⟨preds, hpreds_eq, hpreds⟩ := predecessors_eq h
  obtain ⟨M, hM⟩ := iterate_exact (h.flow hpreds)
  have hall (fuel : ℕ) (hfuel : g.nodes.length + 2 * r + M < fuel) : ∃ idom,
      dominators g root fuel = some idom ∧ IsDominators g root idom ∧
        ∀ v d, idom v = .idom d → ∃ k j, k < j ∧ j ≤ r ∧ s.node k = v ∧ s.node j = d := by
    obtain ⟨idoms, hiterate, hexact⟩ := hM fuel (by omega) fuel (by omega)
    obtain ⟨idom, hfinal, hother, hset⟩ := foldlM_final h (fun k hk => hexact.known k hk.le)
      (Function.update (fun _ => .unreachable) root .root) le_rfl
    refine ⟨idom, ?_, h.isDominators hpreds hexact hother hset⟩
    have hdfs := hdfs fuel (by omega)
    simp only [dominators, hdfs, Option.bind_eq_bind, Option.bind_some, hpreds_eq,
      Nat.add_sub_cancel, hiterate, hfinal]
  obtain ⟨idom, -, hidom, hnums⟩ := hall _ (Nat.lt_succ_self _)
  refine ⟨idom, ?_, hidom, rankOf s, r, fun v hv => ?_, fun v d hd => ?_⟩
  · refine eventually_atTop.2 ⟨g.nodes.length + 2 * r + M + 1, fun fuel hfuel => ?_⟩
    obtain ⟨idom', heq, hidom', -⟩ := hall fuel hfuel
    rw [heq, hidom'.unique hidom]
  · obtain ⟨k, hk, rfl⟩ := h.exists_node hv
    rwa [h.rankOf_node hk]
  · obtain ⟨k, j, hlt, hle, rfl, rfl⟩ := hnums v d hd
    rwa [h.rankOf_node (hlt.le.trans hle), h.rankOf_node hle]

/-- The tree of the nodes that the root reaches, since all have the root above them. -/
theorem Below.isDominatorTree {idom : α → IdomRes α} {t : Tree α} (h : Below (fatherOf idom) root t)
    (hidom : IsDominators g root idom) {rank : α → ℕ} (hle : ∀ v, g.Reach root v → rank v ≤ r)
    (hrank : ∀ v d, idom v = .idom d → rank v < rank d) : IsDominatorTree g root idom t := by
  have hanc : ∀ n v, g.Reach root v → r - rank v = n → Anc (fatherOf idom) root v := by
    intro n
    induction n using Nat.strong_induction_on with
    | _ n ih =>
      intro v hv hn
      by_cases hvr : v = root
      · exact hvr ▸ .refl v
      · obtain ⟨d, hd, -⟩ := hidom.idom v hvr hv
        have hlt := hrank v d hd
        have hdr := hle d (hidom.reach_idom hd)
        exact .up (fatherOf_eq_some.2 hd) (ih (r - rank d) (by omega) d (hidom.reach_idom hd) rfl)
  refine ⟨h.value, h.nodup, fun v => (h.mem v).trans ⟨fun hv => ?_, fun hv => hanc _ v hv rfl⟩,
    fun p c => (h.child p c).trans ?_⟩
  · cases hv with
    | refl => exact .refl
    | up hc _ => exact hidom.reach (fatherOf_eq_some.1 hc)
  · rw [fatherOf_eq_some]
    exact and_iff_left_of_imp fun hc => hanc _ p (hidom.reach_idom hc) rfl

end Dominators

open Dominators

variable [DecidableEq α]

/-- `dominators` returns the closest strict dominator of every node that the root reaches, and
`dominatorTree` the tree of them. -/
theorem dominators_exact {β : Type} (g : Graph α) {root : α} (hroot : root ∈ g.nodes)
    (nodeValue : α → β) : ∃ idom,
    Yields (dominators g.toDirectedGraph root) idom ∧ IsDominators g.toDirectedGraph root idom ∧
      ∃ t : Tree α, Yields (dominatorTree g root nodeValue) (t.map nodeValue) ∧
        IsDominatorTree g.toDirectedGraph root idom t := by
  obtain ⟨idom, hyields, hidom, rank, r, hle, hrank⟩ := dominators_yields g.toDirectedGraph hroot
  have hfather (c p : α) (hc : fatherOf idom c = some p) : rank c < rank p :=
    hrank c p (fatherOf_eq_some.1 hc)
  have hmem (n c : α) : c ∈ childrenOf idom g.nodes n ↔ fatherOf idom c = some n := by
    rw [mem_childrenOf]
    refine and_iff_right_of_imp fun hc => ?_
    exact DirectedGraph.mem_nodes_of_reach hroot (hidom.reach (fatherOf_eq_some.1 hc))
  obtain ⟨t, hbelow, htree⟩ := treeAt_eq hfather (nodup_childrenOf g.nodup) hmem root
  refine ⟨idom, hyields, hidom, t, ?_, hbelow.isDominatorTree hidom hle hrank⟩
  filter_upwards [hyields, eventually_gt_atTop (rank root)] with fuel heq hfuel
  rw [dominatorTree, heq]
  exact htree fuel hfuel nodeValue

/-- A loop with two entries, one of them by two edges, and a node that nothing leads to. -/
def twoEntries : Graph (Fin 4) where
  nodes := [3, 2, 1, 0]
  succ := ![[2, 1, 2], [2], [1, 2], [1]]
  mem_of_succ := by decide
  nodup := by decide

/-- Neither entry of the loop dominates the other one. -/
theorem dominators_exact_twoEntries : ∃ idom,
    Yields (dominators twoEntries.toDirectedGraph 0) idom ∧
      IsDominators twoEntries.toDirectedGraph 0 idom ∧
      ∃ t : Tree (Fin 4), Yields (dominatorTree twoEntries 0 Fin.val) (t.map Fin.val) ∧
        IsDominatorTree twoEntries.toDirectedGraph 0 idom t :=
  dominators_exact twoEntries (by decide) Fin.val

example : ((dominators twoEntries.toDirectedGraph 0 10).map fun idom => [0, 1, 2, 3].map idom) =
    some [.root, .idom 0, .idom 0, .unreachable] := by decide

end MultiMLton.Basic
