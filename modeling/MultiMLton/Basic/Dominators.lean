import MultiMLton.Lib.Dominance
import MultiMLton.Lib.Fuel
import MultiMLton.Lib.LoopForest

/-!
# Dominators

`dominators` and `dominatorTree` of `basic/directed-graph.sml`. The nodes that the root reaches are
numbered in the order in which a depth-first search leaves them, and the numbers of immediate
dominators are computed by iteration over all of them from the root down.

Properties of nodes and arrays are functions here, and loops take their turns as fuel. `none` is a
loop that has run out of it, a subscript out of range or `Fail`.
-/

namespace MultiMLton.Basic

open Lib

variable {α : Type} [DecidableEq α] (g : DirectedGraph α)

/-- `idomRes` -/
inductive IdomRes (α : Type)
  | idom (d : α)
  | root
  | unreachable
  deriving DecidableEq

namespace Dominators

/-- What `getNum` returns: `unknown`, `visiting` or the number of a node. -/
inductive Num
  | unknown
  | visiting
  | num (n : ℕ)
  deriving DecidableEq

/-- The numbers of the nodes and the array `nodes`. -/
structure Numbering (α : Type) where
  getNum : α → Num
  node : ℕ → α

def Numbering.setNum (s : Numbering α) (v : α) (k : Num) : Numbering α :=
  { s with getNum := Function.update s.getNum v k }

/-- `Array.update (nodes, n, v)` -/
def Numbering.setNode (s : Numbering α) (n : ℕ) (v : α) : Numbering α :=
  { s with node := Function.update s.node n v }

section Numbering

variable {s : Numbering α} {u v : α} {k : Num} {m n : ℕ}

@[simp] theorem Numbering.getNum_setNum_self : (s.setNum v k).getNum v = k := Function.update_self ..

theorem Numbering.getNum_setNum_of_ne (h : u ≠ v) : (s.setNum v k).getNum u = s.getNum u :=
  Function.update_of_ne h _ _

@[simp] theorem Numbering.node_setNum : (s.setNum v k).node = s.node := rfl

omit [DecidableEq α] in
@[simp] theorem Numbering.getNum_setNode : (s.setNode n v).getNum = s.getNum := rfl

omit [DecidableEq α] in
@[simp] theorem Numbering.node_setNode_self : (s.setNode n v).node n = v := Function.update_self ..

omit [DecidableEq α] in
theorem Numbering.node_setNode_of_ne (h : m ≠ n) : (s.setNode n v).node m = s.node m :=
  Function.update_of_ne h _ _

end Numbering

/-- `dfs (n, v)`: the next number, and the nodes that are reached from `v`. -/
def dfs : ℕ → ℕ → α → Numbering α → Option (ℕ × Numbering α)
  | 0, _, _, _ => none
  | fuel + 1, n, v, s => do
    let (n, s) ← (g.succ v).foldlM
      (fun (n, s) w => if s.getNum w = .unknown then dfs fuel n w s else some (n, s))
      (n, s.setNum v .visiting)
    if n < g.nodes.length then some (n + 1, (s.setNum v (.num n)).setNode n v) else none

/-- `addPred` -/
def addPred (preds : ℕ → List ℕ) (t f : ℕ) : ℕ → List ℕ := Function.update preds t (f :: preds t)

/-- The edges from the node with number `i` to `ws`. -/
def addPreds (s : Numbering α) (i : ℕ) (preds : ℕ → List ℕ) (ws : List α) : Option (ℕ → List ℕ) :=
  ws.foldlM
    (fun preds w =>
      match s.getNum w with
      | .num t => some (addPred preds t i)
      | _ => none)
    preds

/-- The predecessors of the numbered nodes. -/
def predecessors (s : Numbering α) (numNodes : ℕ) : Option (ℕ → List ℕ) :=
  (List.range numNodes).foldlM (fun preds i => addPreds s i preds (g.succ (s.node i))) fun _ => []

/-- `up` of `intersect`; `idom` is the array `idoms`, where `none` is `unknown`. -/
def up (idom : ℕ → Option ℕ) : ℕ → ℕ → ℕ → Option ℕ
  | 0, _, _ => none
  | fuel + 1, f, t => if f < t then (idom f).bind fun f => up idom fuel f t else some f

def intersect (idom : ℕ → Option ℕ) (fuel : ℕ) : ℕ → ℕ → ℕ → Option ℕ
  | 0, _, _ => none
  | turns + 1, n1, n2 =>
    if n1 = n2 then some n1
    else do
      let n1 ← up idom fuel n1 n2
      let n2 ← up idom fuel n2 n1
      intersect idom fuel turns n1 n2

/-- `new`: from the first predecessor, whether or not it has been processed. -/
def join (idom : ℕ → Option ℕ) (fuel : ℕ) : List ℕ → Option ℕ
  | [] => none
  | p :: ps => ps.foldlM
    (fun new j => if idom j ≠ none then intersect idom fuel fuel new j else some new) p

/-- The function that `iterate` applies to one number. -/
def visit (preds : ℕ → List ℕ) (fuel i : ℕ) (s : (ℕ → Option ℕ) × Bool) :
    Option ((ℕ → Option ℕ) × Bool) := do
  let new ← join s.1 fuel (preds i)
  some (if s.1 i ≠ some new then (Function.update s.1 i (some new), true) else s)

/-- `Int.foldDown (0, n, s, visit)` -/
def pass (preds : ℕ → List ℕ) (fuel : ℕ) : ℕ → (ℕ → Option ℕ) × Bool →
    Option ((ℕ → Option ℕ) × Bool)
  | 0, s => some s
  | i + 1, s => (visit preds fuel i s).bind (pass preds fuel i)

/-- `iterate` -/
def iterate (preds : ℕ → List ℕ) (rootNum fuel : ℕ) : ℕ → (ℕ → Option ℕ) → Option (ℕ → Option ℕ)
  | 0, _ => none
  | turns + 1, idoms => do
    let (idoms, changed) ← pass preds fuel rootNum (idoms, false)
    if changed then iterate preds rootNum fuel turns idoms else some idoms

end Dominators

open Dominators

/-- `dominators` -/
def dominators (root : α) (fuel : ℕ) : Option (α → IdomRes α) := do
  let (numNodes, s) ← dfs g fuel 0 root ⟨fun _ => .unknown, fun _ => root⟩
  let preds ← predecessors g s numNodes
  let rootNum := numNodes - 1
  let idoms ← iterate preds rootNum fuel fuel (Function.update (fun _ => none) rootNum (some rootNum))
  (List.range rootNum).foldlM
    (fun idomFinal i => (idoms i).map fun d =>
      Function.update idomFinal (s.node i) (.idom (s.node d)))
    (Function.update (fun _ => .unreachable) root .root)

/-- A graph to which every node has been added once, by `newNode`. -/
structure Graph (α : Type) extends DirectedGraph α where
  nodup : nodes.Nodup

/-- `Tree.t` -/
inductive Tree (α : Type)
  | T (value : α) (children : List (Tree α))

namespace Dominators

/-- A node becomes a child of its immediate dominator. -/
def pushChild (idom : α → IdomRes α) (children : α → List α) (n : α) : α → List α :=
  match idom n with
  | .idom n' => Function.update children n' (n :: children n')
  | .root => children
  | .unreachable => children

/-- The lists `children` after the loop over all nodes. -/
def childrenOf (idom : α → IdomRes α) (nodes : List α) : α → List α :=
  nodes.foldl (pushChild idom) fun _ => []

def treeAt {β : Type} (children : α → List α) (nodeValue : α → β) : ℕ → α → Option (Tree β)
  | 0, _ => none
  | fuel + 1, n => do
    let ts ← (children n).mapM (treeAt children nodeValue fuel)
    some (.T (nodeValue n) ts)

end Dominators

/-- `dominatorTree` -/
def dominatorTree {β : Type} (g : Graph α) (root : α) (nodeValue : α → β) (fuel : ℕ) :
    Option (Tree β) := do
  let idom ← dominators g.toDirectedGraph root fuel
  treeAt (childrenOf idom g.nodes) nodeValue fuel root

end MultiMLton.Basic

/-!
## The numbers of the nodes

What the depth-first search of `dominators` leaves behind.

* `Numbered`: the nodes that have been left are numbered from zero on;
* `dfs_searches`: a search from one node returns, and numbers nodes that it reaches;
* `dfs_numbers`: from the root, all nodes that it reaches are numbered, the root last, and every other
  one has a predecessor with a larger number;
* `predecessors_eq`: the predecessors of a number, the largest one first.
-/

namespace MultiMLton.Basic.Dominators

open Lib

variable {α : Type} [DecidableEq α] {g : DirectedGraph α}

/-- The numbers below `n` are those of nodes that have been left, whose successors are known. -/
structure Numbered (g : DirectedGraph α) (n : ℕ) (s : Numbering α) : Prop where
  mem : ∀ k < n, s.node k ∈ g.nodes
  lt : ∀ u k, s.getNum u = .num k → k < n ∧ s.node k = u
  num : ∀ k < n, s.getNum (s.node k) = .num k
  closed : ∀ u k, s.getNum u = .num k → ∀ w ∈ g.succ u, s.getNum w ≠ .unknown

/-- What a search below `v` does: the nodes with new numbers are reached from `v`, by an edge from `v`
or from a node with a larger number. -/
structure Searched (g : DirectedGraph α) (v : α) (n : ℕ) (s : Numbering α) (n' : ℕ)
    (s' : Numbering α) : Prop where
  le : n ≤ n'
  keep : ∀ u, s.getNum u ≠ .unknown → s'.getNum u = s.getNum u
  new : ∀ u, s.getNum u = .unknown → s'.getNum u = .unknown ∨
    ∃ k, s'.getNum u = .num k ∧ g.Reach v u ∧
      ∃ p, u ∈ g.succ p ∧ (p = v ∨ ∃ k', s'.getNum p = .num k' ∧ k < k')

section Search

variable {v w u : α} {n n' n'' : ℕ} {s s' s'' : Numbering α}

omit [DecidableEq α] in
theorem Searched.refl (g : DirectedGraph α) (v : α) (n : ℕ) (s : Numbering α) :
    Searched g v n s n s :=
  ⟨le_rfl, fun _ _ => rfl, fun _ h => .inl h⟩

omit [DecidableEq α] in
theorem Searched.trans (h : Searched g v n s n' s') (h' : Searched g v n' s' n'' s'') :
    Searched g v n s n'' s'' where
  le := h.le.trans h'.le
  keep u hu := by
    have heq := h.keep u hu
    rw [h'.keep u (heq.symm ▸ hu), heq]
  new u hu := by
    rcases h.new u hu with hs' | ⟨k, hk, hreach, p, hp, hlarger⟩
    · exact h'.new u hs'
    · refine .inr ⟨k, ?_, hreach, p, hp, hlarger.imp id ?_⟩
      · rw [h'.keep u (by rw [hk]; exact nofun), hk]
      · rintro ⟨k', hk', hlt⟩
        exact ⟨k', by rw [h'.keep p (by rw [hk']; exact nofun), hk'], hlt⟩

/-- A node that is visited has no number yet. -/
theorem Numbered.visit (h : Numbered g n s) (hv : s.getNum v = .unknown) :
    Numbered g n (s.setNum v .visiting) := by
  have hget {u : α} {k : ℕ} (hu : (s.setNum v .visiting).getNum u = .num k) :
      s.getNum u = .num k := by
    by_cases huv : u = v
    · rw [huv, Numbering.getNum_setNum_self] at hu
      cases hu
    · rwa [Numbering.getNum_setNum_of_ne huv] at hu
  refine ⟨h.mem, fun u k hu => h.lt u k (hget hu), fun k hk => ?_, fun u k hu w hw => ?_⟩
  · have hnum := h.num k hk
    have huv : s.node k ≠ v := by
      rintro rfl
      rw [hv] at hnum
      cases hnum
    rw [Numbering.node_setNum, Numbering.getNum_setNum_of_ne huv, hnum]
  · by_cases hwv : w = v
    · rw [hwv, Numbering.getNum_setNum_self]
      exact nofun
    · rw [Numbering.getNum_setNum_of_ne hwv]
      exact h.closed u k (hget hu) w hw

/-- The number of a node that is left. -/
theorem Numbered.leave (h : Numbered g n s) (hv : s.getNum v = .visiting) (hmem : v ∈ g.nodes)
    (hsucc : ∀ w ∈ g.succ v, s.getNum w ≠ .unknown) :
    Numbered g (n + 1) ((s.setNum v (.num n)).setNode n v) := by
  have hknown {w : α} (hw : s.getNum w ≠ .unknown) :
      (s.setNum v (.num n)).getNum w ≠ .unknown := by
    by_cases hwv : w = v
    · rw [hwv, Numbering.getNum_setNum_self]
      exact nofun
    · rwa [Numbering.getNum_setNum_of_ne hwv]
  refine ⟨fun k hk => ?_, fun u k hu => ?_, fun k hk => ?_, fun u k hu w hw => hknown ?_⟩
  · by_cases hkn : k = n
    · rwa [hkn, Numbering.node_setNode_self]
    · rw [Numbering.node_setNode_of_ne hkn, Numbering.node_setNum]
      exact h.mem k (by omega)
  · by_cases huv : u = v
    · rw [Numbering.getNum_setNode, huv, Numbering.getNum_setNum_self] at hu
      cases hu
      exact ⟨Nat.lt_succ_self n, by rw [Numbering.node_setNode_self, huv]⟩
    · rw [Numbering.getNum_setNode, Numbering.getNum_setNum_of_ne huv] at hu
      obtain ⟨hlt, hk⟩ := h.lt u k hu
      exact ⟨by omega, by rwa [Numbering.node_setNode_of_ne (by omega)]⟩
  · by_cases hkn : k = n
    · rw [hkn, Numbering.node_setNode_self, Numbering.getNum_setNode, Numbering.getNum_setNum_self]
    · have hnum := h.num k (by omega)
      have huv : s.node k ≠ v := by
        intro huv
        rw [huv, hv] at hnum
        cases hnum
      rw [Numbering.node_setNode_of_ne hkn, Numbering.node_setNum, Numbering.getNum_setNode,
        Numbering.getNum_setNum_of_ne huv, hnum]
  · by_cases huv : u = v
    · subst huv
      exact hsucc w hw
    · rw [Numbering.getNum_setNode, Numbering.getNum_setNum_of_ne huv] at hu
      exact h.closed u k hu w hw

/-- There is room in the array for a node that is left. -/
theorem Numbered.lt_length (h : Numbered g n s) (hv : s.getNum v = .visiting) (hmem : v ∈ g.nodes) :
    n < g.nodes.length := by
  have hinj : Set.InjOn s.node (Finset.range n) := by
    intro k hk k' hk' heq
    have hnum := h.num k (Finset.mem_range.1 hk)
    rw [heq, h.num k' (Finset.mem_range.1 hk')] at hnum
    cases hnum
    rfl
  have hsub : Set.MapsTo s.node (Finset.range n) (g.nodes.toFinset.erase v) := by
    intro k hk
    have hlt := Finset.mem_range.1 hk
    refine Finset.mem_erase.2 ⟨?_, List.mem_toFinset.2 (h.mem k hlt)⟩
    rintro rfl
    rw [h.num k hlt] at hv
    cases hv
  have hcard := Finset.card_le_card_of_injOn s.node hsub hinj
  have hlt := Finset.card_erase_lt_of_mem (List.mem_toFinset.2 hmem)
  have hle := List.toFinset_card_le g.nodes
  rw [Finset.card_range] at hcard
  omega

/-- The nodes that are not known. -/
def unknowns (g : DirectedGraph α) (s : Numbering α) : Finset α :=
  g.nodes.toFinset.filter fun u => s.getNum u = .unknown

theorem card_unknowns_le (h : ∀ u, s.getNum u ≠ .unknown → s'.getNum u ≠ .unknown) :
    (unknowns g s').card ≤ (unknowns g s).card := by
  refine Finset.card_le_card fun u hu => ?_
  rw [unknowns, Finset.mem_filter] at hu ⊢
  exact ⟨hu.1, by_contra fun hne => h u hne hu.2⟩

theorem card_unknowns_visit_lt (hv : s.getNum v = .unknown) (hmem : v ∈ g.nodes) :
    (unknowns g (s.setNum v .visiting)).card < (unknowns g s).card := by
  refine Finset.card_lt_card ⟨fun u hu => ?_, fun hsub => ?_⟩
  · rw [unknowns, Finset.mem_filter] at hu ⊢
    have huv : u ≠ v := by
      rintro rfl
      rw [Numbering.getNum_setNum_self] at hu
      exact absurd hu.2 nofun
    rw [Numbering.getNum_setNum_of_ne huv] at hu
    exact hu
  · have hin : v ∈ unknowns g s := Finset.mem_filter.2 ⟨List.mem_toFinset.2 hmem, hv⟩
    have hout := (Finset.mem_filter.1 (hsub hin)).2
    rw [Numbering.getNum_setNum_self] at hout
    cases hout

/-- A search from a node numbers it last. -/
structure SearchedFrom (g : DirectedGraph α) (v : α) (n : ℕ) (s : Numbering α) (n' : ℕ)
    (s' : Numbering α) : Prop where
  numbered : Numbered g (n' + 1) s'
  last : s'.getNum v = .num n'
  le : n ≤ n'
  keep : ∀ u, s.getNum u ≠ .unknown → s'.getNum u = s.getNum u
  new : ∀ u, u ≠ v → s.getNum u = .unknown → s'.getNum u = .unknown ∨
    ∃ k, s'.getNum u = .num k ∧ g.Reach v u ∧
      ∃ p, u ∈ g.succ p ∧ ∃ k', s'.getNum p = .num k' ∧ k < k'

omit [DecidableEq α] in
/-- A search from a successor is part of the search below a node. -/
theorem SearchedFrom.searched (h : SearchedFrom g w n s n' s') (hw : w ∈ g.succ v) :
    Searched g v n s (n' + 1) s' where
  le := h.le.trans (Nat.le_succ n')
  keep := h.keep
  new u hu := by
    by_cases huw : u = w
    · subst huw
      exact .inr ⟨n', h.last, Relation.ReflTransGen.single hw, v, hw, .inl rfl⟩
    · rcases h.new u huw hu with hunknown | ⟨k, hk, hreach, p, hp, hlarger⟩
      · exact .inl hunknown
      · exact .inr ⟨k, hk, hreach.head hw, p, hp, .inr hlarger⟩

/-- The loop over successors. -/
theorem foldlM_searches {fuel : ℕ} {ws : List α} (hws : ∀ w ∈ ws, w ∈ g.succ v)
    (hdfs : ∀ n s w, Numbered g n s → w ∈ g.succ v → s.getNum w = .unknown →
      (unknowns g s).card < fuel →
      ∃ n' s', dfs g fuel n w s = some (n' + 1, s') ∧ SearchedFrom g w n s n' s')
    (hs : Numbered g n s) (hcard : (unknowns g s).card < fuel) :
    ∃ n' s', ws.foldlM
        (fun (n, s) w => if s.getNum w = .unknown then dfs g fuel n w s else some (n, s)) (n, s) =
          some (n', s') ∧
      Searched g v n s n' s' ∧ Numbered g n' s' ∧ ∀ w ∈ ws, s'.getNum w ≠ .unknown := by
  induction ws generalizing n s with
  | nil => exact ⟨n, s, rfl, .refl g v n s, hs, by simp⟩
  | cons w ws ih =>
    rw [List.forall_mem_cons] at hws
    rw [List.foldlM_cons]
    by_cases hw : s.getNum w = .unknown
    · obtain ⟨n₁, s₁, heq, hfrom⟩ := hdfs n s w hs hws.1 hw hcard
      have hsearched := hfrom.searched hws.1
      have hle := card_unknowns_le (g := g) fun u hu => (hsearched.keep u hu).symm ▸ hu
      obtain ⟨n', s', hfold, hrest, hnum, hknown⟩ := ih hws.2 hfrom.numbered (hle.trans_lt hcard)
      refine ⟨n', s', ?_, hsearched.trans hrest, hnum, List.forall_mem_cons.2 ⟨?_, hknown⟩⟩
      · simp only [hw, if_true, heq]
        exact hfold
      · have hlast : s₁.getNum w ≠ .unknown := by
          rw [hfrom.last]
          exact nofun
        rwa [hrest.keep w hlast]
    · obtain ⟨n', s', hfold, hrest, hnum, hknown⟩ := ih hws.2 hs hcard
      refine ⟨n', s', ?_, hrest, hnum, List.forall_mem_cons.2 ⟨?_, hknown⟩⟩
      · simp only [hw, if_false]
        exact hfold
      · rwa [hrest.keep w hw]

/-- A search returns with more fuel than there are unknown nodes. -/
theorem dfs_searches (fuel : ℕ) (hv : s.getNum v = .unknown) (hmem : v ∈ g.nodes)
    (hs : Numbered g n s) (hcard : (unknowns g s).card < fuel) :
    ∃ n' s', dfs g fuel n v s = some (n' + 1, s') ∧ SearchedFrom g v n s n' s' := by
  induction fuel generalizing n v s with
  | zero => exact absurd hcard (Nat.not_lt_zero _)
  | succ fuel ih =>
    have hlt := card_unknowns_visit_lt hv hmem
    obtain ⟨n', s', hfold, hbelow, hnum, hknown⟩ := foldlM_searches (v := v)
      (fun _ hw => hw)
      (fun n s w hs hw hunknown hcard => ih hunknown (g.mem_of_succ v w hw).2 hs hcard)
      (hs.visit hv) (by omega)
    have hvisiting : s'.getNum v = .visiting := by
      have hself : (s.setNum v .visiting).getNum v = .visiting := Numbering.getNum_setNum_self
      rw [hbelow.keep v (by rw [hself]; exact nofun), hself]
    have hget {u : α} (hu : u ≠ v) : ((s'.setNum v (.num n')).setNode n' v).getNum u = s'.getNum u := by
      rw [Numbering.getNum_setNode, Numbering.getNum_setNum_of_ne hu]
    have hself : ((s'.setNum v (.num n')).setNode n' v).getNum v = .num n' := by
      rw [Numbering.getNum_setNode, Numbering.getNum_setNum_self]
    refine ⟨n', (s'.setNum v (.num n')).setNode n' v, ?_, hnum.leave hvisiting hmem hknown, hself,
      hbelow.le, fun u hu => ?_, fun u huv hu => ?_⟩
    · rw [dfs, hfold]
      exact if_pos (hnum.lt_length hvisiting hmem)
    · have huv : u ≠ v := by
        rintro rfl
        exact hu hv
      rw [hget huv, hbelow.keep u (by rwa [Numbering.getNum_setNum_of_ne huv]),
        Numbering.getNum_setNum_of_ne huv]
    · rw [hget huv]
      refine (hbelow.new u (by rwa [Numbering.getNum_setNum_of_ne huv])).imp id ?_
      rintro ⟨k, hk, hreach, p, hp, hlarger⟩
      refine ⟨k, hk, hreach, p, hp, ?_⟩
      by_cases hpv : p = v
      · exact ⟨n', by rw [hpv, hself], (hnum.lt u k hk).1⟩
      · obtain ⟨k', hk', hlt⟩ := hlarger.resolve_left hpv
        exact ⟨k', by rw [hget hpv, hk'], hlt⟩

/-- More fuel does not change what a search returns. -/
theorem dfs_mono {fuel fuel' : ℕ} (hle : fuel ≤ fuel') (h : dfs g fuel n v s = some (n', s')) :
    dfs g fuel' n v s = some (n', s') := by
  induction fuel generalizing fuel' n v s n' s' with
  | zero => exact absurd h nofun
  | succ fuel ih =>
    obtain ⟨fuel', rfl⟩ := Nat.exists_eq_add_of_lt hle
    rw [dfs, Option.bind_eq_bind, Option.bind_eq_some_iff] at h ⊢
    obtain ⟨⟨n₁, s₁⟩, hfold, h⟩ := h
    refine ⟨(n₁, s₁), foldlM_mono (fun w _ st st' hst => ?_) hfold, h⟩
    obtain ⟨n₂, s₂⟩ := st
    dsimp only at hst ⊢
    split_ifs at hst ⊢ with hw
    · exact ih (by omega) hst
    · exact hst

end Search

/-! ### The numbers -/

/-- The nodes that the root reaches have the numbers up to its own. -/
structure Numbers (g : DirectedGraph α) (root : α) (r : ℕ) (s : Numbering α) : Prop where
  of_num : ∀ u k, s.getNum u = .num k → k ≤ r ∧ s.node k = u
  num : ∀ k ≤ r, s.getNum (s.node k) = .num k
  reach : ∀ u, (∃ k, s.getNum u = .num k) ↔ g.Reach root u
  last : s.node r = root
  pred : ∀ k < r, ∃ j ≤ r, k < j ∧ s.node k ∈ g.succ (s.node j)

/-- `dfs (0, root)` -/
theorem dfs_numbers (g : DirectedGraph α) {root : α} (hroot : root ∈ g.nodes) : ∃ r s,
    (∀ fuel, g.nodes.length < fuel →
      dfs g fuel 0 root ⟨fun _ => .unknown, fun _ => root⟩ = some (r + 1, s)) ∧
      Numbers g root r s := by
  have hcard : (unknowns g (⟨fun _ => .unknown, fun _ => root⟩ : Numbering α)).card <
      g.nodes.length + 1 :=
    Nat.lt_succ_of_le ((Finset.card_filter_le _ _).trans (List.toFinset_card_le _))
  obtain ⟨r, s, heq, hfrom⟩ := dfs_searches (g := g) (s := ⟨fun _ => .unknown, fun _ => root⟩)
    (n := 0) (g.nodes.length + 1) (v := root) rfl hroot ⟨nofun, nofun, nofun, nofun⟩ hcard
  have hnum {u : α} (hu : s.getNum u ≠ .unknown) :
      ∃ k, s.getNum u = .num k ∧ g.Reach root u ∧ (u = root ∨ ∃ p, u ∈ g.succ p ∧
        ∃ k', s.getNum p = .num k' ∧ k < k') := by
    by_cases hur : u = root
    · exact ⟨r, hur ▸ hfrom.last, hur ▸ .refl, .inl hur⟩
    · obtain ⟨k, hk, hreach, hp⟩ := (hfrom.new u hur rfl).resolve_left hu
      exact ⟨k, hk, hreach, .inr hp⟩
  refine ⟨r, s, fun fuel hfuel => dfs_mono hfuel heq, fun u k hk => ?_, fun k hk => hfrom.numbered.num k (by omega),
    fun u => ⟨fun hk => ?_, fun hreach => ?_⟩, (hfrom.numbered.lt root r hfrom.last).2,
    fun k hk => ?_⟩
  · obtain ⟨hlt, hnode⟩ := hfrom.numbered.lt u k hk
    exact ⟨by omega, hnode⟩
  · obtain ⟨k, hk⟩ := hk
    obtain ⟨-, -, hreach, -⟩ := hnum (u := u) (by rw [hk]; exact nofun)
    exact hreach
  · induction hreach with
    | refl => exact ⟨r, hfrom.last⟩
    | @tail a b hab hb ih =>
      obtain ⟨k, hk⟩ := ih
      obtain ⟨k', hk', -⟩ := hnum (hfrom.numbered.closed a k hk b hb)
      exact ⟨k', hk'⟩
  · have hk' := hfrom.numbered.num k (by omega)
    obtain ⟨k₁, hk₁, -, hpred⟩ := hnum (u := s.node k) (by rw [hk']; exact nofun)
    rw [hk'] at hk₁
    cases hk₁
    rcases hpred with hroot | ⟨p, hp, j, hj, hlt⟩
    · rw [hroot, hfrom.last] at hk'
      cases hk'
      omega
    · obtain ⟨hle, rfl⟩ := hfrom.numbered.lt p j hj
      exact ⟨j, by omega, hlt, hp⟩

/-! ### The predecessors -/

/-- The edges between numbers. -/
def NumEdge (g : DirectedGraph α) (s : Numbering α) (r j t : ℕ) : Prop :=
  j ≤ r ∧ ∃ w ∈ g.succ (s.node j), s.getNum w = .num t

/-- The predecessors of every number, the largest one first. -/
structure Predecessors (edge : ℕ → ℕ → Prop) (n : ℕ) (preds : ℕ → List ℕ) : Prop where
  mem : ∀ t j, j ∈ preds t ↔ j < n ∧ edge j t
  sorted : ∀ t, (preds t).Pairwise (· ≥ ·)

omit [DecidableEq α] in
/-- The edges from one node. -/
theorem addPreds_eq {s : Numbering α} {i : ℕ} {ws : List α}
    (hws : ∀ w ∈ ws, ∃ t, s.getNum w = .num t) {preds : ℕ → List ℕ}
    (hle : ∀ t, ∀ j ∈ preds t, j ≤ i) (hsorted : ∀ t, (preds t).Pairwise (· ≥ ·)) : ∃ preds',
    addPreds s i preds ws = some preds' ∧
      (∀ t j, j ∈ preds' t ↔ j ∈ preds t ∨ (j = i ∧ ∃ w ∈ ws, s.getNum w = .num t)) ∧
      ∀ t, (preds' t).Pairwise (· ≥ ·) := by
  induction ws generalizing preds with
  | nil => exact ⟨preds, rfl, by simp, hsorted⟩
  | cons w ws ih =>
    rw [List.forall_mem_cons] at hws
    obtain ⟨t₀, ht₀⟩ := hws.1
    have hmem (t j : ℕ) : j ∈ addPred preds t₀ i t ↔ j ∈ preds t ∨ (j = i ∧ t = t₀) := by
      by_cases ht : t = t₀
      · subst ht
        rw [addPred, Function.update_self, List.mem_cons]
        tauto
      · rw [addPred, Function.update_of_ne ht]
        tauto
    obtain ⟨preds', heq, hmem', hsorted'⟩ := ih hws.2
      (fun t j hj => by
        rcases (hmem t j).1 hj with hj | ⟨rfl, -⟩
        · exact hle t j hj
        · exact le_rfl)
      (fun t => by
        by_cases ht : t = t₀
        · subst ht
          rw [addPred, Function.update_self]
          exact List.pairwise_cons.2 ⟨fun j hj => hle t j hj, hsorted t⟩
        · rw [addPred, Function.update_of_ne ht]
          exact hsorted t)
    refine ⟨preds', ?_, fun t j => ?_, hsorted'⟩
    · rw [addPreds, List.foldlM_cons, ht₀]
      exact heq
    · rw [hmem', hmem]
      simp only [List.exists_mem_cons_iff, ht₀, Num.num.injEq, eq_comm (a := t₀)]
      tauto

omit [DecidableEq α] in
theorem predecessors_eq {root : α} {r : ℕ} {s : Numbering α} (h : Numbers g root r s) :
    ∃ preds, predecessors g s (r + 1) = some preds ∧
      Predecessors (NumEdge g s r) (r + 1) preds := by
  suffices hn : ∀ n ≤ r + 1, ∃ preds, predecessors g s n = some preds ∧
      Predecessors (NumEdge g s r) n preds from hn (r + 1) le_rfl
  intro n hn
  induction n with
  | zero => exact ⟨fun _ => [], rfl, by simp, by simp⟩
  | succ n ih =>
    obtain ⟨preds, heq, hpreds⟩ := ih (by omega)
    have hws : ∀ w ∈ g.succ (s.node n), ∃ t, s.getNum w = .num t := by
      intro w hw
      have hreach := (h.reach (s.node n)).1 ⟨n, h.num n (by omega)⟩
      exact (h.reach w).2 (hreach.tail hw)
    obtain ⟨preds', heq', hmem', hsorted'⟩ := addPreds_eq hws
      (fun t j hj => ((hpreds.mem t j).1 hj).1.le) hpreds.sorted
    refine ⟨preds', ?_, fun t j => ?_, hsorted'⟩
    · rw [predecessors] at heq ⊢
      rw [List.range_succ, List.foldlM_append, heq]
      simp [heq']
    · rw [hmem', hpreds.mem]
      constructor
      · rintro (⟨hj, hedge⟩ | ⟨rfl, w, hw, ht⟩)
        · exact ⟨by omega, hedge⟩
        · exact ⟨by omega, by omega, w, hw, ht⟩
      · rintro ⟨hj, hjr, w, hw, ht⟩
        by_cases hjn : j = n
        · subst hjn
          exact .inr ⟨rfl, w, hw, ht⟩
        · exact .inl ⟨by omega, hjr, w, hw, ht⟩

end MultiMLton.Basic.Dominators
