import Mathlib.Data.Finset.Card
import Mathlib.Logic.Relation
import MultiMLton.Lib.Folds

/-!
# Loop forests

Steensgaard's loop nesting forest of a directed graph. The strongly connected components are the
outermost loops, and the headers of a loop are its nodes that edges from other components lead to;
the loops inside are those of the component without the edges into its headers.

* `Components`: what a list of strongly connected components is;
* `treeFor_total`: the recursion ends where every node is reachable from an entry;
* `acyclic_of_treeFor`: every cycle passes through a header.
-/

namespace MultiMLton.Lib

open Relation List Option

/-- A directed graph. An edge may be there more than once. -/
structure DirectedGraph (α : Type) where
  nodes : List α
  succ : α → List α
  mem_of_succ : ∀ a b, b ∈ succ a → a ∈ nodes ∧ b ∈ nodes

/-- A loop forest: loops with their headers and the forests of what is inside, and nodes outside of
these loops. -/
inductive LoopForest (α : Type)
  | T (loops : List (List α × LoopForest α)) (notInLoop : List α)

namespace LoopForest

variable {α : Type}

/-- `LoopForest.single` -/
def single (a : α) : LoopForest α := T [] [a]

/-- A header of one of the loops. -/
inductive HasHeader : LoopForest α → α → Prop
  | outer {loops notInLoop headers child a} (hmem : (headers, child) ∈ loops) (ha : a ∈ headers) :
    HasHeader (T loops notInLoop) a
  | inner {loops notInLoop headers child a} (hmem : (headers, child) ∈ loops)
    (ha : HasHeader child a) : HasHeader (T loops notInLoop) a

end LoopForest

namespace DirectedGraph

variable {α : Type} (g : DirectedGraph α)

/-- There is an edge from `a` to `b`. -/
def Edge (a b : α) : Prop := b ∈ g.succ a

def Reach : α → α → Prop := ReflTransGen g.Edge

/-- `stronglyConnectedComponents`, as a property of the list it returns. -/
structure Components (cs : List (List α)) : Prop where
  ne_nil : ∀ c ∈ cs, c ≠ []
  nodup : ∀ c ∈ cs, c.Nodup
  mem_flatten : ∀ a, a ∈ cs.flatten ↔ a ∈ g.nodes
  same : ∀ c ∈ cs, ∀ a ∈ c, ∀ b, b ∈ c ↔ g.Reach a b ∧ g.Reach b a

/-! ### The forest of a graph -/

variable [DecidableEq α]

/-- The component of a node, as a position in the list. -/
def classOf (cs : List (List α)) (a : α) : ℕ := cs.findIdx (a ∈ ·)

/-- The nodes that edges from other components lead to. -/
def isHeader (cs : List (List α)) (marked : α → Bool) (b : α) : Bool :=
  marked b || g.nodes.any fun a => decide (b ∈ g.succ a) && decide (classOf cs a ≠ classOf cs b)

/-- The subgraph of the component `ns`, without the edges that go into headers. -/
def subgraph (header : α → Bool) (ns : List α) : DirectedGraph α where
  nodes := ns
  succ a := if a ∈ ns then (g.succ a).filter fun b => decide (b ∈ ns) && !header b else []
  mem_of_succ := by
    intro a b hb
    split_ifs at hb with ha
    · simp only [List.mem_filter, Bool.and_eq_true, decide_eq_true_eq] at hb
      exact ⟨ha, hb.2.1⟩
    · exact absurd hb List.not_mem_nil

/-- What `treeFor` does with one component, where `rec` makes the forest of a subgraph. -/
def visit (header : α → Bool) (rec : DirectedGraph α → Option (LoopForest α))
    (acc : List (List α × LoopForest α) × List α) (ns : List α) :
    Option (List (List α × LoopForest α) × List α) :=
  match ns with
  | [n] =>
    if n ∈ g.succ n then some (([n], .single n) :: acc.1, acc.2) else some (acc.1, n :: acc.2)
  | ns => do
    let child ← rec (g.subgraph header ns)
    some (((ns.filter header).reverse, child) :: acc.1, acc.2)

/-- `treeFor` of `loopForestSteensgaard`, with a bound on the depth of the recursion; `marked` are the
headers known before. -/
def treeFor (sccs : DirectedGraph α → List (List α)) :
    ℕ → (α → Bool) → DirectedGraph α → Option (LoopForest α)
  | 0, _, _ => none
  | fuel + 1, marked, g => do
    let cs := sccs g
    let (loops, notInLoop) ← cs.foldlM
      (g.visit (g.isHeader cs marked) (treeFor sccs fuel fun _ => false)) ([], [])
    some (.T loops notInLoop)

/-! ### Components -/

variable {g} {cs : List (List α)}

variable {c : List α}

section

variable (h : g.Components cs)

include h

omit [DecidableEq α] in
theorem Components.mem_nodes (hc : c ∈ cs) {a : α} (ha : a ∈ c) : a ∈ g.nodes :=
  (h.mem_flatten a).1 (List.mem_flatten.2 ⟨c, hc, ha⟩)

omit [DecidableEq α] in
theorem Components.exists_mem {a : α} (ha : a ∈ g.nodes) : ∃ c ∈ cs, a ∈ c :=
  List.mem_flatten.1 ((h.mem_flatten a).2 ha)

omit [DecidableEq α] in
/-- A walk between two nodes of a component stays inside. -/
theorem Components.mem_of_reach (hc : c ∈ cs) {a b x : α}
    (ha : a ∈ c) (hb : b ∈ c) (hax : g.Reach a x) (hxb : g.Reach x b) : x ∈ c :=
  (h.same c hc a ha x).2 ⟨hax, hxb.trans ((h.same c hc b hb a).1 ha).1⟩

theorem Components.classOf_eq_iff (hc : c ∈ cs) {a b : α}
    (ha : a ∈ c) (hb : b ∈ g.nodes) : classOf cs a = classOf cs b ↔ b ∈ c := by
  constructor
  · intro heq
    obtain ⟨d, hd, hbd⟩ := h.exists_mem hb
    have hlt : classOf cs b < cs.length :=
      findIdx_lt_length_of_exists ⟨d, hd, by simpa using hbd⟩
    have hb' : b ∈ cs[classOf cs b] :=
      of_decide_eq_true (findIdx_getElem (p := fun d => decide (b ∈ d)) (w := hlt))
    have ha' : a ∈ cs[classOf cs b] := by
      have hlt' : classOf cs a < cs.length := heq ▸ hlt
      have hmem : a ∈ cs[classOf cs a] :=
        of_decide_eq_true (findIdx_getElem (p := fun d => decide (a ∈ d)) (w := hlt'))
      simpa only [heq] using hmem
    exact (h.same c hc a ha b).2 ((h.same _ (getElem_mem hlt) a ha' b).1 hb')
  · intro hbc
    have hiff : ∀ d ∈ cs, a ∈ d ↔ b ∈ d := by
      intro d hd
      have hab := (h.same c hc a ha b).1 hbc
      exact ⟨fun had => (h.same d hd a had b).2 hab,
        fun hbd => (h.same d hd b hbd a).2 hab.symm⟩
    apply le_antisymm <;> apply findIdx_le_findIdx
    · intro d hd hbd
      simpa using (hiff d hd).2 (by simpa using hbd)
    · intro d hd had
      simpa using (hiff d hd).1 (by simpa using had)

variable {marked : α → Bool}

/-- An edge into a component from outside leads to a header. -/
theorem Components.isHeader_of_edge
    (hc : c ∈ cs) {a b : α} (hedge : g.Edge a b) (ha : a ∉ c) (hb : b ∈ c) :
    g.isHeader cs marked b = true := by
  have hnodes := g.mem_of_succ a b hedge
  have hne : classOf cs a ≠ classOf cs b := fun heq =>
    ha ((h.classOf_eq_iff hc hb hnodes.1).1 heq.symm)
  simp only [isHeader, Bool.or_eq_true, List.any_eq_true, Bool.and_eq_true, decide_eq_true_eq]
  exact .inr ⟨a, hnodes.1, hedge, hne⟩

omit [DecidableEq α] in
/-- In a component of two nodes, edges of the component lead to each. -/
theorem Components.exists_pred (hc : c ∈ cs) {a b : α}
    (ha : a ∈ c) (hb : b ∈ c) (hne : a ≠ b) : ∃ x ∈ c, g.Edge x a := by
  have hab := (h.same c hc a ha b).1 hb
  rcases ReflTransGen.cases_tail hab.2 with heq | ⟨x, hbx, hxa⟩
  · exact absurd heq hne
  · exact ⟨x, h.mem_of_reach hc hb ha hbx (.single hxa), hxa⟩

omit [DecidableEq α] in
theorem Components.exists_ne (hc : c ∈ cs) {a : α} (ha : a ∈ c)
    (hsingle : ∀ n, c ≠ [n]) : ∃ b ∈ c, a ≠ b := by
  by_contra hall
  push Not at hall
  have hsub : c ⊆ [a] := fun b hb => mem_singleton.2 (hall b hb).symm
  have hperm : c.Perm [a] :=
    (perm_ext_iff_of_nodup (h.nodup c hc) (nodup_singleton a)).2 fun b =>
      ⟨fun hb => hsub hb, fun hb => mem_singleton.1 hb ▸ ha⟩
  exact hsingle a (perm_singleton.1 hperm)

end

/-! ### The recursion ends -/

/-- Every node is reachable from one that is marked, or that no edge leads to. -/
def Entered (g : DirectedGraph α) (marked : α → Bool) : Prop :=
  ∀ a ∈ g.nodes, ∃ e ∈ g.nodes, (marked e = true ∨ ∀ x, ¬ g.Edge x e) ∧ g.Reach e a

omit [DecidableEq α] in
/-- A walk that ends in a set it does not begin in has an edge into it. -/
theorem exists_edge_into {R : α → α → Prop} {P : α → Prop} {a b : α} (h : ReflTransGen R a b)
    (ha : ¬ P a) (hb : P b) : ∃ x y, R x y ∧ ¬ P x ∧ P y := by
  induction h with
  | refl => exact absurd hb ha
  | @tail x y hax hxy ih =>
    by_cases hx : P x
    · exact ih hx
    · exact ⟨x, y, hxy, hx, hb⟩

theorem Components.exists_header (h : g.Components cs)
    (hent : g.Entered marked) (hc : c ∈ cs) (hsingle : ∀ n, c ≠ [n]) :
    ∃ a ∈ c, g.isHeader cs marked a = true := by
  obtain ⟨a, ha⟩ := exists_mem_of_ne_nil c (h.ne_nil c hc)
  obtain ⟨e, -, hentry, hreach⟩ := hent a (h.mem_nodes hc ha)
  by_cases he : e ∈ c
  · rcases hentry with hmark | hnone
    · exact ⟨e, he, by simp [isHeader, hmark]⟩
    · obtain ⟨b, hb, hne⟩ := h.exists_ne hc he hsingle
      obtain ⟨x, -, hx⟩ := h.exists_pred hc he hb hne
      exact absurd hx (hnone x)
  · obtain ⟨x, y, hedge, hx, hy⟩ := exists_edge_into (P := (· ∈ c)) hreach he ha
    exact ⟨y, hy, h.isHeader_of_edge hc hedge hx hy⟩

variable {header : α → Bool}

theorem edge_subgraph {ns : List α} {a b : α} :
    (g.subgraph header ns).Edge a b ↔ a ∈ ns ∧ b ∈ ns ∧ g.Edge a b ∧ header b = false := by
  by_cases ha : a ∈ ns <;> simp [Edge, subgraph, ha, and_left_comm]

/-- What is inside of a component is entered through its headers. -/
theorem Components.entered_subgraph (h : g.Components cs)
    (hc : c ∈ cs) (hheader : ∃ a ∈ c, header a = true) :
    (g.subgraph header c).Entered fun _ => false := by
  obtain ⟨a, ha, hah⟩ := hheader
  have hentry (e : α) (he : header e = true) (x : α) : ¬ (g.subgraph header c).Edge x e := by
    rw [edge_subgraph]
    rintro ⟨-, -, -, hfalse⟩
    simp [he] at hfalse
  have hall (b : α) (hab : g.Reach a b) : b ∈ c →
      ∃ e ∈ c, header e = true ∧ (g.subgraph header c).Reach e b := by
    induction hab with
    | refl => exact fun _ => ⟨a, ha, hah, .refl⟩
    | @tail x y hax hxy ih =>
      intro hy
      by_cases hyh : header y = true
      · exact ⟨y, hy, hyh, .refl⟩
      have hx : x ∈ c := h.mem_of_reach hc ha hy hax (.single hxy)
      obtain ⟨e, he, heh, hreach⟩ := ih hx
      exact ⟨e, he, heh, hreach.tail (edge_subgraph.2 ⟨hx, hy, hxy, by simpa using hyh⟩)⟩
  intro b hb
  obtain ⟨e, he, heh, hreach⟩ := hall b ((h.same c hc a ha b).1 hb).1 hb
  exact ⟨e, he, .inr (hentry e heh), hreach⟩

/-- The nodes that edges lead to. -/
def targets (g : DirectedGraph α) : Finset α :=
  g.nodes.toFinset.filter fun b => ∃ a ∈ g.nodes, b ∈ g.succ a

theorem targets_card_le : g.targets.card ≤ g.nodes.length :=
  (Finset.card_filter_le _ _).trans (toFinset_card_le _)

theorem mem_targets {b : α} : b ∈ g.targets ↔ ∃ a, g.Edge a b := by
  simp only [targets, Finset.mem_filter, List.mem_toFinset]
  constructor
  · rintro ⟨-, a, -, hab⟩
    exact ⟨a, hab⟩
  · rintro ⟨a, hab⟩
    exact ⟨(g.mem_of_succ a b hab).2, a, (g.mem_of_succ a b hab).1, hab⟩

theorem Components.targets_subgraph (h : g.Components cs)
    (hc : c ∈ cs) (hsingle : ∀ n, c ≠ [n]) (hheader : ∃ a ∈ c, header a = true) :
    (g.subgraph header c).targets ⊂ g.targets := by
  have hsub : (g.subgraph header c).targets ⊆ g.targets := by
    intro b hb
    obtain ⟨a, hab⟩ := mem_targets.1 hb
    exact mem_targets.2 ⟨a, (edge_subgraph.1 hab).2.2.1⟩
  obtain ⟨a, ha, hah⟩ := hheader
  obtain ⟨b, hb, hne⟩ := h.exists_ne hc ha hsingle
  obtain ⟨x, -, hx⟩ := h.exists_pred hc ha hb hne
  refine Finset.ssubset_iff_subset_ne.2 ⟨hsub, fun heq => ?_⟩
  have hmem : a ∈ (g.subgraph header c).targets := heq ▸ mem_targets.2 ⟨x, hx⟩
  obtain ⟨y, hy⟩ := mem_targets.1 hmem
  exact absurd (edge_subgraph.1 hy).2.2.2 (by simp [hah])

variable {sccs : DirectedGraph α → List (List α)}

/-- The recursion ends where every node is reachable from an entry. -/
theorem treeFor_total (hsccs : ∀ g : DirectedGraph α, g.Components (sccs g)) (fuel : ℕ)
    (marked : α → Bool) (g : DirectedGraph α) (hent : g.Entered marked)
    (hfuel : g.targets.card < fuel) : ∃ f, treeFor sccs fuel marked g = some f := by
  induction fuel generalizing marked g with
  | zero => omega
  | succ fuel ih =>
    have hg := hsccs g
    have hvisit : ∀ c ∈ sccs g, ∀ acc, True → ∃ acc',
        g.visit (g.isHeader (sccs g) marked) (treeFor sccs fuel fun _ => false) acc c = some acc' ∧
          True := by
      intro c hc acc _
      unfold visit
      split
      · split <;> exact ⟨_, rfl, trivial⟩
      · next hsingle =>
        have hheader := hg.exists_header hent hc hsingle
        obtain ⟨child, hchild⟩ := ih (fun _ => false) (g.subgraph _ c)
          (hg.entered_subgraph hc hheader)
          (by have := Finset.card_lt_card (hg.targets_subgraph hc hsingle hheader); omega)
        exact ⟨_, by rw [hchild]; rfl, trivial⟩
    obtain ⟨acc, hacc, -⟩ := foldlM_total (fun _ => True) hvisit (s := ([], [])) trivial
    exact ⟨.T acc.1 acc.2, by simp only [treeFor, hacc]; rfl⟩

/-! ### What the forest holds -/

/-- What the fold over components has for the component `c`. -/
inductive Visited (g : DirectedGraph α) (header : α → Bool)
    (rec : DirectedGraph α → Option (LoopForest α)) (c : List α)
    (acc : List (List α × LoopForest α) × List α) : Prop
  | node (n : α) (hc : c = [n]) (hn : n ∉ g.succ n) (hmem : n ∈ acc.2)
  | selfLoop (n : α) (hc : c = [n]) (hmem : ([n], .single n) ∈ acc.1)
  | loop (child : LoopForest α) (hchild : rec (g.subgraph header c) = some child)
    (hmem : ((c.filter header).reverse, child) ∈ acc.1)

theorem Visited.mono {rec : DirectedGraph α → Option (LoopForest α)}
    {acc acc' : List (List α × LoopForest α) × List α}
    (h : g.Visited header rec c acc) (h1 : acc.1 ⊆ acc'.1) (h2 : acc.2 ⊆ acc'.2) :
    g.Visited header rec c acc' := by
  cases h with
  | node n hc hn hmem => exact .node n hc hn (h2 hmem)
  | selfLoop n hc hmem => exact .selfLoop n hc (h1 hmem)
  | loop child hchild hmem => exact .loop child hchild (h1 hmem)

theorem visit_spec {rec : DirectedGraph α → Option (LoopForest α)}
    {acc acc' : List (List α × LoopForest α) × List α} (h : g.visit header rec acc c = some acc') :
    g.Visited header rec c acc' ∧ acc.1 ⊆ acc'.1 ∧ acc.2 ⊆ acc'.2 := by
  unfold visit at h
  split at h
  · next n =>
    split_ifs at h with hn
    · cases h
      exact ⟨.selfLoop n rfl mem_cons_self, subset_cons_self _ _, List.Subset.refl _⟩
    · cases h
      exact ⟨.node n rfl hn mem_cons_self, List.Subset.refl _, subset_cons_self _ _⟩
  · rw [bind_eq_bind, bind_eq_some_iff] at h
    obtain ⟨child, hchild, h⟩ := h
    cases h
    exact ⟨.loop child hchild mem_cons_self, subset_cons_self _ _, List.Subset.refl _⟩

theorem treeFor_visited {fuel : ℕ} {f : LoopForest α}
    (h : treeFor sccs (fuel + 1) marked g = some f) : ∃ acc, f = .T acc.1 acc.2 ∧
      ∀ c ∈ sccs g,
        g.Visited (g.isHeader (sccs g) marked) (treeFor sccs fuel fun _ => false) c acc := by
  simp only [treeFor, bind_eq_bind, bind_eq_some_iff] at h
  obtain ⟨acc, hacc, h⟩ := h
  cases h
  refine ⟨acc, rfl, foldlM_establishes _ (fun c _ s s' hs => (visit_spec hs).1) ?_ hacc⟩
  intro c d _ s s' hc hd
  obtain ⟨-, h1, h2⟩ := visit_spec hd
  exact hc.mono h1 h2

omit [DecidableEq α] in
/-- A closed walk stays in the component of its first node. -/
theorem Components.transGen_inside (h : g.Components cs) {R : α → α → Prop}
    (hR : ∀ x y, R x y → g.Edge x y) (hc : c ∈ cs) {a : α} (ha : a ∈ c) {b : α}
    (hab : TransGen R a b) (hba : g.Reach b a) :
    TransGen (fun x y => R x y ∧ x ∈ c ∧ y ∈ c) a b := by
  have hreach {x y : α} (hxy : TransGen R x y) : g.Reach x y := (TransGen.mono hR x y hxy).to_reflTransGen
  induction hab with
  | single hab => exact .single ⟨hab, ha, (h.same c hc a ha _).2 ⟨.single (hR _ _ hab), hba⟩⟩
  | @tail x y hax hxy ih =>
    have hxa : g.Reach x a := .head (hR x y hxy) hba
    have hx : x ∈ c := (h.same c hc a ha x).2 ⟨hreach hax, hxa⟩
    have hy : y ∈ c := (h.same c hc a ha y).2 ⟨(hreach hax).tail (hR x y hxy), hba⟩
    exact (ih hxa).tail ⟨hxy, hx, hy⟩

/-- Every cycle passes through a header. -/
theorem acyclic_of_treeFor (hsccs : ∀ g : DirectedGraph α, g.Components (sccs g)) {fuel : ℕ}
    {f : LoopForest α} (h : treeFor sccs fuel marked g = some f) (a : α) :
    ¬ TransGen (fun x y => g.Edge x y ∧ ¬ f.HasHeader y) a a := by
  induction fuel generalizing marked g f with
  | zero => cases h
  | succ fuel ih =>
    intro hcycle
    obtain ⟨acc, rfl, hall⟩ := treeFor_visited h
    have ha : a ∈ g.nodes := by
      obtain ⟨b, hab, -⟩ := TransGen.head'_iff.1 hcycle
      exact (g.mem_of_succ a b hab.1).1
    obtain ⟨c, hc, hac⟩ := (hsccs g).exists_mem ha
    have hinside := (hsccs g).transGen_inside (fun x y hxy => hxy.1) hc hac hcycle .refl
    obtain ⟨b, ⟨⟨hab, hbh⟩, -, hbc⟩, -⟩ := TransGen.head'_iff.1 hinside
    cases hall c hc with
    | node n hcn hn _ =>
      obtain rfl : a = n := by simpa [hcn] using hac
      obtain rfl : b = a := by simpa [hcn] using hbc
      exact hn hab
    | selfLoop n hcn hmem =>
      obtain rfl : b = n := by simpa [hcn] using hbc
      exact hbh (.outer hmem mem_cons_self)
    | loop child hchild hmem =>
      refine ih hchild (TransGen.mono ?_ a a hinside)
      rintro x y ⟨⟨hxy, hyh⟩, hx, hy⟩
      refine ⟨edge_subgraph.2 ⟨hx, hy, hxy, ?_⟩, fun hchildy => hyh (.inner hmem hchildy)⟩
      by_contra htrue
      refine hyh (.outer hmem ?_)
      simpa using ⟨hy, by simpa using htrue⟩

/-! ### Components of any graph -/

omit [DecidableEq α] in
theorem mem_nodes_of_reach {a b : α} (ha : a ∈ g.nodes) (hab : g.Reach a b) : b ∈ g.nodes := by
  rcases ReflTransGen.cases_tail hab with rfl | ⟨x, -, hxb⟩
  · exact ha
  · exact (g.mem_of_succ x b hxb).2

end DirectedGraph

end MultiMLton.Lib
