import Mathlib.Data.List.Cycle
import MultiMLton.Lib.LoopForest

/-!
# What a loop forest says of its graph

`Nests`: every node is in one vector of the forest, every cycle lies in a loop and goes through one of
its headers, and the headers of a loop are those of its nodes that are entered from outside.
`nests_of_treeFor`: this is so of the forests that `treeFor` makes.
-/

namespace MultiMLton.Lib

open Relation List
open Option (bind_eq_bind bind_eq_some_iff)

namespace LoopForest

variable {α : Type}

mutual

/-- The `notInLoop` vectors, one after the other. -/
def leaves : LoopForest α → List α
  | T loops notInLoop => leavesLoops loops ++ notInLoop

def leavesLoops : List (List α × LoopForest α) → List α
  | [] => []
  | (_, child) :: loops => leaves child ++ leavesLoops loops

end

mutual

/-- The headers of all loops, those of a loop before those inside of it. -/
def headers : LoopForest α → List α
  | T loops _ => headersLoops loops

def headersLoops : List (List α × LoopForest α) → List α
  | [] => []
  | (hs, child) :: loops => hs ++ headers child ++ headersLoops loops

end

/-- A loop of the forest; `enclosing` are the headers of the loops that it is in. -/
inductive HasLoop : LoopForest α → List α → List α → LoopForest α → Prop
  | outer {loops notInLoop headers child} (hmem : (headers, child) ∈ loops) :
    HasLoop (T loops notInLoop) [] headers child
  | inner {loops notInLoop headers child enclosing headers' child'}
    (hmem : (headers, child) ∈ loops) (h : HasLoop child enclosing headers' child') :
    HasLoop (T loops notInLoop) (headers ++ enclosing) headers' child'

@[simp] theorem leaves_T (loops : List (List α × LoopForest α)) (notInLoop : List α) :
    (T loops notInLoop).leaves = leavesLoops loops ++ notInLoop := by rw [leaves]

@[simp] theorem leavesLoops_nil : leavesLoops ([] : List (List α × LoopForest α)) = [] := by
  rw [leavesLoops]

@[simp] theorem leavesLoops_cons (headers : List α) (child : LoopForest α)
    (loops : List (List α × LoopForest α)) :
    leavesLoops ((headers, child) :: loops) = child.leaves ++ leavesLoops loops := by
  rw [leavesLoops]

@[simp] theorem leaves_single (a : α) : (single a).leaves = [a] := by simp [single]

theorem mem_headersLoops {loops : List (List α × LoopForest α)} {hs : List α}
    {child : LoopForest α} (h : (hs, child) ∈ loops) {a : α} (ha : a ∈ hs ∨ a ∈ child.headers) :
    a ∈ headersLoops loops := by
  induction loops with
  | nil => cases h
  | cons loop loops ih =>
    obtain ⟨hs', child'⟩ := loop
    rw [headersLoops, mem_append, mem_append]
    rcases mem_cons.1 h with heq | h
    · cases heq
      exact .inl ha
    · exact .inr (ih h)

theorem HasHeader.mem_headers {f : LoopForest α} {a : α} (h : f.HasHeader a) : a ∈ f.headers := by
  induction h with
  | outer hmem ha =>
    rw [headers]
    exact mem_headersLoops hmem (.inl ha)
  | inner hmem _ ih =>
    rw [headers]
    exact mem_headersLoops hmem (.inr ih)

end LoopForest

namespace DirectedGraph

variable {α : Type}

/-- What a loop forest is, where the nodes that are `marked` are entered from outside of the graph. -/
structure Nests (g : DirectedGraph α) (marked : α → Bool) (f : LoopForest α) : Prop where
  nodup : f.leaves.Nodup
  mem_leaves : ∀ a, a ∈ f.leaves ↔ a ∈ g.nodes
  cycle : ∀ w : Cycle α, w ≠ Cycle.nil → w.Chain g.Edge → ∃ enclosing headers child,
    f.HasLoop enclosing headers child ∧ (∀ a ∈ w, a ∈ child.leaves) ∧ ∃ a ∈ w, a ∈ headers
  mem_headers : ∀ enclosing headers child, f.HasLoop enclosing headers child → ∀ a,
    a ∈ headers ↔ a ∈ child.leaves ∧
      (marked a = true ∨ ∃ b, g.Edge b a ∧ a ∉ enclosing ∧ b ∉ child.leaves)

variable [DecidableEq α] {g : DirectedGraph α} {sccs : DirectedGraph α → List (List α)}

/-! ### Fuel -/

variable {marked : α → Bool} {fuel : ℕ}

theorem treeFor_succ {f : LoopForest α}
    (h : treeFor sccs fuel marked g = some f) : treeFor sccs (fuel + 1) marked g = some f := by
  induction fuel generalizing marked g f with
  | zero => cases h
  | succ fuel ih =>
    rw [treeFor, bind_eq_bind, bind_eq_some_iff] at h
    obtain ⟨acc, hacc, h⟩ := h
    have hmono := foldlM_mono
      (g := g.visit (g.isHeader (sccs g) marked) (treeFor sccs (fuel + 1) fun _ => false))
      (fun c _ s s' hs => ?_) hacc
    · rw [treeFor, bind_eq_bind, bind_eq_some_iff]
      exact ⟨acc, hmono, h⟩
    unfold visit at hs ⊢
    split
    · exact hs
    · simp only [bind_eq_bind, bind_eq_some_iff] at hs ⊢
      obtain ⟨child, hchild, hs⟩ := hs
      exact ⟨child, ih hchild, hs⟩

theorem treeFor_le {fuel fuel' : ℕ} (hle : fuel ≤ fuel') {f : LoopForest α}
    (h : treeFor sccs fuel marked g = some f) : treeFor sccs fuel' marked g = some f := by
  induction fuel', hle using Nat.le_induction with
  | base => exact h
  | succ fuel' _ ih => exact treeFor_succ ih

/-! ### Nodes -/

variable {acc acc' : List (List α × LoopForest α) × List α}
  {rec : DirectedGraph α → Option (LoopForest α)} {header : α → Bool}

/-- A component is put into one vector, or into those of a loop. -/
theorem visit_leaves {c : List α}
    (hrec : ∀ child, rec (g.subgraph header c) = some child → child.leaves.Perm c)
    (h : g.visit header rec acc c = some acc') :
    (LoopForest.T acc'.1 acc'.2).leaves.Perm (c ++ (LoopForest.T acc.1 acc.2).leaves) := by
  unfold visit at h
  split at h
  · next n =>
    split_ifs at h with hn
    · cases h
      simp
    · cases h
      simpa only [LoopForest.leaves_T, singleton_append] using perm_middle
  · rw [bind_eq_bind, bind_eq_some_iff] at h
    obtain ⟨child, hchild, h⟩ := h
    cases h
    simpa using (hrec child hchild).append_right _

theorem foldlM_visit_leaves {cs : List (List α)}
    (hrec : ∀ c ∈ cs, ∀ child, rec (g.subgraph header c) = some child → child.leaves.Perm c)
    (h : cs.foldlM (g.visit header rec) acc = some acc') : (LoopForest.T acc'.1 acc'.2).leaves.Perm
      (cs.flatten ++ (LoopForest.T acc.1 acc.2).leaves) := by
  induction cs generalizing acc with
  | nil =>
    cases h
    exact .refl _
  | cons c cs ih =>
    rw [foldlM_cons, bind_eq_bind, bind_eq_some_iff] at h
    obtain ⟨acc₁, hacc₁, h⟩ := h
    have hc := visit_leaves (hrec c mem_cons_self) hacc₁
    refine (ih (fun d hd => hrec d (mem_cons_of_mem c hd)) h).trans
      ((hc.append_left _).trans ?_)
    rw [flatten_cons, ← append_assoc]
    exact perm_append_comm.append_right _

/-! ### Loops -/

/-- The loop that is made of the component `c`. -/
inductive LoopOf (g : DirectedGraph α) (header : α → Bool)
    (rec : DirectedGraph α → Option (LoopForest α)) (c : List α) :
    List α → LoopForest α → Prop
  | selfLoop (n : α) (hc : c = [n]) (hn : n ∈ g.succ n) : LoopOf g header rec c [n] (.single n)
  | component (hsingle : ∀ n, c ≠ [n]) (child : LoopForest α)
    (hchild : rec (g.subgraph header c) = some child) :
    LoopOf g header rec c (c.filter header).reverse child

theorem visit_loops {c : List α}
    (h : g.visit header rec acc c = some acc') {headers : List α} {child : LoopForest α}
    (hmem : (headers, child) ∈ acc'.1) :
    (headers, child) ∈ acc.1 ∨ g.LoopOf header rec c headers child := by
  unfold visit at h
  split at h
  · next n =>
    split_ifs at h with hn
    · cases h
      rcases mem_cons.1 hmem with heq | hmem
      · cases heq
        exact .inr (.selfLoop n rfl hn)
      · exact .inl hmem
    · cases h
      exact .inl hmem
  · next hsingle =>
    rw [bind_eq_bind, bind_eq_some_iff] at h
    obtain ⟨child', hchild, h⟩ := h
    cases h
    rcases mem_cons.1 hmem with heq | hmem
    · cases heq
      exact .inr (.component hsingle child hchild)
    · exact .inl hmem

theorem treeFor_loops {loops : List (List α × LoopForest α)}
    {notInLoop : List α} (h : treeFor sccs (fuel + 1) marked g = some (.T loops notInLoop))
    {headers : List α} {child : LoopForest α} (hmem : (headers, child) ∈ loops) : ∃ c ∈ sccs g,
      g.LoopOf (g.isHeader (sccs g) marked) (treeFor sccs fuel fun _ => false) c headers child := by
  rw [treeFor, bind_eq_bind, bind_eq_some_iff] at h
  obtain ⟨acc, hacc, h⟩ := h
  cases h
  refine foldlM_preserves (fun acc => ∀ headers child, (headers, child) ∈ acc.1 → ∃ c ∈ sccs g,
    g.LoopOf (g.isHeader (sccs g) marked) (treeFor sccs fuel fun _ => false) c headers child)
    (fun c hc s s' hs hstep headers child hmem => ?_) (by simp) hacc headers child hmem
  rcases visit_loops hstep hmem with hmem | hloop
  · exact hs headers child hmem
  · exact ⟨c, hc, hloop⟩

/-- The headers of a component are entered from outside. -/
theorem Components.isHeader_iff {cs : List (List α)} (h : g.Components cs)
    {c : List α} (hc : c ∈ cs) {a : α} (ha : a ∈ c) :
    g.isHeader cs marked a = true ↔ marked a = true ∨ ∃ b, g.Edge b a ∧ b ∉ c := by
  constructor
  · intro hheader
    simp only [isHeader, Bool.or_eq_true, any_eq_true, Bool.and_eq_true,
      decide_eq_true_eq] at hheader
    refine hheader.imp_right ?_
    rintro ⟨b, hb, hba, hne⟩
    exact ⟨b, hba, fun hbc => hne ((h.classOf_eq_iff hc ha hb).2 hbc).symm⟩
  · rintro (hmarked | ⟨b, hba, hb⟩)
    · simp [isHeader, hmarked]
    · exact h.isHeader_of_edge hc hba hb ha

variable (hsccs : ∀ g : DirectedGraph α, g.Components (sccs g))
  (hnodup : ∀ g : DirectedGraph α, (sccs g).flatten.Nodup)

include hsccs hnodup

theorem treeFor_leaves {f : LoopForest α}
    (h : treeFor sccs fuel marked g = some f) : f.leaves.Perm (sccs g).flatten := by
  induction fuel generalizing marked g f with
  | zero => cases h
  | succ fuel ih =>
    rw [treeFor, bind_eq_bind, bind_eq_some_iff] at h
    obtain ⟨acc, hacc, h⟩ := h
    cases h
    refine (foldlM_visit_leaves (fun c hc child hchild => (ih hchild).trans ?_) hacc).trans ?_
    · refine (perm_ext_iff_of_nodup (hnodup _) ((hsccs g).nodup c hc)).2 fun a => ?_
      exact (hsccs _).mem_flatten a
    · simp

theorem mem_leaves_of_treeFor {f : LoopForest α}
    (h : treeFor sccs fuel marked g = some f) (a : α) : a ∈ f.leaves ↔ a ∈ g.nodes :=
  (treeFor_leaves hsccs hnodup h).mem_iff.trans ((hsccs g).mem_flatten a)

/-- The nodes of the loop of a component are those of the component. -/
theorem LoopOf.mem_leaves {c headers : List α}
    {child : LoopForest α} (h : g.LoopOf header (treeFor sccs fuel marked) c headers child) (a : α) :
    a ∈ child.leaves ↔ a ∈ c := by
  cases h with
  | selfLoop n hc _ => simp [hc]
  | component _ _ hchild => exact mem_leaves_of_treeFor hsccs hnodup hchild a

/-- An edge leads to each node of a loop. -/
theorem exists_pred_of_hasLoop {f : LoopForest α}
    (h : treeFor sccs fuel marked g = some f) {enclosing headers : List α} {child : LoopForest α}
    (hloop : f.HasLoop enclosing headers child) {a : α} (ha : a ∈ child.leaves) :
    ∃ b, g.Edge b a := by
  induction hloop generalizing fuel marked g with
  | @outer loops notInLoop headers child hmem =>
    cases fuel with
    | zero => cases h
    | succ fuel =>
      obtain ⟨c, hc, hof⟩ := treeFor_loops h hmem
      have hac := (hof.mem_leaves hsccs hnodup a).1 ha
      cases hof with
      | selfLoop n hcn hn =>
        obtain rfl : a = n := by simpa [hcn] using hac
        exact ⟨a, hn⟩
      | component hsingle _ _ =>
        obtain ⟨b, hb, hne⟩ := (hsccs g).exists_ne hc hac hsingle
        obtain ⟨x, -, hx⟩ := (hsccs g).exists_pred hc hac hb hne
        exact ⟨x, hx⟩
  | @inner loops notInLoop headers child enclosing headers' child' hmem hloop ih =>
    cases fuel with
    | zero => cases h
    | succ fuel =>
      obtain ⟨c, hc, hof⟩ := treeFor_loops h hmem
      cases hof with
      | selfLoop n _ _ =>
        cases hloop <;> contradiction
      | component _ _ hchild =>
        obtain ⟨b, hb⟩ := ih hchild ha
        exact ⟨b, (edge_subgraph.1 hb).2.2.1⟩

theorem mem_headers_of_treeFor {f : LoopForest α}
    (h : treeFor sccs fuel marked g = some f) (hent : g.Entered marked)
    {enclosing headers : List α} {child : LoopForest α}
    (hloop : f.HasLoop enclosing headers child) (a : α) : a ∈ headers ↔ a ∈ child.leaves ∧
      (marked a = true ∨ ∃ b, g.Edge b a ∧ a ∉ enclosing ∧ b ∉ child.leaves) := by
  induction hloop generalizing fuel marked g with
  | @outer loops notInLoop headers child hmem =>
    cases fuel with
    | zero => cases h
    | succ fuel =>
      obtain ⟨c, hc, hof⟩ := treeFor_loops h hmem
      cases hof with
      | selfLoop n hcn hn =>
        simp only [LoopForest.leaves_single, mem_singleton, not_mem_nil,
          not_false_eq_true, true_and, iff_self_and]
        rintro rfl
        obtain ⟨e, -, hentry, hreach⟩ := hent a ((g.mem_of_succ a a hn).1)
        by_cases hea : e = a
        · subst hea
          exact hentry.imp_right fun hnone => absurd hn (hnone e)
        · obtain ⟨x, y, hxy, hx, rfl⟩ := exists_edge_into (P := (· = a)) hreach hea rfl
          exact .inr ⟨x, hxy, hx⟩
      | component hsingle _ hchild =>
        have hleaves := mem_leaves_of_treeFor hsccs hnodup hchild
        change ∀ x, x ∈ child.leaves ↔ x ∈ c at hleaves
        simp only [mem_reverse, mem_filter, hleaves, not_mem_nil,
          not_false_eq_true, true_and]
        exact and_congr_right fun hac => (hsccs g).isHeader_iff hc hac
  | @inner loops notInLoop headers child enclosing headers' child' hmem hloop ih =>
    cases fuel with
    | zero => cases h
    | succ fuel =>
      obtain ⟨c, hc, hof⟩ := treeFor_loops h hmem
      cases hof with
      | selfLoop n _ _ => cases hloop <;> contradiction
      | component hsingle _ hchild =>
        have hheader := (hsccs g).exists_header hent hc hsingle
        rw [ih hchild ((hsccs g).entered_subgraph hc hheader)]
        refine and_congr_right fun ha => ?_
        -- an edge leads to `a` without those into the headers around it, so it is none of them
        obtain ⟨x, hx⟩ := exists_pred_of_hasLoop hsccs hnodup hchild hloop ha
        obtain ⟨-, hac, -, hfalse⟩ := edge_subgraph.1 hx
        have hnot : a ∉ (c.filter (g.isHeader (sccs g) marked)).reverse := by simp [hfalse]
        simp only [Bool.false_eq_true, false_or, mem_append, hnot, edge_subgraph, hfalse,
          hac, true_and, and_true]
        constructor
        · rintro ⟨b, ⟨-, hba⟩, hb⟩
          exact .inr ⟨b, hba, hb⟩
        · rintro (hmarked | ⟨b, hba, hb⟩)
          · rw [((hsccs g).isHeader_iff hc hac).2 (.inl hmarked)] at hfalse
            cases hfalse
          · refine ⟨b, ⟨?_, hba⟩, hb⟩
            by_contra hbc
            rw [(hsccs g).isHeader_of_edge hc hba hbc hac] at hfalse
            cases hfalse

omit [DecidableEq α] hsccs hnodup in
/-- The edges of a cycle, given those of a relation between its nodes. -/
theorem chain_imp {R S : α → α → Prop} {w : Cycle α} (h : w.Chain R)
    (himp : ∀ a ∈ w, ∀ b ∈ w, R a b → S a b) : w.Chain S := by
  induction w with
  | nil => trivial
  | cons a l _ =>
    rw [Cycle.chain_coe_cons] at h ⊢
    refine List.IsChain.imp_of_mem_imp (fun x y hx hy hxy => himp x ?_ y ?_ hxy) h
    · simpa [or_comm, or_assoc] using hx
    · simpa [or_comm, or_assoc] using hy

omit [DecidableEq α] hsccs hnodup in
/-- Each node of a cycle comes after one of its nodes. -/
theorem exists_pred_of_chain {R : α → α → Prop} {w : Cycle α} (h : w.Chain R) {a : α}
    (ha : a ∈ w) : ∃ b ∈ w, R b a := by
  have hlist (b : α) (l : List α) : List.IsChain R (b :: l) → a ∈ l → ∃ x ∈ b :: l, R x a := by
    induction l generalizing b with
    | nil => exact fun _ ha => absurd ha not_mem_nil
    | cons x l ih =>
      intro h ha
      rw [isChain_cons_cons] at h
      rcases mem_cons.1 ha with rfl | ha
      · exact ⟨b, mem_cons_self, h.1⟩
      · obtain ⟨y, hy, hya⟩ := ih x h.2 ha
        exact ⟨y, mem_cons_of_mem b hy, hya⟩
  induction w with
  | nil => exact absurd ha (Cycle.notMem_nil a)
  | cons b l _ =>
    rw [Cycle.chain_coe_cons] at h
    obtain ⟨x, hx, hxa⟩ := hlist b (l ++ [b]) h (by simpa [or_comm] using ha)
    exact ⟨x, by simpa [or_comm, or_assoc] using hx, hxa⟩

omit [DecidableEq α] hsccs hnodup in
theorem exists_edge_of_chain {R : α → α → Prop} {w : Cycle α} (h : w.Chain R)
    (hne : w ≠ Cycle.nil) : ∃ a ∈ w, ∃ b ∈ w, R a b := by
  obtain ⟨b, hb⟩ : ∃ b, b ∈ w := by
    induction w with
    | nil => exact absurd rfl hne
    | cons b l _ => exact ⟨b, by simp⟩
  obtain ⟨a, ha, hab⟩ := exists_pred_of_chain h hb
  exact ⟨a, ha, b, hb, hab⟩

theorem exists_loop_of_cycle {f : LoopForest α}
    (h : treeFor sccs fuel marked g = some f) {w : Cycle α} (hne : w ≠ Cycle.nil)
    (hw : w.Chain g.Edge) : ∃ enclosing headers child,
      f.HasLoop enclosing headers child ∧ (∀ a ∈ w, a ∈ child.leaves) ∧ ∃ a ∈ w, a ∈ headers := by
  induction fuel generalizing marked g f with
  | zero => cases h
  | succ fuel ih =>
    obtain ⟨acc, rfl, hall⟩ := treeFor_visited h
    obtain ⟨a, ha, b, hb, hab⟩ := exists_edge_of_chain hw hne
    obtain ⟨c, hc, hac⟩ := (hsccs g).exists_mem (g.mem_of_succ a b hab).1
    have hreach : ∀ x ∈ w, ∀ y ∈ w, TransGen g.Edge x y :=
      Cycle.chain_iff_pairwise.1 (hw.imp fun _ _ => .single)
    have hwc : ∀ x ∈ w, x ∈ c := fun x hx => ((hsccs g).same c hc a hac x).2
      ⟨(hreach a ha x hx).to_reflTransGen, (hreach x hx a ha).to_reflTransGen⟩
    cases hall c hc with
    | node n hcn hn _ =>
      obtain rfl : a = n := by simpa [hcn] using hac
      obtain rfl : b = a := by simpa [hcn] using hwc b hb
      exact absurd hab hn
    | selfLoop n hcn hmem =>
      subst hcn
      exact ⟨[], [n], _, .outer hmem, by simpa using hwc, a, ha, hac⟩
    | loop child hchild hmem =>
      have hleaves := mem_leaves_of_treeFor hsccs hnodup hchild
      by_cases hheader : ∃ x ∈ w, g.isHeader (sccs g) marked x = true
      · obtain ⟨x, hx, hxh⟩ := hheader
        exact ⟨[], _, child, .outer hmem, fun y hy => (hleaves y).2 (hwc y hy), x, hx,
          by simpa using ⟨hwc x hx, hxh⟩⟩
      · push Not at hheader
        have hinside : w.Chain (g.subgraph (g.isHeader (sccs g) marked) c).Edge :=
          chain_imp hw fun x hx y hy hxy => edge_subgraph.2
            ⟨hwc x hx, hwc y hy, hxy, by simpa using hheader y hy⟩
        obtain ⟨enclosing, headers, child', hloop, hin, hthrough⟩ := ih hchild hinside
        exact ⟨_, headers, child', .inner hmem hloop, hin, hthrough⟩

/-- The forest of a graph where every node is reachable from an entry. -/
theorem nests_of_treeFor (hent : g.Entered marked) :
    ∃ f, (∀ fuel, g.nodes.length < fuel → treeFor sccs fuel marked g = some f) ∧
      g.Nests marked f := by
  obtain ⟨f, hf⟩ := treeFor_total hsccs (g.nodes.length + 1) marked g hent
    (Nat.lt_succ_of_le targets_card_le)
  refine ⟨f, fun fuel hfuel => treeFor_le hfuel hf, ?_, ?_, ?_, ?_⟩
  · exact (treeFor_leaves hsccs hnodup hf).nodup_iff.2 (hnodup g)
  · exact mem_leaves_of_treeFor hsccs hnodup hf
  · exact fun w hne hw => exists_loop_of_cycle hsccs hnodup hf hne hw
  · exact fun enclosing headers child hloop => mem_headers_of_treeFor hsccs hnodup hf hent hloop

end DirectedGraph

end MultiMLton.Lib
