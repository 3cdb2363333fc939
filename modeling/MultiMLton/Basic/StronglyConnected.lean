import MultiMLton.Lib.Fuel
import MultiMLton.Lib.LoopNesting

/-!
# Strongly connected components

`dfsNodes` and `stronglyConnectedComponents` of `basic/directed-graph.sml`. The functions of a
`DfsParam` may keep data in references; here these are part of the values that are passed along. An edge
is given by the node that it leads to.

* `Search`: what the search for components keeps;
* `Inv`: what holds of it while the nodes `gray` have been entered and not left;
* `Scan`: what is known of a node while its edges are gone through.
-/

namespace MultiMLton.Basic

open MultiMLton.Lib MultiMLton.Lib.DirectedGraph Relation List
open Function (update update_eq_self update_of_ne update_self)

variable {α : Type} [DecidableEq α]

/-! ### Depth-first search -/

/-- What a `DfsParam` returns for a node. -/
structure NodeParam (α γ δ ε : Type) where
  value : δ
  nonTreeEdge : α → δ → δ
  treeEdge : α → δ → γ × (ε → δ)
  finishNode : δ → Option ε

/-- What a `DfsParam` returns for the root of a tree. -/
structure TreeParam (α β γ δ ε : Type) where
  value : γ
  startNode : α → γ → NodeParam α γ δ ε
  finishTree : ε → β

/-- `DfsParam.t`, without the value at the beginning -/
abbrev DfsParam (α β γ δ ε : Type) := α → β → TreeParam α β γ δ ε

section Dfs

variable {β γ δ ε : Type} (g : DirectedGraph α)

/-- `visit`; the values follow the marks `hasBeenVisited`. -/
def visit (startNode : α → γ → NodeParam α γ δ ε) :
    ℕ → α → (α → Bool) × γ → Option ((α → Bool) × ε)
  | 0, _, _ => none
  | fuel + 1, n, (visited, c) => do
    let p := startNode n c
    let (visited, d) ← (g.succ n).foldlM
      (fun (st : (α → Bool) × δ) m =>
        if st.1 m then some (st.1, p.nonTreeEdge m st.2)
        else
          (visit startNode fuel m (st.1, (p.treeEdge m st.2).1)).map fun r =>
            (r.1, (p.treeEdge m st.2).2 r.2))
      (update visited n true, p.value)
    let e ← p.finishNode d
    some (visited, e)

def dfsNodes (ns : List α) (b : β) (f : DfsParam α β γ δ ε) (fuel : ℕ) : Option β := do
  let (_, b) ← ns.foldlM
    (fun (st : (α → Bool) × β) n =>
      if st.1 n then some st
      else
        (visit g (f n st.2).startNode fuel n (st.1, (f n st.2).value)).map fun r =>
          (r.1, (f n st.2).finishTree r.2))
    ((fun _ => false), b)
  some b

/-- `dfs` -/
def dfs (b : β) (f : DfsParam α β γ δ ε) (fuel : ℕ) : Option β := dfsNodes g g.nodes b f fuel

end Dfs

/-! ### The search for components -/

/-- The values that are passed along and `nodeInfo`. -/
structure Search (α : Type) where
  count : ℕ
  stack : List α
  components : List (List α)
  dfnumber : α → ℕ
  isOnStack : α → Bool
  lowlink : α → ℕ

namespace Search

variable (n m : α) (s : Search α)

/-- What `startNode` does before the edges. -/
def start : Search α where
  count := s.count + 1
  stack := n :: s.stack
  components := s.components
  dfnumber := update s.dfnumber n s.count
  isOnStack := update s.isOnStack n true
  lowlink := update s.lowlink n s.count

def nonTreeEdge : Search α :=
  if s.dfnumber m < s.dfnumber n ∧ s.isOnStack m = true ∧ s.dfnumber m < s.lowlink n then
    { s with lowlink := update s.lowlink n (s.dfnumber m) }
  else s

/-- What is done after a tree edge. -/
def finishEdge : Search α :=
  if s.lowlink m < s.lowlink n then
    { s with lowlink := update s.lowlink n (s.lowlink m) }
  else s

/-- The stack below the node, and what is popped. -/
def popTo : List α → List α → Option (List α × List α)
  | [], _ => none
  | n' :: stack, ac => if n = n' then some (stack, n' :: ac) else popTo stack (n' :: ac)

def finishNode : Option (Search α) :=
  if s.lowlink n = s.dfnumber n then do
    let (stack, component) ← popTo n s.stack []
    some { s with
      stack := stack
      components := component :: s.components
      isOnStack := fun x => if x ∈ component then false else s.isOnStack x }
  else some s

end Search

def sccParam : DfsParam α (Search α) (Search α) (Search α) (Search α) := fun _ s =>
  { value := s
    startNode := fun n s =>
      { value := s.start n
        nonTreeEdge := fun m s => s.nonTreeEdge n m
        treeEdge := fun m s => (s, fun s => s.finishEdge n m)
        finishNode := fun s => s.finishNode n }
    finishTree := fun s => s }

def stronglyConnectedComponents (g : DirectedGraph α) (fuel : ℕ) : Option (List (List α)) :=
  (dfs g ⟨0, [], [], fun _ => 0, fun _ => false, fun _ => 0⟩ sccParam fuel).map Search.components

/-! ### Invariants -/

omit [DecidableEq α] in
/-- Components that edges lead out of only to later ones. -/
def Closed (g : DirectedGraph α) : List (List α) → Prop
  | [] => True
  | c :: cs => (∀ x ∈ c, ∀ y, g.Edge x y → y ∈ c ∨ y ∈ cs.flatten) ∧ Closed g cs

/-- What holds while the nodes `gray` have been entered and not left. -/
structure Inv (g : DirectedGraph α) (gray : List α) (visited : α → Bool) (s : Search α) : Prop where
  visited_iff : ∀ x, visited x = true ↔ x ∈ s.stack ∨ x ∈ s.components.flatten
  nodup : (s.stack ++ s.components.flatten).Nodup
  onStack : ∀ x, visited x = true → (s.isOnStack x = true ↔ x ∈ s.stack)
  sorted : s.stack.Pairwise fun x y => s.dfnumber y < s.dfnumber x
  lt : ∀ x, visited x = true → s.dfnumber x < s.count
  mem : ∀ x, visited x = true → x ∈ g.nodes
  grayOnStack : ∀ x ∈ gray, x ∈ s.stack
  /-- from the stack a node that has not been left can be reached, which is not later -/
  back : ∀ x ∈ s.stack, ∃ y ∈ gray, s.dfnumber y ≤ s.dfnumber x ∧ g.Reach x y
  /-- nodes that have not been left reach what is later on the stack -/
  forth : ∀ x ∈ gray, ∀ y ∈ s.stack, s.dfnumber x ≤ s.dfnumber y → g.Reach x y
  black : ∀ x ∈ s.stack, x ∉ gray → ∀ y, g.Edge x y → visited y = true
  same : ∀ c ∈ s.components, c ≠ [] ∧ ∀ a ∈ c, ∀ b, b ∈ c ↔ g.Reach a b ∧ g.Reach b a
  closed : Closed g s.components

/-- What is known of the node `n`, entered with `below` on the stack, when its edges to `done` have been
gone through. -/
structure Scan (g : DirectedGraph α) (gray below : List α) (n : α) (done : List α)
    (visited : α → Bool) (s : Search α) : Prop where
  grayBelow : ∀ x ∈ gray, x ∈ below
  stack : ∃ above, s.stack = above ++ n :: below ∧
    ∀ x ∈ above, ∀ y ∈ below, g.Edge x y → s.lowlink n ≤ s.dfnumber y
  low : s.lowlink n = s.dfnumber n ∨ ∃ u ∈ below, s.dfnumber u = s.lowlink n ∧ g.Reach n u
  le : s.lowlink n ≤ s.dfnumber n
  doneVisited : ∀ y ∈ done, visited y = true
  doneLow : ∀ y ∈ done, y ∈ below → s.lowlink n ≤ s.dfnumber y

/-- What has been visited is left as it is. -/
structure Frame (visited : α → Bool) (s : Search α) (visited' : α → Bool) (s' : Search α) : Prop where
  mono : ∀ x, visited x = true → visited' x = true
  dfnumber : ∀ x, visited x = true → s'.dfnumber x = s.dfnumber x
  lowlink : ∀ x, visited x = true → s'.lowlink x = s.lowlink x

/-- What a visit of `n` does. -/
structure Left (g : DirectedGraph α) (n : α) (visited : α → Bool) (s : Search α)
    (visited' : α → Bool) (s' : Search α) : Prop where
  frame : Frame visited s visited' s'
  self : visited' n = true
  later : s.count ≤ s'.dfnumber n
  stack : ∃ above, s'.stack = above ++ s.stack ∧
    ∀ x ∈ above, ∀ y ∈ s.stack, g.Edge x y → s'.lowlink n ≤ s'.dfnumber y
  low : s'.lowlink n = s'.dfnumber n ∨
    ∃ u ∈ s.stack, s'.dfnumber u = s'.lowlink n ∧ g.Reach n u

variable {g : DirectedGraph α} {gray below done : List α} {n m x : α} {visited visited' : α → Bool}
  {s s' s'' : Search α}

omit [DecidableEq α] in
theorem Frame.trans {visited'' : α → Bool} (h : Frame visited s visited' s')
    (h' : Frame visited' s' visited'' s'') : Frame visited s visited'' s'' where
  mono x hx := h'.mono x (h.mono x hx)
  dfnumber x hx := (h'.dfnumber x (h.mono x hx)).trans (h.dfnumber x hx)
  lowlink x hx := (h'.lowlink x (h.mono x hx)).trans (h.lowlink x hx)

omit [DecidableEq α] in
theorem Closed.edge {cs : List (List α)} (h : Closed g cs) {y : α} (hx : x ∈ cs.flatten)
    (hedge : g.Edge x y) : y ∈ cs.flatten := by
  induction cs with
  | nil => cases hx
  | cons c cs ih =>
    rw [flatten_cons, mem_append] at hx ⊢
    rcases hx with hx | hx
    · exact h.1 x hx y hedge
    · exact .inr (ih h.2 hx)

omit [DecidableEq α] in
theorem Closed.reach {cs : List (List α)} (h : Closed g cs) {y : α} (hx : x ∈ cs.flatten)
    (hreach : g.Reach x y) : y ∈ cs.flatten := by
  induction hreach with
  | refl => exact hx
  | tail _ hedge ih => exact h.edge ih hedge

omit [DecidableEq α] in
theorem Inv.disjoint (h : Inv g gray visited s) (hx : x ∈ s.stack) : x ∉ s.components.flatten :=
  fun hx' => (nodup_append.1 h.nodup).2.2 x hx x hx' rfl

/-! ### A node is entered -/

theorem Inv.start (h : Inv g gray visited s) (hn : n ∈ g.nodes) (hnot : visited n = false)
    (hgray : ∀ x ∈ gray, g.Reach x n) :
    Inv g (n :: gray) (update visited n true) (s.start n) ∧
      Scan g gray s.stack n [] (update visited n true) (s.start n) := by
  have hout : n ∉ s.stack ∧ n ∉ s.components.flatten := by
    rw [← not_or, ← h.visited_iff, hnot]
    exact Bool.false_ne_true
  have hold {x : α} (hx : x ∈ s.stack) : (s.start n).dfnumber x = s.dfnumber x :=
    update_of_ne (fun heq : x = n => hout.1 (heq ▸ hx)) _ _
  have hself : (s.start n).dfnumber n = s.count := update_self ..
  have hstack {x : α} (hx : x ∈ s.stack) : s.dfnumber x < s.count :=
    h.lt x ((h.visited_iff x).2 (.inl hx))
  have hvisited (x : α) : update visited n true x = true ↔ x = n ∨ visited x = true := by
    by_cases hx : x = n
    · subst hx
      simp
    · simp [hx]
  constructor
  · constructor
    · intro x
      rw [hvisited, h.visited_iff, ← or_assoc]
      exact or_congr mem_cons.symm Iff.rfl
    · exact nodup_cons.2 ⟨fun hmem => (mem_append.1 hmem).elim hout.1 hout.2, h.nodup⟩
    · intro x hx
      by_cases hxn : x = n
      · subst hxn
        exact iff_of_true (update_self ..) mem_cons_self
      · have hx := ((hvisited x).1 hx).resolve_left hxn
        have honStack : (s.start n).isOnStack x = s.isOnStack x := update_of_ne hxn _ _
        rw [honStack, h.onStack x hx]
        exact ⟨fun hx => mem_cons_of_mem _ hx, fun hx => (mem_cons.1 hx).resolve_left hxn⟩
    · refine pairwise_cons.2 ⟨fun x hx => ?_, h.sorted.imp_of_mem fun hx hy hxy => ?_⟩
      · rw [hself, hold hx]
        exact hstack hx
      · rwa [hold hx, hold hy]
    · intro x hx
      rcases (hvisited x).1 hx with rfl | hx
      · rw [hself]
        exact Nat.lt_succ_self _
      · have hne : x ≠ n := fun heq => by simp [heq, hnot] at hx
        exact ((update_of_ne hne _ _).trans_lt (h.lt x hx)).trans (Nat.lt_succ_self _)
    · intro x hx
      rcases (hvisited x).1 hx with rfl | hx
      · exact hn
      · exact h.mem x hx
    · intro x hx
      rcases mem_cons.1 hx with rfl | hx
      · exact mem_cons_self
      · exact mem_cons_of_mem _ (h.grayOnStack x hx)
    · intro x hx
      rcases mem_cons.1 hx with rfl | hx
      · exact ⟨x, mem_cons_self, le_rfl, .refl⟩
      · obtain ⟨y, hy, hle, hreach⟩ := h.back x hx
        refine ⟨y, mem_cons_of_mem _ hy, ?_, hreach⟩
        rwa [hold hx, hold (h.grayOnStack y hy)]
    · intro x hx y hy hle
      rcases mem_cons.1 hx with rfl | hx'
      · rcases mem_cons.1 hy with rfl | hy'
        · exact .refl
        · rw [hself, hold hy'] at hle
          exact absurd (hstack hy') (not_lt.2 hle)
      · rcases mem_cons.1 hy with rfl | hy'
        · exact hgray x hx'
        · rw [hold (h.grayOnStack x hx'), hold hy'] at hle
          exact h.forth x hx' y hy' hle
    · intro x hx hxg y hedge
      rw [mem_cons, not_or] at hxg
      have hx := (mem_cons.1 hx).resolve_left hxg.1
      exact (hvisited y).2 (.inr (h.black x hx hxg.2 y hedge))
    · exact h.same
    · exact h.closed
  · have hlow : (s.start n).lowlink n = s.count := update_self ..
    exact ⟨h.grayOnStack, ⟨[], rfl, nofun⟩, .inl (hlow.trans hself.symm),
      (hlow.trans hself.symm).le, nofun, nofun⟩

/-! ### The edges of a node -/

omit [DecidableEq α] in
theorem Inv.split (h : Inv g gray visited s) {above : List α} (hs : s.stack = above ++ n :: below) :
    (∀ x ∈ above, s.dfnumber n < s.dfnumber x) ∧ ∀ x ∈ below, s.dfnumber x < s.dfnumber n := by
  have hsorted := h.sorted
  rw [hs] at hsorted
  obtain ⟨-, hbelow, habove⟩ := pairwise_append.1 hsorted
  exact ⟨fun x hx => habove x hx n mem_cons_self, (pairwise_cons.1 hbelow).1⟩

omit [DecidableEq α] in
/-- What is on the stack with a smaller number than `n` is below it. -/
theorem Scan.mem_below (hs : Scan g gray below n done visited s) (h : Inv g (n :: gray) visited s)
    (hx : x ∈ s.stack) (hlt : s.dfnumber x < s.dfnumber n) : x ∈ below := by
  obtain ⟨above, hstack, -⟩ := hs.stack
  rw [hstack] at hx
  rcases mem_append.1 hx with hx | hx
  · exact absurd ((h.split hstack).1 x hx) (by omega)
  · refine (mem_cons.1 hx).resolve_left ?_
    rintro rfl
    exact lt_irrefl _ hlt

omit [DecidableEq α] in
theorem Inv.of_lowlink (h : Inv g gray visited s) (low : α → ℕ) :
    Inv g gray visited { s with lowlink := low } :=
  ⟨h.visited_iff, h.nodup, h.onStack, h.sorted, h.lt, h.mem, h.grayOnStack, h.back, h.forth, h.black,
    h.same, h.closed⟩

theorem Frame.of_lowlink (h : Frame visited s visited' s') (hn : visited n = false) (k : ℕ) :
    Frame visited s visited' { s' with lowlink := update s'.lowlink n k } where
  mono := h.mono
  dfnumber := h.dfnumber
  lowlink x hx := by
    have hne : x ≠ n := fun heq => by simp [heq, hn] at hx
    exact (update_of_ne hne _ _).trans (h.lowlink x hx)

theorem Search.nonTreeEdge_eq (n m : α) (s : Search α) : s.nonTreeEdge n m =
    { s with
      lowlink := update s.lowlink n
        (if s.dfnumber m < s.dfnumber n ∧ s.isOnStack m = true ∧ s.dfnumber m < s.lowlink n then
          s.dfnumber m
        else s.lowlink n) } := by
  rw [Search.nonTreeEdge]
  split_ifs
  · rfl
  · rw [update_eq_self]

theorem Search.finishEdge_eq (n m : α) (s : Search α) : s.finishEdge n m =
    { s with lowlink := update s.lowlink n (min (s.lowlink n) (s.lowlink m)) } := by
  rw [Search.finishEdge]
  split_ifs with h
  · rw [min_eq_right h.le]
  · rw [min_eq_left (not_lt.1 h), update_eq_self]

/-- An edge to a node that has been visited. -/
theorem Scan.nonTreeEdge (hs : Scan g gray below n done visited s)
    (h : Inv g (n :: gray) visited s) (hedge : g.Edge n m) (hm : visited m = true) :
    Scan g gray below n (m :: done) visited (s.nonTreeEdge n m) := by
  rw [Search.nonTreeEdge_eq]
  generalize hk : (if s.dfnumber m < s.dfnumber n ∧ s.isOnStack m = true ∧
    s.dfnumber m < s.lowlink n then s.dfnumber m else s.lowlink n) = k
  have hkn : k ≤ s.lowlink n := by
    rw [← hk]
    split_ifs with hand
    · exact hand.2.2.le
    · exact le_rfl
  have hself : update s.lowlink n k n = k := update_self ..
  obtain ⟨above, hstack, hcross⟩ := hs.stack
  refine ⟨hs.grayBelow, ⟨above, hstack, fun x hx y hy hxy => ?_⟩, ?_, ?_, fun y hy => ?_,
    fun y hy hyb => ?_⟩
  · dsimp only
    rw [hself]
    exact hkn.trans (hcross x hx y hy hxy)
  · dsimp only
    rw [hself]
    split_ifs at hk with hand
    · refine .inr ⟨m, ?_, hk, .single hedge⟩
      exact hs.mem_below h ((h.onStack m hm).1 hand.2.1) hand.1
    · rw [← hk]
      exact hs.low
  · dsimp only
    rw [hself]
    exact hkn.trans hs.le
  · rcases mem_cons.1 hy with rfl | hy
    · exact hm
    · exact hs.doneVisited y hy
  · dsimp only
    rw [hself]
    rcases mem_cons.1 hy with rfl | hy
    · have hlt := (h.split hstack).2 y hyb
      have hon : s.isOnStack y = true := by
        rw [h.onStack y hm, hstack]
        exact mem_append_right _ (mem_cons_of_mem _ hyb)
      rw [← hk]
      split_ifs with hand
      · exact le_rfl
      · exact not_lt.1 fun hlow => hand ⟨hlt, hon, hlow⟩
    · exact hkn.trans (hs.doneLow y hy hyb)

/-- An edge to a node that has been visited because of it. -/
theorem Scan.finishEdge (hs : Scan g gray below n done visited s)
    (h : Inv g (n :: gray) visited s) (hleft : Left g m visited s visited' s') (hedge : g.Edge n m) :
    Scan g gray below n (m :: done) visited' (s'.finishEdge n m) := by
  rw [Search.finishEdge_eq]
  obtain ⟨above, hstack, hcross⟩ := hs.stack
  obtain ⟨hlater, hbelow⟩ := h.split hstack
  have hvisited {x : α} (hx : x ∈ s.stack) : visited x = true := (h.visited_iff x).2 (.inl hx)
  have hn : visited n = true := hvisited (hstack ▸ mem_append_right _ mem_cons_self)
  have hsub {y : α} (hy : y ∈ below) : y ∈ s.stack :=
    hstack ▸ mem_append_right _ (mem_cons_of_mem _ hy)
  have hnumber {y : α} (hy : y ∈ s.stack) : s'.dfnumber y = s.dfnumber y :=
    hleft.frame.dfnumber y (hvisited hy)
  have hself : update s'.lowlink n (min (s'.lowlink n) (s'.lowlink m)) n =
      min (s'.lowlink n) (s'.lowlink m) := update_self ..
  have hlow : s'.lowlink n = s.lowlink n := hleft.frame.lowlink n hn
  have hnum : s'.dfnumber n = s.dfnumber n := hleft.frame.dfnumber n hn
  obtain ⟨new, hstack', hcross'⟩ := hleft.stack
  refine ⟨hs.grayBelow, ⟨new ++ above, ?_, fun x hx y hy hxy => ?_⟩, ?_, ?_, fun y hy => ?_,
    fun y hy hyb => ?_⟩
  · dsimp only
    rw [hstack', hstack, append_assoc]
  · dsimp only
    rw [hself]
    rcases mem_append.1 hx with hx | hx
    · exact (min_le_right _ _).trans (hcross' x hx y (hsub hy) hxy)
    · rw [hnumber (hsub hy)]
      exact (min_le_left _ _).trans (hlow.trans_le (hcross x hx y hy hxy))
  · dsimp only
    rw [hself]
    rcases lt_or_ge (s'.lowlink m) (s'.lowlink n) with hlt | hge
    · rw [min_eq_right hlt.le]
      rw [hlow] at hlt
      have hle := hs.le
      rcases hleft.low with heq | ⟨u, hu, hlowu, hreach⟩
      · have hcount := h.lt n hn
        have hlater := hleft.later
        omega
      · refine .inr ⟨u, hs.mem_below h hu ?_, hlowu, .head hedge hreach⟩
        rw [hnumber hu] at hlowu
        omega
    · rw [min_eq_left hge, hlow, hnum]
      refine hs.low.imp_right ?_
      rintro ⟨u, hu, hlowu, hreach⟩
      exact ⟨u, hu, (hnumber (hsub hu)).trans hlowu, hreach⟩
  · dsimp only
    rw [hself, hnum]
    exact (min_le_left _ _).trans (hlow.trans_le hs.le)
  · rcases mem_cons.1 hy with rfl | hy
    · exact hleft.self
    · exact hleft.frame.mono y (hs.doneVisited y hy)
  · dsimp only
    rw [hself]
    rcases mem_cons.1 hy with rfl | hy
    · -- a node that had been visited before
      have hcount := h.lt y (hvisited (hsub hyb))
      have hlater := hleft.later
      rw [hnumber (hsub hyb)] at hlater
      omega
    · rw [hnumber (hsub hyb)]
      exact (min_le_left _ _).trans (hlow.trans_le (hs.doneLow y hy hyb))

/-! ### A node is left -/

theorem popTo_append {above : List α} (hn : n ∉ above) (ac : List α) :
    Search.popTo n (above ++ n :: below) ac = some (below, n :: (above.reverse ++ ac)) := by
  induction above generalizing ac with
  | nil => rw [nil_append, Search.popTo, if_pos rfl, reverse_nil, nil_append]
  | cons x above ih =>
    rw [mem_cons, not_or] at hn
    rw [List.cons_append, Search.popTo, if_neg hn.1, ih hn.2, reverse_cons, append_assoc]
    rfl

section

variable (hs : Scan g gray below n done visited s) (h : Inv g (n :: gray) visited s)
  (hdone : ∀ y, g.Edge n y → y ∈ done)

include hs h hdone

omit [DecidableEq α] in
/-- The edges of what is to be popped stay inside, or lead to components. -/
theorem Scan.edge_inside
    (hlow : s.lowlink n = s.dfnumber n) {above : List α} (hstack : s.stack = above ++ n :: below)
    {x y : α} (hx : x ∈ n :: above) (hedge : g.Edge x y) :
    y ∈ n :: above ∨ y ∈ s.components.flatten := by
  obtain ⟨hlater, hbelow⟩ := h.split hstack
  obtain ⟨above', hstack', hcross⟩ := hs.stack
  obtain rfl : above' = above :=
    append_cancel_right (hstack'.symm.trans hstack)
  have hnot : n ∉ above' := fun hmem => lt_irrefl _ (hlater n hmem)
  have hvisited : visited y = true := by
    rcases mem_cons.1 hx with rfl | hx
    · exact hs.doneVisited y (hdone y hedge)
    · refine h.black x (hstack ▸ mem_append_left _ hx) ?_ y hedge
      rw [mem_cons, not_or]
      refine ⟨fun heq => hnot (heq ▸ hx), fun hgray => ?_⟩
      have hxb := hbelow x (hs.grayBelow x hgray)
      have hxa := hlater x hx
      omega
  have hout : y ∉ below := by
    intro hy
    have hlt := hbelow y hy
    rcases mem_cons.1 hx with rfl | hx
    · have hle := hs.doneLow y (hdone y hedge) hy
      omega
    · have hle := hcross x hx y hy hedge
      omega
  rcases (h.visited_iff y).1 hvisited with hy | hy
  · rw [hstack] at hy
    rcases mem_append.1 hy with hy | hy
    · exact .inl (mem_cons_of_mem _ hy)
    · rcases mem_cons.1 hy with rfl | hy
      · exact .inl mem_cons_self
      · exact absurd hy hout
  · exact .inr hy

omit [DecidableEq α] in
/-- What is to be popped is a component: all of it is reached from `n`, and `n` from all of it, since
otherwise an edge would lead further down the stack. -/
theorem Scan.component
    (hlow : s.lowlink n = s.dfnumber n) {above : List α} (hstack : s.stack = above ++ n :: below) :
    ∀ a ∈ n :: above, ∀ b, b ∈ n :: above ↔ g.Reach a b ∧ g.Reach b a := by
  obtain ⟨hlater, hbelow⟩ := h.split hstack
  have hclosed {x y : α} (hx : x ∈ n :: above) (hreach : g.Reach x y) :
      y ∈ n :: above ∨ y ∈ s.components.flatten := by
    induction hreach with
    | refl => exact .inl hx
    | tail _ hedge ih =>
      rcases ih with hy | hy
      · exact hs.edge_inside h hdone hlow hstack hy hedge
      · exact .inr (h.closed.edge hy hedge)
  have hmem {x : α} (hx : x ∈ n :: above) : x ∈ s.stack := by
    rw [hstack]
    rcases mem_cons.1 hx with rfl | hx
    · exact mem_append_right _ mem_cons_self
    · exact mem_append_left _ hx
  have hboth {x : α} (hx : x ∈ n :: above) : g.Reach n x ∧ g.Reach x n := by
    have hle : s.dfnumber n ≤ s.dfnumber x := by
      rcases mem_cons.1 hx with rfl | hx
      · exact le_rfl
      · exact (hlater x hx).le
    refine ⟨h.forth n mem_cons_self x (hmem hx) hle, ?_⟩
    obtain ⟨y, hy, -, hreach⟩ := h.back x (hmem hx)
    rcases mem_cons.1 hy with rfl | hgray
    · exact hreach
    · have hyb := hbelow y (hs.grayBelow y hgray)
      rcases hclosed hx hreach with hy | hy
      · rcases mem_cons.1 hy with rfl | hy
        · exact hreach
        · have hya := hlater y hy
          omega
      · exact absurd hy (h.disjoint (h.grayOnStack y (mem_cons_of_mem _ hgray)))
  intro a ha b
  constructor
  · intro hb
    exact ⟨(hboth ha).2.trans (hboth hb).1, (hboth hb).2.trans (hboth ha).1⟩
  · rintro ⟨hab, hba⟩
    refine (hclosed ha hab).resolve_right fun hb => ?_
    exact h.disjoint (hmem ha) (h.closed.reach hb hba)

/-- The node is left: it stays on the stack, or its component is popped. -/
theorem Scan.finishNode :
    ∃ s', s.finishNode n = some s' ∧ Inv g gray visited s' ∧ s'.dfnumber = s.dfnumber ∧
      s'.lowlink = s.lowlink ∧ ∃ above, s'.stack = above ++ below ∧
        ∀ x ∈ above, ∀ y ∈ below, g.Edge x y → s'.lowlink n ≤ s'.dfnumber y := by
  obtain ⟨above, hstack, hcross⟩ := hs.stack
  obtain ⟨hlater, hbelow⟩ := h.split hstack
  have hnot : n ∉ above := fun hmem => lt_irrefl _ (hlater n hmem)
  by_cases hlow : s.lowlink n = s.dfnumber n
  · -- the component is popped
    have hmem : ∀ x, x ∈ s.stack ↔ x ∈ n :: above.reverse ∨ x ∈ below := by
      intro x
      rw [hstack]
      simp only [mem_append, mem_cons, mem_reverse]
      tauto
    have hcomponent := hs.component h hdone hlow hstack
    have hrev (x : α) : x ∈ n :: above.reverse ↔ x ∈ n :: above := by simp
    have hinside {x y : α} (hx : x ∈ n :: above) (hedge : g.Edge x y) :=
      hs.edge_inside h hdone hlow hstack hx hedge
    have hperm : (s.stack ++ s.components.flatten).Perm
        (below ++ ((n :: above.reverse) ++ s.components.flatten)) := by
      rw [hstack, ← append_assoc]
      refine List.Perm.append_right _ (perm_middle.trans ?_)
      refine ((reverse_perm above).symm.append_right below).cons n |>.trans ?_
      exact @perm_append_comm _ (n :: above.reverse) _
    have hnodup := hperm.nodup_iff.1 h.nodup
    have hdisjoint {x : α} (hx : x ∈ below) : x ∉ n :: above.reverse := fun hx' =>
      (nodup_append.1 hnodup).2.2 x hx x (mem_append_left _ hx') rfl
    refine ⟨{ s with
      stack := below
      components := (n :: above.reverse) :: s.components
      isOnStack := fun x => if x ∈ n :: above.reverse then false else s.isOnStack x },
      ?_, ?_, rfl, rfl, [], rfl, nofun⟩
    · rw [Search.finishNode, if_pos hlow, hstack, popTo_append hnot, append_nil]
      rfl
    · refine ⟨fun x => ?_, hnodup, fun x hx => ?_, ?_, h.lt, h.mem, hs.grayBelow, fun x hx => ?_,
        fun x hx y hy => ?_, fun x hx hxg => ?_, ?_, ?_, h.closed⟩
      · rw [h.visited_iff, hmem, flatten_cons, mem_append]
        tauto
      · have hon := h.onStack x hx
        rw [hmem] at hon
        dsimp only
        split_ifs with hxc
        · exact iff_of_false id fun hxb => hdisjoint hxb hxc
        · rw [hon, or_iff_right hxc]
      · have hsorted := h.sorted
        rw [hstack] at hsorted
        exact (pairwise_cons.1 (pairwise_append.1 hsorted).2.1).2
      · obtain ⟨y, hy, hle, hreach⟩ := h.back x ((hmem x).2 (.inr hx))
        refine ⟨y, (mem_cons.1 hy).resolve_left ?_, hle, hreach⟩
        rintro rfl
        have hlt := hbelow x hx
        omega
      · exact h.forth x (mem_cons_of_mem _ hx) y ((hmem y).2 (.inr hy))
      · refine h.black x ((hmem x).2 (.inr hx)) fun hxn => ?_
        rcases mem_cons.1 hxn with rfl | hxn
        · exact hdisjoint hx mem_cons_self
        · exact hxg hxn
      · intro c hc
        rcases mem_cons.1 hc with rfl | hc
        · refine ⟨cons_ne_nil _ _, fun a ha b => ?_⟩
          rw [hrev] at ha ⊢
          exact hcomponent a ha b
        · exact h.same c hc
      · intro x hx y hedge
        rw [hrev] at hx ⊢
        exact hinside hx hedge
  · -- the node reaches what is below it on the stack
    obtain ⟨u, hu, hlowu, hreach⟩ := hs.low.resolve_left hlow
    have hle := hs.le
    refine ⟨s, by rw [Search.finishNode, if_neg hlow], ?_, rfl, rfl, above ++ [n], ?_, ?_⟩
    · have hsub {x : α} (hx : x ∈ below) : x ∈ s.stack :=
        hstack ▸ mem_append_right _ (mem_cons_of_mem _ hx)
      refine ⟨h.visited_iff, h.nodup, h.onStack, h.sorted, h.lt, h.mem,
        fun x hx => hsub (hs.grayBelow x hx), fun x hx => ?_,
        fun x hx => h.forth x (mem_cons_of_mem _ hx), fun x hx hxg y hedge => ?_, h.same, h.closed⟩
      · obtain ⟨y, hy, hle', hreach'⟩ := h.back x hx
        rcases mem_cons.1 hy with rfl | hy
        · obtain ⟨z, hz, hlez, hreachz⟩ := h.back u (hsub hu)
          rcases mem_cons.1 hz with rfl | hz
          · omega
          · exact ⟨z, hz, by omega, hreach'.trans (hreach.trans hreachz)⟩
        · exact ⟨y, hy, hle', hreach'⟩
      · by_cases hxn : x = n
        · subst hxn
          exact hs.doneVisited y (hdone y hedge)
        · refine h.black x hx ?_ y hedge
          rw [mem_cons, not_or]
          exact ⟨hxn, hxg⟩
    · rw [hstack, append_assoc]
      rfl
    · intro x hx y hy hedge
      rcases mem_append.1 hx with hx | hx
      · exact hcross x hx y hy hedge
      · rw [mem_singleton.1 hx] at hedge
        exact hs.doneLow y (hdone y hedge) hy

end

/-! ### The whole search -/

/-- The nodes that have not been visited. -/
def unvisited (g : DirectedGraph α) (visited : α → Bool) : Finset α :=
  g.nodes.toFinset.filter fun x => visited x = false

theorem unvisited_card_le (h : ∀ x, visited x = true → visited' x = true) :
    (unvisited g visited').card ≤ (unvisited g visited).card := by
  refine Finset.card_le_card fun x hx => ?_
  rw [unvisited, Finset.mem_filter] at hx ⊢
  refine ⟨hx.1, ?_⟩
  by_contra hvisited
  rw [h x (by simpa using hvisited)] at hx
  exact absurd hx.2 (by simp)

theorem unvisited_card_lt (hn : n ∈ g.nodes) (hnot : visited n = false) :
    (unvisited g (update visited n true)).card < (unvisited g visited).card := by
  refine Finset.card_lt_card (Finset.ssubset_iff_of_subset ?_ |>.2 ⟨n, ?_, ?_⟩)
  · intro x hx
    rw [unvisited, Finset.mem_filter, Function.update_apply] at hx
    split_ifs at hx
    · exact absurd hx.2 (by simp)
    · exact Finset.mem_filter.2 hx
  · exact Finset.mem_filter.2 ⟨mem_toFinset.2 hn, hnot⟩
  · rw [unvisited, Finset.mem_filter, update_self]
    simp

/-- What a node's functions do. -/
abbrev sccNode (n : α) (s : Search α) : NodeParam α (Search α) (Search α) (Search α) where
  value := s.start n
  nonTreeEdge := fun m s => s.nonTreeEdge n m
  treeEdge := fun m s => (s, fun s => s.finishEdge n m)
  finishNode := fun s => s.finishNode n

/-- A visit returns with more fuel than there are nodes to visit. By induction on the fuel, and then
over the edges of the node. -/
theorem visit_spec (fuel : ℕ) (h : Inv g gray visited s) (hn : n ∈ g.nodes)
    (hnot : visited n = false) (hgray : ∀ x ∈ gray, g.Reach x n)
    (hfuel : (unvisited g visited).card < fuel) : ∃ visited' s',
      visit g sccNode fuel n (visited, s) = some (visited', s') ∧ Inv g gray visited' s' ∧
        Left g n visited s visited' s' := by
  induction fuel generalizing n gray visited s with
  | zero => exact absurd hfuel (Nat.not_lt_zero _)
  | succ fuel ih =>
    obtain ⟨hinv, hscan⟩ := h.start hn hnot hgray
    have hlt := unvisited_card_lt hn hnot
    have hframe : Frame visited s (update visited n true) (s.start n) := by
      have hne {x : α} (hx : visited x = true) : x ≠ n := fun heq => by simp [heq, hnot] at hx
      refine ⟨fun x hx => ?_, fun x hx => update_of_ne (hne hx) _ _,
        fun x hx => update_of_ne (hne hx) _ _⟩
      rwa [update_of_ne (hne hx)]
    have hnumber : (s.start n).dfnumber n = s.count := update_self ..
    have hself : update visited n true n = true := update_self ..
    -- the edges one after the other
    have hfold (ms : List α) : ∀ (done : List α) (v : α → Bool) (t : Search α),
        (∀ m ∈ ms, g.Edge n m) → Inv g (n :: gray) v t → Scan g gray s.stack n done v t →
        Frame visited s v t → t.dfnumber n = s.count → v n = true →
        (unvisited g v).card < fuel → ∃ v' t',
          ms.foldlM (fun (st : (α → Bool) × Search α) m =>
            if st.1 m then some (st.1, st.2.nonTreeEdge n m)
            else (visit g sccNode fuel m (st.1, st.2)).map fun r => (r.1, r.2.finishEdge n m))
            (v, t) = some (v', t') ∧
          Inv g (n :: gray) v' t' ∧ Scan g gray s.stack n (ms.reverse ++ done) v' t' ∧
          Frame visited s v' t' ∧ t'.dfnumber n = s.count ∧ v' n = true := by
      induction ms with
      | nil => exact fun done v t _ hi hsc hf hnum hv _ => ⟨v, t, rfl, hi, hsc, hf, hnum, hv⟩
      | cons m ms ihms =>
        intro done v t hms hi hsc hf hnum hv hcard
        rw [forall_mem_cons] at hms
        rw [foldlM_cons, reverse_cons, append_assoc]
        by_cases hm : v m = true
        · have hsc' := hsc.nonTreeEdge hi hms.1 hm
          have hi' : Inv g (n :: gray) v (t.nonTreeEdge n m) := by
            rw [Search.nonTreeEdge_eq]
            exact hi.of_lowlink _
          have hf' : Frame visited s v (t.nonTreeEdge n m) := by
            rw [Search.nonTreeEdge_eq]
            exact hf.of_lowlink hnot _
          have hnum' : (t.nonTreeEdge n m).dfnumber n = s.count := by
            rw [Search.nonTreeEdge_eq]
            exact hnum
          rw [if_pos hm]
          exact ihms (m :: done) v _ hms.2 hi' hsc' hf' hnum' hv hcard
        · have hreach : ∀ x ∈ n :: gray, g.Reach x m := by
            intro x hx
            refine ReflTransGen.tail ?_ hms.1
            refine hi.forth x hx n (hi.grayOnStack n mem_cons_self) ?_
            rcases mem_cons.1 hx with rfl | hx
            · exact le_rfl
            · obtain ⟨above, hstack, -⟩ := hsc.stack
              exact ((hi.split hstack).2 x (hsc.grayBelow x hx)).le
          obtain ⟨v', t', hvisit, hi', hleft⟩ := ih hi (g.mem_of_succ n m hms.1).2 (by simpa using hm)
            hreach hcard
          have hsc' := hsc.finishEdge hi hleft hms.1
          have hi'' : Inv g (n :: gray) v' (t'.finishEdge n m) := by
            rw [Search.finishEdge_eq]
            exact hi'.of_lowlink _
          have hf' : Frame visited s v' (t'.finishEdge n m) := by
            rw [Search.finishEdge_eq]
            exact (hf.trans hleft.frame).of_lowlink hnot _
          have hnum' : (t'.finishEdge n m).dfnumber n = s.count := by
            rw [Search.finishEdge_eq]
            exact (hleft.frame.dfnumber n hv).trans hnum
          have hcard' := unvisited_card_le (g := g) hleft.frame.mono
          rw [if_neg hm, hvisit]
          exact ihms (m :: done) v' _ hms.2 hi'' hsc' hf' hnum' (hleft.frame.mono n hv) (by omega)
    obtain ⟨v', t', hrun, hi', hsc', hf', hnum', hv'⟩ := hfold (g.succ n) [] _ _ (fun m hm => hm) hinv
      hscan hframe hnumber hself (by omega)
    rw [append_nil] at hsc'
    obtain ⟨s', hfinish, hi'', hdf, hll, hstack⟩ := hsc'.finishNode hi' fun y hy =>
      mem_reverse.2 hy
    refine ⟨v', s', ?_, hi'', ⟨⟨hf'.mono, ?_, ?_⟩, hv', ?_, hstack, ?_⟩⟩
    · rw [visit]
      simp only [Option.bind_eq_bind]
      rw [hrun, Option.bind_some, hfinish]
      rfl
    · rw [hdf]
      exact hf'.dfnumber
    · rw [hll]
      exact hf'.lowlink
    · rw [hdf, hnum']
    · rw [hdf, hll]
      exact hsc'.low

/-- What `stronglyConnectedComponents` returns. -/
structure Ordered (g : DirectedGraph α) (cs : List (List α)) : Prop where
  components : g.Components cs
  /-- no node is in two components -/
  nodup : cs.flatten.Nodup
  /-- no edge leads from a component to an earlier one -/
  order : cs.Pairwise fun c c' => ∀ a ∈ c', ∀ b ∈ c, ¬g.Edge a b

omit [DecidableEq α] in
theorem Closed.pairwise {cs : List (List α)} (h : Closed g cs) (hnodup : cs.flatten.Nodup) :
    cs.Pairwise fun c c' => ∀ a ∈ c', ∀ b ∈ c, ¬g.Edge a b := by
  induction cs with
  | nil => exact .nil
  | cons c cs ih =>
    rw [flatten_cons, nodup_append] at hnodup
    refine .cons (fun c' hc' a ha b hb hedge => ?_) (ih h.2 hnodup.2.1)
    have hflatten := h.2.edge (mem_flatten.2 ⟨c', hc', ha⟩) hedge
    exact hnodup.2.2 b hb b hflatten rfl

section Mono

variable {β γ δ ε : Type}

theorem visit_mono {startNode : α → γ → NodeParam α γ δ ε} {fuel fuel' : ℕ} (hle : fuel ≤ fuel')
    {st : (α → Bool) × γ} {r : (α → Bool) × ε} (h : visit g startNode fuel n st = some r) :
    visit g startNode fuel' n st = some r := by
  induction fuel generalizing fuel' n st r with
  | zero => exact absurd h nofun
  | succ fuel ih =>
    obtain ⟨fuel', rfl⟩ := Nat.exists_eq_add_of_lt hle
    obtain ⟨visited, c⟩ := st
    rw [visit] at h ⊢
    obtain ⟨a, hfold, h⟩ := Option.bind_eq_some_iff.1 h
    refine Option.bind_eq_some_iff.2 ⟨a, foldlM_mono (fun m _ st st' hst => ?_) hfold, h⟩
    split_ifs at hst ⊢
    · exact hst
    · obtain ⟨r, hr, heq⟩ := Option.map_eq_some_iff.1 hst
      exact Option.map_eq_some_iff.2 ⟨r, ih (by omega) hr, heq⟩

theorem dfsNodes_mono {ns : List α} {b b' : β} {f : DfsParam α β γ δ ε} {fuel fuel' : ℕ}
    (hle : fuel ≤ fuel') (h : dfsNodes g ns b f fuel = some b') :
    dfsNodes g ns b f fuel' = some b' := by
  obtain ⟨a, hfold, h⟩ := Option.bind_eq_some_iff.1 h
  refine Option.bind_eq_some_iff.2 ⟨a, foldlM_mono (fun m _ st st' hst => ?_) hfold, h⟩
  split_ifs at hst ⊢
  · exact hst
  · obtain ⟨r, hr, heq⟩ := Option.map_eq_some_iff.1 hst
    exact Option.map_eq_some_iff.2 ⟨r, visit_mono hle hr, heq⟩

end Mono

omit [DecidableEq α] in
/-- Between trees nothing is on the stack. -/
theorem Inv.stack_nil (h : Inv g [] visited s) : s.stack = [] :=
  eq_nil_iff_forall_not_mem.2 fun x hx => by
    obtain ⟨y, hy, -⟩ := h.back x hx
    cases hy

/-- The components are returned, with more fuel than there are nodes. -/
theorem stronglyConnectedComponents_spec (g : DirectedGraph α) : ∃ cs,
    (∀ fuel, g.nodes.length < fuel → stronglyConnectedComponents g fuel = some cs) ∧
      Ordered g cs := by
  have hinit : Inv g [] (fun _ => false) (⟨0, [], [], fun _ => 0, fun _ => false, fun _ => 0⟩ :
      Search α) :=
    ⟨by simp, nodup_nil, nofun, .nil, nofun, nofun, nofun, nofun, nofun, nofun, nofun, trivial⟩
  -- the trees one after the other
  have hfold (ns : List α) : ∀ (visited : α → Bool) (s : Search α), (∀ n ∈ ns, n ∈ g.nodes) →
      Inv g [] visited s → ∃ visited' s',
        ns.foldlM (fun (st : (α → Bool) × Search α) n =>
          if st.1 n then some st
          else (visit g sccNode (g.nodes.length + 1) n (st.1, st.2)).map fun r => (r.1, r.2))
          (visited, s) = some (visited', s') ∧ Inv g [] visited' s' ∧
        (∀ x, visited x = true → visited' x = true) ∧ ∀ n ∈ ns, visited' n = true := by
    induction ns with
    | nil => exact fun visited s _ h => ⟨visited, s, rfl, h, fun _ hx => hx, nofun⟩
    | cons n ns ih =>
      intro visited s hns h
      rw [forall_mem_cons] at hns
      rw [foldlM_cons]
      by_cases hn : visited n = true
      · rw [if_pos hn]
        obtain ⟨v', s', hrun, h', hmono, hall⟩ := ih visited s hns.2 h
        exact ⟨v', s', hrun, h', hmono, forall_mem_cons.2 ⟨hmono n hn, hall⟩⟩
      · have hcard : (unvisited g visited).card < g.nodes.length + 1 :=
          Nat.lt_succ_of_le ((Finset.card_filter_le _ _).trans (toFinset_card_le _))
        obtain ⟨v₁, s₁, hvisit, h₁, hleft⟩ := visit_spec (g.nodes.length + 1) h hns.1
          (by simpa using hn) nofun hcard
        obtain ⟨v', s', hrun, h', hmono, hall⟩ := ih v₁ s₁ hns.2 h₁
        rw [if_neg hn, hvisit]
        exact ⟨v', s', hrun, h', fun x hx => hmono x (hleft.frame.mono x hx),
          forall_mem_cons.2 ⟨hmono n hleft.self, hall⟩⟩
  obtain ⟨visited, s, hrun, h, -, hall⟩ := hfold g.nodes _ _ (fun _ hn => hn) hinit
  have hnil := h.stack_nil
  have hdfs : dfs g ⟨0, [], [], fun _ => 0, fun _ => false, fun _ => 0⟩ sccParam
      (g.nodes.length + 1) = some s := by
    rw [dfs, dfsNodes]
    exact Option.bind_eq_some_iff.2 ⟨_, hrun, rfl⟩
  have hmem (x : α) : x ∈ s.components.flatten ↔ x ∈ g.nodes := by
    constructor
    · exact fun hx => h.mem x ((h.visited_iff x).2 (.inr hx))
    · intro hx
      have hx := (h.visited_iff x).1 (hall x hx)
      rw [hnil] at hx
      exact hx.resolve_left not_mem_nil
  have hnodup := (nodup_append.1 h.nodup).2.1
  refine ⟨s.components, fun fuel hfuel => ?_, ⟨?_, hnodup, h.closed.pairwise hnodup⟩⟩
  · rw [stronglyConnectedComponents, show dfs g _ sccParam fuel = some s from dfsNodes_mono hfuel hdfs]
    rfl
  · exact ⟨fun c hc => (h.same c hc).1, fun c hc => (nodup_flatten.1 hnodup).1 c hc, hmem,
      fun c hc => (h.same c hc).2⟩

/-! ### The components and the loop forest -/

/-- `stronglyConnectedComponents`, with turns for every node. -/
def components (g : DirectedGraph α) : List (List α) :=
  (stronglyConnectedComponents g (g.nodes.length + 1)).getD []

theorem components_spec (g : DirectedGraph α) :
    (∀ fuel, g.nodes.length < fuel → stronglyConnectedComponents g fuel = some (components g)) ∧
      Ordered g (components g) := by
  obtain ⟨cs, hcs, hordered⟩ := stronglyConnectedComponents_spec g
  have heq : components g = cs := by rw [components, hcs _ (Nat.lt_succ_self _), Option.getD_some]
  rw [heq]
  exact ⟨hcs, hordered⟩

omit [DecidableEq α] in
theorem entered_of_root {root : α} (hroot : ∀ a ∈ g.nodes, g.Reach root a) (marked : α → Bool)
    (hmarked : marked root = true) : g.Entered marked := by
  intro a ha
  refine ⟨root, ?_, .inl hmarked, hroot a ha⟩
  rcases ReflTransGen.cases_head (hroot a ha) with rfl | ⟨b, hb, -⟩
  · exact ha
  · exact (g.mem_of_succ root b hb).1

/-- The components are the sets of nodes that reach each other, and edges between them go to later
ones; and where everything is reachable from the root, the loop forest is made and is one of the
graph, with the root as though it were entered from outside. -/
theorem loopForest_exact (g : DirectedGraph α) :
    ((∀ fuel, g.nodes.length < fuel → stronglyConnectedComponents g fuel = some (components g)) ∧
      Ordered g (components g)) ∧
    ∀ root, (∀ a ∈ g.nodes, g.Reach root a) → ∃ f,
      (∀ fuel, g.nodes.length < fuel →
        treeFor components fuel (fun a => decide (a = root)) g = some f) ∧
      g.Nests (fun a => decide (a = root)) f := by
  refine ⟨components_spec g, fun root hroot => ?_⟩
  exact nests_of_treeFor (fun g => (components_spec g).2.components)
    (fun g => (components_spec g).2.nodup) (entered_of_root hroot _ (decide_eq_true rfl))

/-- Into the loop of `1` and `2` from `0`. -/
def entryLoop : DirectedGraph ℕ where
  nodes := [0, 1, 2]
  succ a := if a = 0 then [1] else if a = 1 then [2] else if a = 2 then [1] else []
  mem_of_succ a b hb := by
    split_ifs at hb with h0 h1 h2 <;> simp_all

theorem entryLoop_reach : ∀ a ∈ entryLoop.nodes, entryLoop.Reach 0 a := by
  have h1 : entryLoop.Reach 0 1 := .single (by simp [DirectedGraph.Edge, entryLoop])
  have h2 : entryLoop.Reach 0 2 := h1.tail (by simp [DirectedGraph.Edge, entryLoop])
  simpa [entryLoop] using ⟨ReflTransGen.refl, h1, h2⟩

theorem loopForest_exact_entryLoop :
    stronglyConnectedComponents entryLoop 4 = some [[0], [1, 2]] ∧
    ∃ f, treeFor components 4 (fun a => decide (a = 0)) entryLoop = some f ∧
      entryLoop.Nests (fun a => decide (a = 0)) f := by
  obtain ⟨f, hf, hnests⟩ := (loopForest_exact entryLoop).2 0 entryLoop_reach
  exact ⟨by decide, f, hf 4 (by decide), hnests⟩

end MultiMLton.Basic
