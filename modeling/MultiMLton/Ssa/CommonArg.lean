import MultiMLton.Basic.Dominators
import MultiMLton.Ssa.WellFormed
import MultiMLton.Ssa.Scope

/-!
# Common arguments

`eliminate` of `ssa/common-arg.fun`. A graph has an edge from each variable that a `goto` passes to the
formal that it is passed to, and from a root to whatever else may come. A formal whose immediate
dominator is another variable gets its value from that variable only: it is no formal any more, but
bound to the variable at the beginning of its block.

The root is `none`. The shrinker that runs over every function at the end is a parameter.
-/

namespace MultiMLton.Ssa.CommonArg

open MultiMLton.Basic MultiMLton.Lib List

abbrev Node := Option Var

section Graph

variable (P : Program)

/-- `labelArgs` -/
def labelArgs (l : Label) : List (Var × Ty) := ((P.block? l).map Block.args).getD []

/-- The variables for which `setVarInfo` makes nodes without edges. -/
def blockFormals : List Var := P.blocks.flatMap fun b => b.args.map Prod.fst

/-- `varNode` of any other variable makes a `newRootedNode`. -/
def varNode (v : Var) : List (Node × Node) := if v ∈ blockFormals P then [] else [(none, some v)]

/-- `flowVarVar` -/
def flowVarVar (v v' : Var) : List (Node × Node) :=
  varNode P v ++ varNode P v' ++ [(some v, some v')]

/-- `flowVarsLabelArgs` -/
def flowVarsLabelArgs (vs : List Var) (l : Label) : List (Node × Node) :=
  (vs.zip (labelArgs P l)).flatMap fun (v, (v', _)) => flowVarVar P v v'

def visitVar (v : Var) : List (Node × Node) := varNode P v ++ [(none, some v)]

def visitLabelArgs (l : Label) : List (Node × Node) :=
  (labelArgs P l).flatMap fun (v, _) => visitVar P v

/-- The edges for a transfer. -/
def flowTransfer : Transfer → List (Node × Node)
  | .arith _ _ overflow success _ => visitLabelArgs P overflow ++ visitLabelArgs P success
  | .bug => []
  | .call _ _ ret =>
    match ret with
    | .nonTail cont handler => visitLabelArgs P cont ++
      match handler with
      | .handle hand => visitLabelArgs P hand
      | .caller | .dead => []
    | .dead | .tail => []
  | .case _ cases default =>
    cases.labels.flatMap (visitLabelArgs P) ++ default.toList.flatMap (visitLabelArgs P)
  | .goto dst args => flowVarsLabelArgs P args dst
  | .raise _ => []
  | .ret _ => []
  | .runtime _ _ ret => visitLabelArgs P ret

def edges : List (Node × Node) := P.blocks.flatMap fun b => flowTransfer P b.transfer

/-- The graph after `removeDuplicateEdges`. -/
def graph : DirectedGraph Node where
  nodes := (none :: (blockFormals P).map some ++ (edges P).flatMap fun e => [e.1, e.2]).dedup
  succ n := (((edges P).filter fun e => e.1 = n).map Prod.snd).dedup
  mem_of_succ a b hb := by
    simp only [List.mem_dedup, List.mem_map, List.mem_filter, decide_eq_true_eq] at hb
    obtain ⟨e, ⟨he, rfl⟩, rfl⟩ := hb
    simp only [List.mem_dedup, List.mem_append, List.mem_cons, List.mem_flatMap]
    exact ⟨.inr ⟨e, he, by simp⟩, .inr ⟨e, he, by simp⟩⟩

end Graph

variable (P : Program) (idom : Node → IdomRes Node)

def getVar (v : Var) : Var :=
  match idom (some v) with
  | .idom none => v
  | .idom (some parent) => parent
  | .unreachable => v
  | .root => v

def keepVar (v : Var) : Bool := v = getVar idom v

/-- What is passed to the formals that are kept. -/
def keepArgs {β : Type} (formals : List (Var × Ty)) (args : List β) : List β :=
  (args.zip formals).filterMap fun (arg, (v, _)) => if keepVar idom v then some arg else none

/-- The block without the formals that are not kept. -/
def block (b : Block) : Block where
  args := b.args.filter fun a => keepVar idom a.1
  label := b.label
  statements :=
    ((b.args.filter fun a => !keepVar idom a.1).map fun a => ⟨some a.1, a.2, .var (getVar idom a.1)⟩)
      ++ b.statements
  transfer :=
    match b.transfer with
    | .goto dst args => .goto dst (keepArgs idom (labelArgs P dst) args)
    | t => t

def function (f : Function) : Function := { f with blocks := f.blocks.map (block P idom) }

/-- `eliminate` -/
def eliminate (shrink : List Statement → Function → Function) (fuel : ℕ) : Option Program := do
  let idom ← dominators (graph P) none fuel
  some (P.revMap fun f => shrink P.globals (function P idom f))

/-! ### Edges -/

section Edges

variable {P} {idom} {v v' x : Var} {l : Label} {t : Transfer}

theorem edge_iff {a b : Node} : (graph P).Edge a b ↔ (a, b) ∈ edges P := by
  simp only [DirectedGraph.Edge, graph, mem_dedup, mem_map, mem_filter,
    decide_eq_true_eq]
  constructor
  · rintro ⟨⟨a', b'⟩, ⟨he, rfl⟩, rfl⟩
    exact he
  · intro h
    exact ⟨(a, b), ⟨h, rfl⟩, rfl⟩

theorem none_mem_nodes : none ∈ (graph P).nodes := by simp [graph]

theorem labelArgs_of_block {b : Block} (hb : P.block? l = some b) : labelArgs P l = b.args := by
  rw [labelArgs, hb]
  rfl

theorem mem_visitLabelArgs (hv : v ∈ (labelArgs P l).map Prod.fst) :
    (none, some v) ∈ visitLabelArgs P l := by
  obtain ⟨a, ha, rfl⟩ := mem_map.1 hv
  exact List.mem_flatMap.2 ⟨a, ha, mem_append_right _ mem_cons_self⟩

/-- The formals of a label that something other than a `goto` leads to may get any values. -/
theorem rooted_of_labels (hl : l ∈ t.labels) (hgoto : ∀ args, t ≠ .goto l args)
    (hv : v ∈ (labelArgs P l).map Prod.fst) : (none, some v) ∈ flowTransfer P t := by
  have hvisit := mem_visitLabelArgs hv
  cases t with
  | arith p args overflow success ty =>
    simp only [Transfer.labels, List.mem_cons, List.not_mem_nil, or_false] at hl
    rcases hl with rfl | rfl
    · exact mem_append_left _ hvisit
    · exact mem_append_right _ hvisit
  | bug | raise | ret => cases hl
  | call g args r =>
    cases r with
    | dead | tail => cases hl
    | nonTail cont handler =>
      rcases List.mem_cons.1 hl with rfl | hl
      · exact mem_append_left _ hvisit
      · cases handler with
        | caller | dead => cases hl
        | handle l' =>
          rw [Handler.labels, mem_singleton] at hl
          subst hl
          exact mem_append_right _ hvisit
  | case test cases default =>
    rcases mem_append.1 hl with hl | hl
    · exact mem_append_left _ (List.mem_flatMap.2 ⟨l, hl, hvisit⟩)
    · exact mem_append_right _ (List.mem_flatMap.2 ⟨l, hl, hvisit⟩)
  | goto dst args =>
    rw [Transfer.labels, mem_singleton] at hl
    subst hl
    exact absurd rfl (hgoto args)
  | runtime p args l' =>
    rw [Transfer.labels, mem_singleton] at hl
    subst hl
    exact hvisit

/-- A `goto` passes variables to formals. -/
theorem edges_of_goto {args : List Var} {i : ℕ} {ty : Ty} (hv : args[i]? = some v)
    (hv' : (labelArgs P l)[i]? = some (v', ty)) :
    (some v, some v') ∈ flowTransfer P (.goto l args) ∧
      (v ∉ blockFormals P → (none, some v) ∈ flowTransfer P (.goto l args)) := by
  have hzip : (v, (v', ty)) ∈ args.zip (labelArgs P l) := by
    refine List.mem_iff_getElem?.2 ⟨i, ?_⟩
    rw [getElem?_zip_eq_some]
    exact ⟨hv, hv'⟩
  refine ⟨List.mem_flatMap.2 ⟨_, hzip, ?_⟩, fun hnot => List.mem_flatMap.2 ⟨_, hzip, ?_⟩⟩
  · simp [flowVarVar]
  · simp [flowVarVar, varNode, hnot]

theorem getVar_of_ne (h : getVar idom v ≠ v) : idom (some v) = .idom (some (getVar idom v)) := by
  rw [getVar] at h ⊢
  split at h
  · exact absurd rfl h
  · assumption
  · exact absurd rfl h
  · exact absurd rfl h

theorem keepVar_eq_false : keepVar idom v = false ↔ getVar idom v ≠ v := by
  rw [keepVar, decide_eq_false_iff_not, eq_comm]

theorem keepVar_eq_true : keepVar idom v = true ↔ getVar idom v = v := by
  rw [keepVar, decide_eq_true_eq, eq_comm]

end Edges

end MultiMLton.Ssa.CommonArg

/-!
## Common arguments are in scope

A formal's dominators in the graph over variables are bound before its block is entered, on every way
to it: along a way to a block the values of its formals come from the root by variables that are bound
on that way.

* `exists_flow`: where the value of a formal comes from on some way to its block;
* `boundBefore_of_varDom`: the dominators of a formal are bound before.
-/

namespace MultiMLton.Ssa.CommonArg

open MultiMLton.Basic MultiMLton.Lib

variable {P : Program} {Γ : Var → Ty} {f : Function} {a v x : Var} {p : List Label}

theorem mem_blockFormals : v ∈ blockFormals P ↔ ∃ b ∈ P.blocks, v ∈ b.formals := by
  simp [blockFormals, Block.formals]

/-- In the graph over variables all paths to `a` pass through `x`. -/
def VarDom (P : Program) (x a : Var) : Prop := Dominates (graph P).Edge none (some x) (some a)

/-- A variable with an edge from the root has no other dominator. -/
theorem VarDom.eq_of_rooted (h : VarDom P x a) (ha : (none, some a) ∈ edges P) : x = a := by
  have hmem := h [some a, none] (.step .root (edge_iff.2 ha))
  simpa using hmem

theorem VarDom.of_edge (h : VarDom P x a) (hne : x ≠ a) (hva : (some v, some a) ∈ edges P) :
    VarDom P x v :=
  Dominates.of_edge h (by simpa using hne) (edge_iff.2 hva)

section Typed

variable (h : P.WellTyped Γ) (hf : f ∈ P.functions) {b c : Block} (hb : b ∈ f.blocks)

include h hf hb

theorem labelArgs_eq : labelArgs P b.label = b.args :=
  labelArgs_of_block ((Program.block?_eq_some h).2 ⟨Program.mem_blocks.2 ⟨f, hf, hb⟩, rfl⟩)

omit h in
theorem edges_of_transfer {e : Node × Node} (he : e ∈ flowTransfer P b.transfer) : e ∈ edges P :=
  List.mem_flatMap.2 ⟨b, Program.mem_blocks.2 ⟨f, hf, hb⟩, he⟩

/-- What is passed to a formal of the block. -/
theorem goto_typed {args : List Var} (hc : c ∈ f.blocks)
    (ht : c.transfer = .goto b.label args) : args.map Γ = b.args.map Prod.snd := by
  have htyped := (h.functions f hf).transfers c hc
  rw [ht] at htyped
  obtain ⟨b', hb', -, hlabel, htypes⟩ := Program.exists_block_of_labelTypes h hf htyped
  obtain rfl := h.block_unique (Program.mem_blocks.2 ⟨f, hf, hb'⟩) (Program.mem_blocks.2 ⟨f, hf, hb⟩)
    hlabel
  exact htypes.symm

/-- Where the value of a formal comes from on a transfer to its block. -/
theorem flow_of_transfer (ha : a ∈ b.formals) (hc : c ∈ f.blocks)
    (hl : b.label ∈ c.transfer.labels) : (none, some a) ∈ edges P ∨
      ∃ v ∈ c.transfer.vars, (some v, some a) ∈ edges P ∧
        (v ∉ blockFormals P → (none, some v) ∈ edges P) := by
  by_cases hgoto : ∀ args, c.transfer ≠ .goto b.label args
  · refine .inl (edges_of_transfer hf hc (rooted_of_labels hl hgoto ?_))
    rw [labelArgs_eq h hf hb]
    exact ha
  · push Not at hgoto
    obtain ⟨args, ht⟩ := hgoto
    obtain ⟨i, hi⟩ := List.mem_iff_getElem?.1 ha
    rw [Block.formals, List.getElem?_map, Option.map_eq_some_iff] at hi
    obtain ⟨⟨a', ty⟩, hi, rfl⟩ := hi
    have hlen : args.length = b.args.length := by
      simpa using congrArg List.length (goto_typed h hf hb hc ht)
    have hlt : i < args.length := hlen ▸ (List.getElem?_eq_some_iff.1 hi).1
    have hv := List.getElem?_eq_getElem hlt
    have hi' := hi
    rw [← labelArgs_eq h hf hb] at hi'
    obtain ⟨h1, h2⟩ := edges_of_goto hv hi'
    rw [← ht] at h1 h2
    refine .inr ⟨args[i], ?_, edges_of_transfer hf hc h1,
      fun hnot => edges_of_transfer hf hc (h2 hnot)⟩
    rw [ht]
    exact List.getElem_mem hlt

end Typed

section Scoped

variable (h : P.WellTyped Γ) (hscoped : P.WellScoped) (hf : f ∈ P.functions)

include h hscoped hf

omit hscoped in
/-- A formal that is in scope, or bound in the block, is that of a block on the way. -/
theorem exists_formal {c : Block} (hc : c ∈ f.blocks) (hv : v ∈ blockFormals P)
    (hx : f.InScope P.globalVars c.label v ∨ v ∈ c.binds) :
    ∃ b ∈ f.blocks, v ∈ b.formals ∧ f.Dominates b.label c.label := by
  obtain ⟨b₀, hb₀, hv₀⟩ := mem_blockFormals.1 hv
  have hcP := Program.mem_blocks.2 ⟨f, hf, hc⟩
  have hb : b₀ ∈ f.blocks := by
    rcases hx with hx | hx
    · cases hx with
      | global hglobal => exact absurd hglobal (h.notMem_globalVars hb₀ (.inl hv₀))
      | arg harg => exact absurd harg (h.notMem_args hb₀ (.inl hv₀) hf)
      | formal b hb hvb _ =>
        rwa [h.bound_unique hb₀ (Program.mem_blocks.2 ⟨f, hf, hb⟩) (.inl hv₀) (.inl hvb)]
      | statement b hb hvb _ _ =>
        rwa [h.bound_unique hb₀ (Program.mem_blocks.2 ⟨f, hf, hb⟩) (.inl hv₀) (.inr hvb)]
    · rwa [h.bound_unique hb₀ hcP (.inl hv₀) (.inr hx)]
  exact ⟨b₀, hb, hv₀, h.dominates_of_formal hf hb hc hv₀ hx⟩

/-- The start has no formals, and every other block is entered from one before. By induction on the
way: the variable that is passed is bound on the way to that block, and if it is a formal, the way to
its own block is a beginning of that way. -/
theorem exists_flow {b : Block} (hb : b ∈ f.blocks) (hp : PathTo f.Edge f.start p b.label)
    (ha : a ∈ b.formals) : ∃ q, PathTo (graph P).Edge none q (some a) ∧
      ∀ x, some x ∈ q → x = a ∨ f.BoundOn P.globalVars p.tail x := by
  induction hn : p.length using Nat.strong_induction_on generalizing p b a with
  | _ n ih =>
    generalize hl : b.label = l at hp
    cases hp with
    | root =>
      obtain ⟨b', hb', hlabel, hargs⟩ := h.exists_start hf
      obtain rfl := h.block_unique (Program.mem_blocks.2 ⟨f, hf, hb⟩)
        (Program.mem_blocks.2 ⟨f, hf, hb'⟩) (hl.trans hlabel.symm)
      rw [Block.formals, hargs] at ha
      cases ha
    | @step p k _ path hedge =>
      obtain ⟨c, hc, rfl, hlabel⟩ := hedge
      rw [← hl] at hlabel
      rcases flow_of_transfer h hf hb ha hc hlabel with hroot | ⟨v, hv, hva, hroot⟩
      · refine ⟨[some a, none], .step .root (edge_iff.2 hroot), fun x hx => .inl ?_⟩
        simpa using hx
      have hscope := (hscoped.functions f hf).transfers c hc
        (pathTo_iff_reach.1 ⟨p, path⟩) v hv
      have hbound : f.BoundOn P.globalVars p v := by
        rcases hscope with hscope | hbind
        · exact hscope.boundOn path
        · exact .block c hc (.inr hbind) path.mem
      by_cases hformal : v ∈ blockFormals P
      · obtain ⟨b', hb', hv', hdom⟩ := exists_formal h hf hc hformal hscope
        obtain ⟨p', hsuffix, hp'⟩ := path.of_mem (hdom p path)
        have hle := hsuffix.length_le
        rw [List.length_cons] at hn
        obtain ⟨q, hq, hall⟩ := ih p'.length (by omega) hb' hp' hv' rfl
        refine ⟨some a :: q, .step hq (edge_iff.2 hva), fun x hx => ?_⟩
        rcases List.mem_cons.1 hx with hx | hx
        · exact .inl (Option.some.inj hx)
        · rcases hall x hx with rfl | hx
          · exact .inr hbound
          · exact .inr (hx.mono fun l hl => hsuffix.subset (List.mem_of_mem_tail hl))
      · refine ⟨[some a, some v, none],
          .step (.step .root (edge_iff.2 (hroot hformal))) (edge_iff.2 hva), fun x hx => ?_⟩
        simp only [List.mem_cons, Option.some.injEq, List.not_mem_nil, or_false] at hx
        rcases hx with rfl | rfl | hx
        · exact .inl rfl
        · exact .inr hbound
        · cases hx

/-- The dominators of a formal are bound before its block is entered. -/
theorem boundBefore_of_varDom {b : Block} (hb : b ∈ f.blocks) (hreach : f.Reaches b.label)
    (ha : a ∈ b.formals) (hx : VarDom P x a) (hne : x ≠ a) :
    f.BoundBefore P.globalVars b.label x := by
  refine h.boundBefore hf hreach fun p hp => ?_
  obtain ⟨q, hq, hall⟩ := exists_flow h hscoped hf hb hp ha
  exact (hall x (hx q hq)).resolve_left hne

omit hscoped in
/-- They are not bound in that block. -/
theorem notMem_formals_of_boundBefore {b : Block} (hb : b ∈ f.blocks)
    (hx : f.BoundBefore P.globalVars b.label x) : x ∉ b.formals ∧ x ∉ b.binds := by
  have hbP := Program.mem_blocks.2 ⟨f, hf, hb⟩
  rw [← not_or]
  intro hmem
  cases hx with
  | global hg => exact h.notMem_globalVars hbP hmem hg
  | arg hg => exact h.notMem_args hbP hmem hf hg
  | block b' hb' hx' _ hne =>
    exact hne (congrArg Block.label (h.bound_unique (Program.mem_blocks.2 ⟨f, hf, hb'⟩) hbP hx' hmem))

end Scoped

end MultiMLton.Ssa.CommonArg
