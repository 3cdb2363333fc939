import MultiMLton.Lib.Dominance
import MultiMLton.Ssa.TypeCheck

/-!
# Scopes

What `checkScopes` of `ssa/type-check.fun` asks of the uses of variables. It descends the dominator
tree of each function, so a variable is in scope in the blocks that its definition dominates, and
blocks that cannot be reached are not looked at.
-/

namespace MultiMLton.Ssa

open MultiMLton.Lib List

namespace Block

/-- The variables that a block binds when it is entered. -/
def formals (b : Block) : List Var := b.args.map Prod.fst

/-- The variables that the statements of a block define. -/
def binds (b : Block) : List Var := b.statements.filterMap Statement.var

end Block

namespace Function

variable (f : Function)

/-- A transfer of block `l` leads to `l'`. -/
def Edge (l l' : Label) : Prop := ∃ b ∈ f.blocks, b.label = l ∧ l' ∈ b.transfer.labels

def Reaches (l : Label) : Prop := Relation.ReflTransGen f.Edge f.start l

/-- Every way from the start to `l` passes through `d`. -/
def Dominates (d l : Label) : Prop := Lib.Dominates f.Edge f.start d l

/-- A variable is in scope in block `l`, before its statements. -/
inductive InScope (globals : List Var) (l : Label) (x : Var) : Prop
  | global (h : x ∈ globals)
  | arg (h : x ∈ f.args.map Prod.fst)
  | formal (b : Block) (hb : b ∈ f.blocks) (hx : x ∈ b.formals) (hdom : f.Dominates b.label l)
  | statement (b : Block) (hb : b ∈ f.blocks) (hx : x ∈ b.binds) (hdom : f.Dominates b.label l)
    (hne : b.label ≠ l)

/-- A variable is bound before block `l` is entered. -/
inductive BoundBefore (globals : List Var) (l : Label) (x : Var) : Prop
  | global (h : x ∈ globals)
  | arg (h : x ∈ f.args.map Prod.fst)
  | block (b : Block) (hb : b ∈ f.blocks) (hx : x ∈ b.formals ∨ x ∈ b.binds)
    (hdom : f.Dominates b.label l) (hne : b.label ≠ l)

/-- A variable is bound on a way through some blocks. -/
inductive BoundOn (globals : List Var) (p : List Label) (x : Var) : Prop
  | global (h : x ∈ globals)
  | arg (h : x ∈ f.args.map Prod.fst)
  | block (b : Block) (hb : b ∈ f.blocks) (hx : x ∈ b.formals ∨ x ∈ b.binds) (hp : b.label ∈ p)

/-- The uses in the blocks that can be reached are in scope. -/
structure WellScoped (globals : List Var) : Prop where
  statements : ∀ b ∈ f.blocks, f.Reaches b.label → ∀ pre s post, b.statements = pre ++ s :: post →
    ∀ x ∈ s.exp.vars, f.InScope globals b.label x ∨ x ∈ pre.filterMap Statement.var
  transfers : ∀ b ∈ f.blocks, f.Reaches b.label → ∀ x ∈ b.transfer.vars,
    f.InScope globals b.label x ∨ x ∈ b.binds

end Function

namespace Program

/-- The variables of the globals. -/
def globalVars (P : Program) : List Var := P.globals.filterMap Statement.var

structure WellScoped (P : Program) : Prop where
  globals : ∀ pre s post, P.globals = pre ++ s :: post →
    ∀ x ∈ s.exp.vars, x ∈ pre.filterMap Statement.var
  functions : ∀ f ∈ P.functions, f.WellScoped P.globalVars

end Program

/-! ### Scopes and ways -/

namespace Function

variable {f : Function} {globals : List Var} {l : Label} {x : Var} {p : List Label}

theorem BoundBefore.inScope (hx : f.BoundBefore globals l x) : f.InScope globals l x := by
  cases hx with
  | global h => exact .global h
  | arg h => exact .arg h
  | block b hb hx hdom hne =>
    rcases hx with hx | hx
    · exact .formal b hb hx hdom
    · exact .statement b hb hx hdom hne

/-- What is in scope has been bound on every way. -/
theorem InScope.boundOn (hx : f.InScope globals l x) (hp : PathTo f.Edge f.start p l) :
    f.BoundOn globals p x := by
  cases hx with
  | global h => exact .global h
  | arg h => exact .arg h
  | formal b hb hx hdom => exact .block b hb (.inl hx) (hdom p hp)
  | statement b hb hx hdom _ => exact .block b hb (.inr hx) (hdom p hp)

theorem BoundOn.mono {p' : List Label} (hx : f.BoundOn globals p x) (hp : p ⊆ p') :
    f.BoundOn globals p' x := by
  cases hx with
  | global h => exact .global h
  | arg h => exact .arg h
  | block b hb hx hmem => exact .block b hb hx (hp hmem)

end Function

/-! ### Where variables are bound -/

namespace Program

variable {P : Program} {Γ : Var → Ty}

theorem mem_defs {x : Var} : x ∈ P.defs ↔ x ∈ P.globalVars ∨
    (∃ xs ∈ P.formalLists, x ∈ xs.map Prod.fst) ∨ ∃ b ∈ P.blocks, x ∈ b.binds := by
  simp only [defs, globalVars, Block.binds, mem_append, mem_flatMap, or_assoc]

/-- The variables of a program, function by function and block by block. -/
theorem defs_perm (P : Program) : P.defs.Perm (P.globalVars ++ P.functions.flatMap fun f =>
    f.args.map Prod.fst ++ f.blocks.flatMap fun b => b.formals ++ b.binds) := by
  have hformals : P.formalLists.flatMap (fun xs => xs.map Prod.fst) =
      P.functions.flatMap fun f => f.args.map Prod.fst ++ f.blocks.flatMap Block.formals := by
    rw [formalLists, flatMap_assoc]
    refine flatMap_congr fun f _ => ?_
    rw [flatMap_cons, flatMap_map]
    rfl
  have hbinds : P.blocks.flatMap Block.binds =
      P.functions.flatMap fun f => f.blocks.flatMap Block.binds := by
    rw [blocks, flatMap_assoc]
  show (P.globalVars ++ P.formalLists.flatMap (fun xs => xs.map Prod.fst) ++
    P.blocks.flatMap Block.binds).Perm _
  rw [hformals, hbinds, append_assoc]
  refine List.Perm.append_left _ ((flatMap_append_perm _ _ _).trans ?_)
  refine List.Perm.flatMap_left _ fun f _ => ?_
  rw [append_assoc]
  exact List.Perm.append_left _ (flatMap_append_perm _ _ _)

theorem eq_of_mem_flatMap {α β : Type} {g : α → List β} {l : List α} (hl : (l.flatMap g).Nodup)
    {a a' : α} (ha : a ∈ l) (ha' : a' ∈ l) {x : β} (hx : x ∈ g a) (hx' : x ∈ g a') : a = a' := by
  by_contra hne
  have hpair := (nodup_flatMap.1 hl).2
  have : Std.Symm (Function.onFun List.Disjoint g) := ⟨fun _ _ hab => List.Disjoint.symm hab⟩
  exact List.Pairwise.forall hpair ha ha' hne hx hx'

section

variable (h : P.WellTyped Γ)

include h

/-- No variable is bound twice in blocks. -/
theorem WellTyped.blocks_nodup : (P.blocks.flatMap fun b => b.formals ++ b.binds).Nodup := by
  have hsub : (P.blocks.flatMap Block.formals).Sublist
      (P.formalLists.flatMap fun xs => xs.map Prod.fst) := by
    rw [blocks, formalLists, flatMap_assoc, flatMap_assoc]
    refine List.Sublist.flatMap_right _ fun f _ => ?_
    rw [flatMap_cons, flatMap_map]
    exact sublist_append_right _ _
  have hdefs := h.defs
  rw [Program.defs, append_assoc] at hdefs
  refine (flatMap_append_perm P.blocks Block.formals Block.binds).nodup_iff.1 ?_
  exact (nodup_append.1 hdefs).2.1.sublist (hsub.append (List.Sublist.refl _))

/-- A variable is bound in one block only. -/
theorem WellTyped.bound_unique {b b' : Block} (hb : b ∈ P.blocks)
    (hb' : b' ∈ P.blocks) {x : Var} (hx : x ∈ b.formals ∨ x ∈ b.binds)
    (hx' : x ∈ b'.formals ∨ x ∈ b'.binds) : b = b' :=
  eq_of_mem_flatMap h.blocks_nodup hb hb' (mem_append.2 hx) (mem_append.2 hx')

/-- What a block binds is no global. -/
theorem WellTyped.notMem_globalVars {b : Block} (hb : b ∈ P.blocks) {x : Var}
    (hx : x ∈ b.formals ∨ x ∈ b.binds) : x ∉ P.globalVars := by
  intro hglobal
  have hdefs := h.defs
  rw [Program.defs, append_assoc] at hdefs
  refine (nodup_append.1 hdefs).2.2 x hglobal x ?_ rfl
  rcases hx with hx | hx
  · obtain ⟨f, hf, hb⟩ := mem_blocks.1 hb
    exact mem_append_left _ (mem_flatMap.2 ⟨b.args, formals_mem_formalLists hf hb, hx⟩)
  · exact mem_append_right _ (mem_flatMap.2 ⟨b, hb, hx⟩)

/-- What a block binds is no argument of a function. -/
theorem WellTyped.notMem_args {b : Block} (hb : b ∈ P.blocks) {x : Var}
    (hx : x ∈ b.formals ∨ x ∈ b.binds) {f : Function} (hf : f ∈ P.functions) :
    x ∉ f.args.map Prod.fst := by
  intro harg
  rcases hx with hx | hx
  · have hargs : ((f.args.map Prod.fst) ++ f.blocks.flatMap Block.formals).Nodup := by
      have hdefs := (nodup_append.1 (nodup_append.1 h.defs).1).2.1
      rw [formalLists, flatMap_assoc] at hdefs
      have hf := (nodup_flatMap.1 hdefs).1 f hf
      rw [flatMap_cons, flatMap_map] at hf
      exact hf
    obtain ⟨g, hg, hbg⟩ := mem_blocks.1 hb
    have hxs := formals_unique h (args_mem_formalLists hf) (formals_mem_formalLists hg hbg) harg hx
    by_cases hfg : f = g
    · subst hfg
      exact (nodup_append.1 hargs).2.2 x harg x (mem_flatMap.2 ⟨b, hbg, hx⟩) rfl
    · have hdefs := (nodup_append.1 (nodup_append.1 h.defs).1).2.1
      rw [formalLists, flatMap_assoc] at hdefs
      refine hfg (eq_of_mem_flatMap hdefs hf hg (x := x) ?_ ?_)
      · exact mem_flatMap.2 ⟨f.args, mem_cons_self, harg⟩
      · exact mem_flatMap.2 ⟨b.args, mem_cons_of_mem _ (mem_map_of_mem hbg), hx⟩
  · obtain ⟨s, hs, hsx⟩ := mem_filterMap.1 hx
    exact notMem_formals_of_statement h hb hs hsx (args_mem_formalLists hf) harg

theorem WellTyped.formals_disjoint_binds {b : Block} (hb : b ∈ P.blocks)
    {x : Var} (hx : x ∈ b.formals) : x ∉ b.binds := by
  intro hbind
  have hnodup := (nodup_flatMap.1 h.blocks_nodup).1 b hb
  exact (nodup_append.1 hnodup).2.2 x hx x hbind rfl

variable {f : Function} {l : Label} {x : Var}

/-- A formal that is in scope is that of a block on every way. -/
theorem WellTyped.dominates_of_formal (hf : f ∈ P.functions) {b c : Block}
    (hb : b ∈ f.blocks) (hc : c ∈ f.blocks) (hx : x ∈ b.formals)
    (hscope : f.InScope P.globalVars c.label x ∨ x ∈ c.binds) : f.Dominates b.label c.label := by
  have hbP := mem_blocks.2 ⟨f, hf, hb⟩
  have hbinds {c : Block} (hc : c ∈ f.blocks) : x ∉ c.binds := by
    intro hmem
    obtain rfl := h.bound_unique hbP (mem_blocks.2 ⟨f, hf, hc⟩) (.inl hx) (.inr hmem)
    exact h.formals_disjoint_binds hbP hx hmem
  rcases hscope with hscope | hmem
  · cases hscope with
    | global hg => exact absurd hg (h.notMem_globalVars hbP (.inl hx))
    | arg ha => exact absurd ha (h.notMem_args hbP (.inl hx) hf)
    | formal d hd hxd hdom =>
      obtain rfl := h.bound_unique hbP (mem_blocks.2 ⟨f, hf, hd⟩) (.inl hx) (.inl hxd)
      exact hdom
    | statement d hd hxd _ _ => exact absurd hxd (hbinds hd)
  · exact absurd hmem (hbinds hc)

/-- What has been bound on every way to a block is bound before it. -/
theorem WellTyped.boundBefore (hf : f ∈ P.functions) (hl : f.Reaches l)
    (hx : ∀ p, PathTo f.Edge f.start p l → f.BoundOn P.globalVars p.tail x) :
    f.BoundBefore P.globalVars l x := by
  obtain ⟨p, hp⟩ := pathTo_iff_reach.2 hl
  obtain ⟨p, hp, hfirst⟩ := hp.exists_first
  cases hx p hp with
  | global h => exact .global h
  | arg h => exact .arg h
  | block b hb hxb hmem =>
    refine .block b hb hxb (fun q hq => ?_) fun heq => hfirst (heq ▸ hmem)
    have hbP := mem_blocks.2 ⟨f, hf, hb⟩
    cases hx q hq with
    | global hg => exact absurd hg (h.notMem_globalVars hbP hxb)
    | arg ha => exact absurd ha (h.notMem_args hbP hxb hf)
    | block b' hb' hxb' hmem' =>
      obtain rfl := h.bound_unique hbP (mem_blocks.2 ⟨f, hf, hb'⟩) hxb hxb'
      exact mem_of_mem_tail hmem'

/-- The labels of a transfer are those of blocks of the function. -/
theorem WellTyped.exists_block {f : Function} (hf : f ∈ P.functions)
    {b : Block} (hb : b ∈ f.blocks) {l : Label} (hl : l ∈ b.transfer.labels) :
    ∃ b' ∈ f.blocks, b'.label = l := by
  have hsome (hl : (f.labelTypes l).isSome) : ∃ b' ∈ f.blocks, b'.label = l := by
    obtain ⟨ts, hts⟩ := Option.isSome_iff_exists.1 hl
    obtain ⟨b', hb', -, hlabel, -⟩ := exists_block_of_labelTypes h hf hts
    exact ⟨b', hb', hlabel⟩
  have htyped := (h.functions f hf).transfers b hb
  cases ht : b.transfer with
  | arith p args overflow success ty =>
    rw [ht] at htyped hl
    obtain ⟨hoverflow, hsuccess, -⟩ := htyped
    simp only [Transfer.labels, mem_cons, not_mem_nil, or_false] at hl
    rcases hl with rfl | rfl
    · exact hsome (by rw [hoverflow]; rfl)
    · exact hsome (by rw [hsuccess]; rfl)
  | bug | raise | ret =>
    rw [ht] at hl
    cases hl
  | call g args r =>
    rw [ht] at htyped hl
    obtain ⟨g', -, -, hr⟩ := htyped
    cases r with
    | dead | tail => cases hl
    | nonTail cont handler =>
      obtain ⟨hcont, -, hhandler⟩ := hr
      rcases mem_cons.1 hl with rfl | hl
      · exact hsome hcont
      · cases handler with
        | caller | dead => cases hl
        | handle l' =>
          rw [Handler.labels, mem_singleton] at hl
          subst hl
          exact hsome hhandler.1
  | case test cases default =>
    rw [ht] at htyped hl
    obtain ⟨hcases, hdefault⟩ := htyped
    rcases mem_append.1 hl with hl | hl
    · cases cases with
      | con cs =>
        obtain ⟨c, hc, rfl⟩ := mem_map.1 hl
        obtain ⟨d, -, -, -, hlabels, -⟩ := hcases
        obtain ⟨ts, -, hts⟩ := hlabels c hc
        exact hsome (by rw [hts]; rfl)
      | word s cs =>
        obtain ⟨c, hc, rfl⟩ := mem_map.1 hl
        obtain ⟨-, -, -, hlabels⟩ := hcases
        exact hsome (by rw [hlabels c hc]; rfl)
    · exact hsome (by rw [hdefault l (Option.mem_toList.1 hl)]; rfl)
  | goto dst args =>
    rw [ht] at htyped hl
    rw [Transfer.labels, mem_singleton] at hl
    subst hl
    exact hsome (by rw [show f.labelTypes l = _ from htyped]; rfl)
  | runtime p args l' =>
    rw [ht] at htyped hl
    obtain ⟨ts, hts, -⟩ := htyped
    rw [Transfer.labels, mem_singleton] at hl
    subst hl
    exact hsome (by rw [hts]; rfl)

theorem WellTyped.exists_start {f : Function} (hf : f ∈ P.functions) :
    ∃ b ∈ f.blocks, b.label = f.start ∧ b.args = [] := by
  obtain ⟨b, hb, -, hlabel, htypes⟩ := exists_block_of_labelTypes h hf (h.functions f hf).start
  exact ⟨b, hb, hlabel, by simpa using htypes⟩

theorem WellTyped.exists_block_of_reaches {f : Function} (hf : f ∈ P.functions)
    {l : Label} (hl : f.Reaches l) : ∃ b ∈ f.blocks, b.label = l := by
  cases hl with
  | refl =>
    obtain ⟨b, hb, hlabel, -⟩ := h.exists_start hf
    exact ⟨b, hb, hlabel⟩
  | tail _ hedge =>
    obtain ⟨b, hb, -, hl⟩ := hedge
    exact h.exists_block hf hb hl

/-- Blocks with one label are one block. -/
theorem WellTyped.block_unique {b b' : Block} (hb : b ∈ P.blocks)
    (hb' : b' ∈ P.blocks) (hl : b.label = b'.label) : b = b' :=
  inj_on_of_nodup_map h.labels hb hb' hl

/-- A label is that of a block of one function only. -/
theorem WellTyped.function_unique {f f' : Function} (hf : f ∈ P.functions)
    (hf' : f' ∈ P.functions) {b b' : Block} (hb : b ∈ f.blocks) (hb' : b' ∈ f'.blocks)
    (hl : b.label = b'.label) : f = f' := by
  have hlabels := h.labels
  rw [blocks, map_flatMap] at hlabels
  exact eq_of_mem_flatMap hlabels hf hf' (mem_map_of_mem hb) (hl ▸ mem_map_of_mem hb')

end

end Program

end MultiMLton.Ssa
