import MultiMLton.Ssa.Tree

/-!
# Well-typed SSA programs

What `ssa/type-check.fun` and the traversal of `ssa/analyze.fun` behind it ask of a program: every
variable, label and function is bound once, every list of variables has the types of the formals it
is passed to, the cases of a transfer are those of the datatype, and calls, returns, raises and
handlers fit together. Primitives are checked as `Prim.checkApp` does, as far as passes ask for them.

The types of variables are given by a function `Γ`, which is what the annotations at their bindings
make of them.
-/

namespace MultiMLton.Ssa

open MultiMLton.Atoms List

/-- `Type.ofConst` -/
def Ty.ofConst : Const → Ty
  | .intInf _ => intInf
  | .null => cpointer
  | .real r => real r.size.bits
  | .word w => word w.size
  | .wordVector v => vector (word v.elementSize)

/-- `Type.checkPrimApp`, for arguments of types `args`. -/
def checkPrimApp (prim : Prim) (targs args : List Ty) (result : Ty) : Prop :=
  match prim with
  | .mltonEq | .mltonEqual => ∃ t, targs = [t] ∧ args = [t, t] ∧ result = .bool
  | .wordAdd s | .wordAddCheck s _ | .wordAndb s | .wordMul s _ | .wordMulCheck s _ | .wordOrb s
  | .wordQuot s _ | .wordRem s _ | .wordSub s | .wordSubCheck s _ | .wordXorb s =>
    targs = [] ∧ args = [.word s, .word s] ∧ result = .word s
  | .wordEqual s | .wordLt s _ => targs = [] ∧ args = [.word s, .word s] ∧ result = .bool
  | .wordNeg s | .wordNegCheck s | .wordNotb s => targs = [] ∧ args = [.word s] ∧ result = .word s
  | .other .mltonBogus => targs = [result] ∧ args = []
  | .other .refRef => ∃ t, targs = [t] ∧ args = [t] ∧ result = .ref t
  | .other .refDeref => ∃ t, targs = [t] ∧ args = [.ref t] ∧ result = t
  | .other .refAssign => ∃ t, targs = [t] ∧ args = [.ref t, t] ∧ result = .unit
  | _ => True

variable (P : Program) (Γ : Var → Ty)

/-- The type of an expression can be `t`. -/
def Exp.HasType (t : Ty) : Exp → Prop
  | .conApp c args => ∃ d ∈ P.datatypes, (c, args.map Γ) ∈ d.cons ∧ t = .datatype d.tycon
  | .const c => t = .ofConst c
  | .primApp p targs args => checkPrimApp p targs (args.map Γ) t
  | .profile => t = .unit
  | .select i x => ∃ ts, Γ x = .tuple ts ∧ ts[i]? = some t
  | .tuple xs => t = .tuple (xs.map Γ)
  | .var x => t = Γ x

structure Statement.WellTyped (s : Statement) : Prop where
  exp : s.exp.HasType P Γ s.ty
  var : ∀ x, s.var = some x → Γ x = s.ty

namespace Function

/-- The types of the formals of a label. -/
def labelTypes (f : Function) (l : Label) : Option (List Ty) :=
  (f.blocks.find? (·.label = l)).map fun b => b.args.map Prod.snd

/-- A call of `g` in `f`. -/
def ReturnTyped (f g : Function) : Return → Prop
  | .dead => g.returns = none ∧ g.raises = none
  | .nonTail cont handler =>
    (f.labelTypes cont).isSome ∧ (∀ ts, g.returns = some ts → f.labelTypes cont = some ts) ∧
      match handler with
      | .caller => ∀ ts, g.raises = some ts → f.raises = some ts
      | .dead => g.raises = none
      | .handle h =>
        (f.labelTypes h).isSome ∧ ∀ ts, g.raises = some ts → f.labelTypes h = some ts
  | .tail =>
    (∀ ts, g.raises = some ts → f.raises = some ts) ∧
      ∀ ts, g.returns = some ts → f.returns = some ts

/-- The cases of a transfer: no branch is redundant, and there is a default if and only if the
branches are not exhaustive. -/
def CasesTyped (f : Function) (test : Var) (default : Option Label) : Cases → Prop
  | .con cs => ∃ d ∈ P.datatypes, Γ test = .datatype d.tycon ∧ (cs.map Prod.fst).Nodup ∧
      (∀ c ∈ cs, ∃ ts, (c.1, ts) ∈ d.cons ∧ f.labelTypes c.2 = some ts) ∧
      (default = none ↔ ∀ c ∈ d.cons, c.1 ∈ cs.map Prod.fst)
  | .word s cs => Γ test = .word s ∧ (cs.map Prod.fst).Nodup ∧ default ≠ none ∧
      ∀ c ∈ cs, f.labelTypes c.2 = some []

def TransferTyped (f : Function) : Transfer → Prop
  | .arith p args overflow success ty => f.labelTypes overflow = some [] ∧
      f.labelTypes success = some [ty] ∧ checkPrimApp p [] (args.map Γ) ty
  | .bug => True
  | .call g args r => ∃ g', P.func? g = some g' ∧ args.map Γ = g'.args.map Prod.snd ∧
      f.ReturnTyped g' r
  | .case test cases default => f.CasesTyped P Γ test default cases ∧
      ∀ l, default = some l → f.labelTypes l = some []
  | .goto dst args => f.labelTypes dst = some (args.map Γ)
  | .raise xs => f.raises = some (xs.map Γ)
  | .ret xs => f.returns = some (xs.map Γ)
  | .runtime _ _ l => ∃ ts, f.labelTypes l = some ts ∧ ts.length ≤ 1

structure WellTyped (f : Function) : Prop where
  args : ∀ x ∈ f.args, Γ x.1 = x.2
  formals : ∀ b ∈ f.blocks, ∀ x ∈ b.args, Γ x.1 = x.2
  statements : ∀ b ∈ f.blocks, ∀ s ∈ b.statements, s.WellTyped P Γ
  transfers : ∀ b ∈ f.blocks, f.TransferTyped P Γ b.transfer
  start : f.labelTypes f.start = some []

end Function

namespace Program

structure WellTyped : Prop where
  defs : P.defs.Nodup
  labels : (P.blocks.map Block.label).Nodup
  funcs : (P.functions.map Function.name).Nodup
  main : ∃ f, P.func? P.main = some f ∧ f.args = []
  globals : ∀ s ∈ P.globals, s.WellTyped P Γ
  functions : ∀ f ∈ P.functions, f.WellTyped P Γ

end Program

/-! ### Lookups -/

theorem find?_key {β : Type} {key : β → ℕ} {l : List β} {k : ℕ} {a : β}
    (h : l.find? (fun b => key b = k) = some a) : a ∈ l ∧ key a = k :=
  ⟨mem_of_find?_eq_some h, by simpa using find?_some h⟩

/-- Where keys are not shared, the element with a key is found. -/
theorem find?_key_iff {β : Type} {key : β → ℕ} {l : List β} (hl : (l.map key).Nodup) {k : ℕ}
    {a : β} : l.find? (fun b => key b = k) = some a ↔ a ∈ l ∧ key a = k := by
  refine ⟨find?_key, ?_⟩
  rintro ⟨ha, rfl⟩
  cases hfind : l.find? (fun b => key b = key a) with
  | none =>
    have := find?_eq_none.1 hfind a ha
    simp at this
  | some b =>
    obtain ⟨hb, hkey⟩ := find?_key hfind
    rw [inj_on_of_nodup_map hl hb ha hkey]

namespace Program

variable {P Γ}

theorem func?_eq_some (h : P.WellTyped Γ) {f : Function} {n : Func} :
    P.func? n = some f ↔ f ∈ P.functions ∧ f.name = n := find?_key_iff h.funcs

/-- A variable is among one list of formals only. -/
theorem formals_unique (h : P.WellTyped Γ) {xs ys : List (Var × Ty)} (hxs : xs ∈ P.formalLists)
    (hys : ys ∈ P.formalLists) {x : Var} (hx : x ∈ xs.map Prod.fst) (hy : x ∈ ys.map Prod.fst) :
    xs = ys := by
  have hdefs := (nodup_append.1 (nodup_append.1 h.defs).1).2.1
  by_contra hne
  have hpair := (nodup_flatMap.1 hdefs).2
  have : Std.Symm (Function.onFun List.Disjoint fun zs : List (Var × Ty) => zs.map Prod.fst) :=
    ⟨fun _ _ hab => List.Disjoint.symm hab⟩
  exact List.Pairwise.forall hpair hxs hys hne hx hy

theorem formals_nodup (h : P.WellTyped Γ) {xs : List (Var × Ty)} (hxs : xs ∈ P.formalLists) :
    (xs.map Prod.fst).Nodup :=
  (nodup_flatMap.1 (nodup_append.1 (nodup_append.1 h.defs).1).2.1).1 xs hxs

/-- What a statement defines is no formal. -/
theorem notMem_formals_of_statement (h : P.WellTyped Γ) {b : Block} (hb : b ∈ P.blocks)
    {s : Statement} (hs : s ∈ b.statements) {x : Var} (hx : s.var = some x)
    {xs : List (Var × Ty)} (hxs : xs ∈ P.formalLists) : x ∉ xs.map Prod.fst := by
  intro hmem
  refine (nodup_append.1 h.defs).2.2 x ?_ x ?_ rfl
  · exact mem_append_right _ (mem_flatMap.2 ⟨xs, hxs, hmem⟩)
  · exact mem_flatMap.2 ⟨b, hb, mem_filterMap.2 ⟨s, hs, hx⟩⟩

theorem notMem_formals_of_global (h : P.WellTyped Γ) {s : Statement} (hs : s ∈ P.globals) {x : Var}
    (hx : s.var = some x) {xs : List (Var × Ty)} (hxs : xs ∈ P.formalLists) :
    x ∉ xs.map Prod.fst := by
  intro hmem
  refine (nodup_append.1 (nodup_append.1 h.defs).1).2.2 x ?_ x ?_ rfl
  · exact mem_filterMap.2 ⟨s, hs, hx⟩
  · exact mem_flatMap.2 ⟨xs, hxs, hmem⟩

theorem args_mem_formalLists {f : Function} (hf : f ∈ P.functions) : f.args ∈ P.formalLists :=
  mem_flatMap.2 ⟨f, hf, mem_cons_self⟩

theorem formals_mem_formalLists {f : Function} (hf : f ∈ P.functions) {b : Block}
    (hb : b ∈ f.blocks) : b.args ∈ P.formalLists :=
  mem_flatMap.2 ⟨f, hf, mem_cons_of_mem _ (mem_map_of_mem hb)⟩

theorem mem_blocks {b : Block} : b ∈ P.blocks ↔ ∃ f ∈ P.functions, b ∈ f.blocks := by
  simp [blocks]

theorem block?_eq_some (h : P.WellTyped Γ) {b : Block} {l : Label} :
    P.block? l = some b ↔ b ∈ P.blocks ∧ b.label = l := find?_key_iff h.labels

/-- The types of a label's formals are those of its block. -/
theorem exists_block_of_labelTypes (h : P.WellTyped Γ) {f : Function} (hf : f ∈ P.functions)
    {l : Label} {ts : List Ty} (hl : f.labelTypes l = some ts) :
    ∃ b ∈ f.blocks, P.block? l = some b ∧ b.label = l ∧ b.args.map Prod.snd = ts := by
  obtain ⟨b, hb, rfl⟩ := Option.map_eq_some_iff.1 hl
  obtain ⟨hmem, hlabel⟩ := find?_key hb
  exact ⟨b, hmem, (block?_eq_some h).2 ⟨mem_blocks.2 ⟨f, hf, hmem⟩, hlabel⟩, hlabel, rfl⟩

end Program

end MultiMLton.Ssa
