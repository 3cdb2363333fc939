import MultiMLton.Basic.DominatorsCorrect
import MultiMLton.Ssa.CommonArgValues

/-!
# The program without common arguments is well formed

-/

namespace MultiMLton.Ssa.CommonArg

open MultiMLton.Basic MultiMLton.Lib List

variable {P : Program} {Γ : Var → Ty} {idom : Node → IdomRes Node} {f : Function} {b : Block}
  {a v x : Var} {l : Label}

/-! ### Types of dominators -/

section Types

variable (h : P.WellTyped Γ)

theorem mem_varNode {e : Node × Node} (he : e ∈ varNode P v) : e = (none, some v) := by
  rw [varNode] at he
  split_ifs at he
  · cases he
  · exact mem_singleton.1 he

theorem of_mem_visitLabelArgs {e : Node × Node} (he : e ∈ visitLabelArgs P l) :
    ∃ v, e = (none, some v) := by
  obtain ⟨⟨v, ty⟩, -, he⟩ := mem_flatMap.1 he
  rcases mem_append.1 he with he | he
  · exact ⟨v, mem_varNode he⟩
  · exact ⟨v, mem_singleton.1 he⟩

/-- An edge leads from the root, or from a variable that a `goto` passes. -/
theorem of_mem_flowTransfer {t : Transfer} {e : Node × Node} (he : e ∈ flowTransfer P t) :
    (∃ v, e = (none, some v)) ∨ ∃ dst args v a, t = .goto dst args ∧
      (v, a) ∈ args.zip (labelArgs P dst) ∧ e = (some v, some a.1) := by
  cases t with
  | arith p args overflow success ty =>
    rcases mem_append.1 he with he | he
    · exact .inl (of_mem_visitLabelArgs he)
    · exact .inl (of_mem_visitLabelArgs he)
  | bug | raise | ret => cases he
  | call g args r =>
    cases r with
    | dead | tail => cases he
    | nonTail cont handler =>
      rcases mem_append.1 he with he | he
      · exact .inl (of_mem_visitLabelArgs he)
      · cases handler with
        | caller | dead => cases he
        | handle l' => exact .inl (of_mem_visitLabelArgs he)
  | case test cases default =>
    rcases mem_append.1 he with he | he
    · obtain ⟨l, -, he⟩ := mem_flatMap.1 he
      exact .inl (of_mem_visitLabelArgs he)
    · obtain ⟨l, -, he⟩ := mem_flatMap.1 he
      exact .inl (of_mem_visitLabelArgs he)
  | goto dst args =>
    obtain ⟨⟨v, a⟩, hmem, he⟩ := mem_flatMap.1 he
    simp only [flowVarVar, append_assoc, mem_append, mem_singleton] at he
    rcases he with he | he | he
    · exact .inl ⟨v, mem_varNode he⟩
    · exact .inl ⟨a.1, mem_varNode he⟩
    · exact .inr ⟨dst, args, v, a, rfl, hmem, he⟩
  | runtime p args l' => exact .inl (of_mem_visitLabelArgs he)

include h

theorem edge_types {n n' : Node} (he : (n, n') ∈ edges P) :
    ∃ y, n' = some y ∧ ∀ x, n = some x → Γ x = Γ y := by
  obtain ⟨b, hbP, he⟩ := mem_flatMap.1 he
  obtain ⟨f, hf, hb⟩ := Program.mem_blocks.1 hbP
  rcases of_mem_flowTransfer he with ⟨v, heq⟩ | ⟨dst, args, v, ⟨y, ty⟩, ht, hzip, heq⟩
  · cases heq
    exact ⟨v, rfl, nofun⟩
  · cases heq
    refine ⟨y, rfl, ?_⟩
    rintro x ⟨⟩
    have hl : dst ∈ b.transfer.labels := by simp [ht, Transfer.labels]
    obtain ⟨c, hc, rfl⟩ := h.exists_block hf hb hl
    have htypes := goto_typed h hf hc hb ht
    rw [labelArgs_eq h hf hc] at hzip
    obtain ⟨i, hi⟩ := mem_iff_getElem?.1 hzip
    obtain ⟨hv, hy⟩ := getElem?_zip_eq_some.1 hi
    have hi := congrArg (fun l : List Ty => l[i]?) htypes
    simp only [getElem?_map, hv, hy, Option.map_some, Option.some.injEq] at hi
    rw [hi, (h.functions f hf).formals c hc (y, ty) (mem_of_getElem? hy)]

/-- All variables on a path have one type. -/
theorem path_types {q : List Node} {n : Node} (hq : PathTo (graph P).Edge none q n) :
    ∀ x, some x ∈ q → ∃ y, n = some y ∧ Γ x = Γ y := by
  induction hq with
  | root => simp
  | @step q n n' path hedge ih =>
    intro x hx
    obtain ⟨y, rfl, hy⟩ := edge_types h (edge_iff.1 hedge)
    rcases mem_cons.1 hx with hx | hx
    · cases hx
      exact ⟨x, rfl, rfl⟩
    · obtain ⟨y', rfl, hxy⟩ := ih x hx
      exact ⟨y, rfl, hxy.trans (hy y' rfl)⟩

theorem getVar_type (hidom : IsDominators (graph P) none idom) (v : Var) :
    Γ (getVar idom v) = Γ v := by
  by_cases hne : getVar idom v = v
  · rw [hne]
  · obtain ⟨q, hq⟩ := pathTo_iff_reach.2 (hidom.reach (getVar_of_ne hne))
    obtain ⟨y, hy, htype⟩ := path_types h hq _ (varDom_getVar hidom hne q hq)
    cases hy
    exact htype

end Types

/-! ### The new program -/

/-- The program before its functions are shrunk. -/
abbrev transform (P : Program) (idom : Node → IdomRes Node) : Program := P.revMap (function P idom)

theorem edge_function : (function P idom f).Edge = f.Edge := by
  funext l l'
  refine propext ⟨?_, ?_⟩
  · rintro ⟨b', hb', rfl, hl⟩
    obtain ⟨b, hb, rfl⟩ := mem_map.1 hb'
    refine ⟨b, hb, rfl, ?_⟩
    rw [block] at hl
    cases ht : b.transfer <;> rw [ht] at hl <;> exact hl
  · rintro ⟨b, hb, rfl, hl⟩
    refine ⟨block P idom b, mem_map_of_mem hb, rfl, ?_⟩
    rw [block]
    cases ht : b.transfer <;> rw [ht] at hl <;> exact hl

theorem mem_rems : x ∈ ((b.args.filter fun a => !keepVar idom a.1).map fun a =>
    (⟨some a.1, a.2, .var (getVar idom a.1)⟩ : Statement)).filterMap Statement.var ↔
      x ∈ b.formals ∧ keepVar idom x = false := by
  simp only [mem_filterMap, mem_map, mem_filter, Bool.not_eq_true', Block.formals]
  constructor
  · rintro ⟨_, ⟨a, ⟨ha, hk⟩, rfl⟩, hx⟩
    cases hx
    exact ⟨⟨a, ha, rfl⟩, hk⟩
  · rintro ⟨⟨a, ha, rfl⟩, hk⟩
    exact ⟨_, ⟨a, ⟨ha, hk⟩, rfl⟩, rfl⟩

theorem binds_block : (block P idom b).binds =
    (b.args.filter fun a => !keepVar idom a.1).map Prod.fst ++ b.binds := by
  rw [Block.binds, block, filterMap_append, filterMap_map]
  congr 1
  rw [← filterMap_eq_map]
  rfl

/-- The same variables are bound in each block. -/
theorem bound_block : ((block P idom b).formals ++ (block P idom b).binds).Perm
    (b.formals ++ b.binds) := by
  rw [binds_block, ← append_assoc]
  refine List.Perm.append_right _ ?_
  rw [Block.formals, block, ← map_append]
  exact (filter_append_perm _ b.args).map Prod.fst

section Program

variable (h : P.WellTyped Γ) (hscoped : P.WellScoped) (hidom : IsDominators (graph P) none idom)

theorem labelTypes_function {c : Block} (hc : f.blocks.find? (·.label = l) = some c) :
    (function P idom f).labelTypes l = some ((block P idom c).args.map Prod.snd) := by
  rw [Function.labelTypes, function, find?_map]
  have hlabel : ((fun b : Block => decide (b.label = l)) ∘ block P idom) =
      fun b => decide (b.label = l) := rfl
  rw [hlabel, hc]
  rfl

include h

theorem labels_nodup : ((transform P idom).blocks.map Block.label).Nodup := by
  refine (Program.labels_revMap P _).nodup_iff.2 ?_
  have hlabels := h.labels
  rw [Program.blocks, map_flatMap] at hlabels
  simpa only [function, map_map, Function.comp_def, block] using hlabels

include hidom

/-- A label that something other than a `goto` leads to has all its formals. -/
theorem labelTypes_of_labels (hf : f ∈ P.functions) (hb : b ∈ f.blocks)
    (hl : l ∈ b.transfer.labels) (hgoto : ∀ args, b.transfer ≠ .goto l args) :
    (function P idom f).labelTypes l = f.labelTypes l := by
  obtain ⟨c, hc, rfl⟩ := h.exists_block hf hb hl
  have hfind : f.blocks.find? (·.label = c.label) = some c := by
    have hnodup : (f.blocks.map Block.label).Nodup := by
      have hlabels := h.labels
      rw [Program.blocks, map_flatMap] at hlabels
      exact (nodup_flatMap.1 hlabels).1 f hf
    exact (find?_key_iff hnodup).2 ⟨hc, rfl⟩
  have hkeep : (block P idom c).args = c.args := by
    refine filter_eq_self.2 fun a ha => keepVar_of_rooted hidom (edges_of_transfer hf hb
      (rooted_of_labels hl hgoto ?_))
    rw [labelArgs_eq h hf hc]
    exact mem_map_of_mem ha
  rw [labelTypes_function hfind, hkeep, Function.labelTypes, hfind]
  rfl

theorem transform_seenAlike (hf : f ∈ P.functions) (hb : b ∈ f.blocks)
    (hgoto : ∀ l args, b.transfer ≠ .goto l args) :
    SeenAlike P (transform P idom) f (function P idom f) b.transfer.labels where
  datatypes := rfl
  funcs _ g hg := ⟨function P idom g, Program.func?_revMap (g := function P idom) h (fun _ => rfl) hg, rfl, rfl, rfl⟩
  raises := rfl
  returns := rfl
  labels l hl := labelTypes_of_labels h hidom hf hb hl (hgoto l)

theorem transfer_typed (hf : f ∈ P.functions) (hb : b ∈ f.blocks) :
    (function P idom f).TransferTyped (transform P idom) Γ (block P idom b).transfer := by
  have htyped := (h.functions f hf).transfers b hb
  by_cases hgoto : ∀ l args, b.transfer ≠ .goto l args
  · have heq : (block P idom b).transfer = b.transfer := by
      rw [block]
      cases ht : b.transfer with
      | goto dst args => exact absurd ht (hgoto dst args)
      | _ => rfl
    rw [heq]
    exact htyped.congr (transform_seenAlike h hidom hf hb hgoto) fun _ _ => rfl
  · push Not at hgoto
    obtain ⟨dst, args, ht⟩ := hgoto
    have hl : dst ∈ b.transfer.labels := by simp [ht, Transfer.labels]
    obtain ⟨c, hc, rfl⟩ := h.exists_block hf hb hl
    have htypes := goto_typed h hf hc hb ht
    rw [ht] at htyped
    obtain ⟨c', hc', -⟩ := Option.map_eq_some_iff.1 htyped
    have heq : c' = c := by
      obtain ⟨hmem, hlabel⟩ := find?_key hc'
      exact h.block_unique (Program.mem_blocks.2 ⟨f, hf, hmem⟩)
        (Program.mem_blocks.2 ⟨f, hf, hc⟩) hlabel
    subst heq
    simp only [block, ht, Function.TransferTyped]
    rw [labelTypes_function hc', labelArgs_eq h hf hc, ← keepArgs_map, htypes]
    refine congrArg some ?_
    rw [block]
    generalize c'.args = formals
    induction formals with
    | nil => simp [keepArgs]
    | cons a formals ih =>
      simp only [keepArgs] at ih ⊢
      by_cases hk : keepVar idom a.1 <;> simp [hk, ih]

theorem transform_wellTyped : (transform P idom).WellTyped Γ where
  defs := by
    refine (Program.defs_revMap P _).nodup_iff.2 ?_
    have hperm : (P.globalVars ++ P.functions.flatMap fun f => (function P idom f).args.map Prod.fst ++
        (function P idom f).blocks.flatMap fun b => b.formals ++ b.binds).Perm P.defs := by
      refine List.Perm.trans ?_ (Program.defs_perm P).symm
      refine List.Perm.append_left _ (List.Perm.flatMap_left _ fun f _ => ?_)
      refine List.Perm.append_left _ ?_
      rw [function, flatMap_map]
      exact List.Perm.flatMap_left _ fun b _ => bound_block
    exact hperm.nodup_iff.2 h.defs
  labels := labels_nodup h
  funcs := Program.funcs_revMap (g := function P idom) h fun _ => rfl
  main := by
    obtain ⟨f, hf, hargs⟩ := h.main
    exact ⟨function P idom f, Program.func?_revMap (g := function P idom) h (fun _ => rfl) hf, hargs⟩
  globals s hs := ⟨(h.globals s hs).exp.congr' rfl fun _ _ => rfl, (h.globals s hs).var⟩
  functions f' hf' := by
    obtain ⟨f, hf, rfl⟩ := Program.mem_revMap.1 hf'
    have htyped := h.functions f hf
    refine ⟨htyped.args, fun b' hb' x hx => ?_, fun b' hb' s hs => ?_, fun b' hb' => ?_, ?_⟩
    · obtain ⟨b, hb, rfl⟩ := mem_map.1 hb'
      exact htyped.formals b hb x (mem_filter.1 hx).1
    · obtain ⟨b, hb, rfl⟩ := mem_map.1 hb'
      rcases mem_append.1 hs with hs | hs
      · obtain ⟨a, ha, rfl⟩ := mem_map.1 hs
        have htype := htyped.formals b hb a (mem_filter.1 ha).1
        refine ⟨?_, ?_⟩
        · show a.2 = Γ (getVar idom a.1)
          rw [getVar_type h hidom, htype]
        · rintro x ⟨⟩
          exact htype
      · have hstatement := htyped.statements b hb s hs
        exact ⟨hstatement.exp.congr' rfl fun _ _ => rfl, hstatement.var⟩
    · obtain ⟨b, hb, rfl⟩ := mem_map.1 hb'
      exact transfer_typed h hidom hf hb
    · obtain ⟨c, hc, htypes⟩ := Option.map_eq_some_iff.1 htyped.start
      have hnil : c.args = [] := by simpa using htypes
      rw [show (function P idom f).start = f.start from rfl, labelTypes_function hc]
      simp [block, hnil]

/-! ### Scopes in the new program -/

omit h hidom in
theorem dominates_function {d : Label} :
    (function P idom f).Dominates d l ↔ f.Dominates d l := by
  rw [Function.Dominates, edge_function]
  rfl

omit h hidom in
theorem reaches_function : (function P idom f).Reaches l ↔ f.Reaches l := by
  rw [Function.Reaches, edge_function]
  rfl

omit h hidom in
/-- What is in scope is in scope in the new function, or bound at the beginning of the block. -/
theorem inScope_function (hx : f.InScope P.globalVars l x) :
    (function P idom f).InScope P.globalVars l x ∨
      ∃ b ∈ f.blocks, b.label = l ∧ x ∈ b.formals ∧ keepVar idom x = false := by
  cases hx with
  | global h => exact .inl (.global h)
  | arg h => exact .inl (.arg h)
  | formal b hb hx hdom =>
    have hmem : block P idom b ∈ (function P idom f).blocks := mem_map_of_mem hb
    have hdom : (function P idom f).Dominates b.label l := dominates_function.2 hdom
    by_cases hk : keepVar idom x = true
    · obtain ⟨a, ha, rfl⟩ := mem_map.1 hx
      exact .inl (.formal (block P idom b) hmem
        (mem_map_of_mem (mem_filter.2 ⟨ha, hk⟩)) hdom)
    · rw [Bool.not_eq_true] at hk
      by_cases hl : b.label = l
      · exact .inr ⟨b, hb, hl, hx, hk⟩
      · refine .inl (.statement (block P idom b) hmem ?_ hdom hl)
        rw [Block.binds, block, filterMap_append]
        exact mem_append_left _ (mem_rems.2 ⟨hx, hk⟩)
  | statement b hb hx hdom hne =>
    refine .inl (.statement (block P idom b) (mem_map_of_mem hb) ?_
      (dominates_function.2 hdom) hne)
    rw [Block.binds, block, filterMap_append]
    exact mem_append_right _ hx

include hscoped

theorem transform_wellScoped : (transform P idom).WellScoped where
  globals := hscoped.globals
  functions f' hf' := by
    obtain ⟨f, hf, rfl⟩ := Program.mem_revMap.1 hf'
    have hfun := hscoped.functions f hf
    -- what is bound at the beginning of the block is bound before its other statements
    have hrem {b : Block} (hb : b ∈ f.blocks) {x : Var} {pre : List Statement}
        (hx : f.InScope P.globalVars b.label x ∨ x ∈ pre.filterMap Statement.var) :
        (function P idom f).InScope P.globalVars b.label x ∨
          x ∈ (((b.args.filter fun a => !keepVar idom a.1).map fun a =>
            (⟨some a.1, a.2, .var (getVar idom a.1)⟩ : Statement)) ++ pre).filterMap
              Statement.var := by
      rw [filterMap_append, mem_append]
      rcases hx with hx | hx
      · rcases inScope_function (P := P) hx with hx | ⟨b', hb', hl, hxb, hk⟩
        · exact .inl hx
        · obtain rfl := h.block_unique (Program.mem_blocks.2 ⟨f, hf, hb'⟩)
            (Program.mem_blocks.2 ⟨f, hf, hb⟩) hl
          exact .inr (.inl (mem_rems.2 ⟨hxb, hk⟩))
      · exact .inr (.inr hx)
    refine ⟨fun b' hb' hreach pre s post heq x hx => ?_, fun b' hb' hreach x hx => ?_⟩
    · obtain ⟨b, hb, rfl⟩ := mem_map.1 hb'
      have hreach : f.Reaches b.label := reaches_function.1 hreach
      rcases append_eq_append_iff.1 heq with ⟨as, rfl, hsplit⟩ | ⟨bs, hsplit, hpost⟩
      · exact hrem hb (hfun.statements b hb hreach as s post hsplit x hx)
      · cases bs with
        | nil =>
          have hx := hrem hb (hfun.statements b hb hreach [] s post hpost.symm x hx)
          rwa [append_nil, hsplit, append_nil] at hx
        | cons s' bs =>
          cases hpost
          -- one of the bindings, of a variable that is bound before the block
          have hs : s ∈ (b.args.filter fun a => !keepVar idom a.1).map fun a =>
              (⟨some a.1, a.2, .var (getVar idom a.1)⟩ : Statement) := by
            rw [hsplit]
            simp
          obtain ⟨a, ha, rfl⟩ := mem_map.1 hs
          obtain ⟨ha, hk⟩ := mem_filter.1 ha
          rw [Exp.vars, mem_singleton] at hx
          subst hx
          rw [Bool.not_eq_true'] at hk
          have hbefore := getVar_boundBefore h hscoped hidom hf hb hreach (mem_map_of_mem ha)
            (keepVar_eq_false.1 hk)
          rcases inScope_function (P := P) hbefore.inScope with
            hx | ⟨b', hb', hl, hx, -⟩
          · exact .inl hx
          · obtain rfl := h.block_unique (Program.mem_blocks.2 ⟨f, hf, hb'⟩)
              (Program.mem_blocks.2 ⟨f, hf, hb⟩) hl
            exact absurd hx (notMem_formals_of_boundBefore h hf hb hbefore).1
    · obtain ⟨b, hb, rfl⟩ := mem_map.1 hb'
      have hreach : f.Reaches b.label := reaches_function.1 hreach
      have hx : x ∈ b.transfer.vars := by
        rw [block] at hx
        cases ht : b.transfer with
        | goto dst args =>
          rw [ht] at hx
          obtain ⟨⟨v, a⟩, hmem, hv⟩ := mem_filterMap.1 hx
          dsimp only at hv
          split_ifs at hv
          cases hv
          exact (of_mem_zip hmem).1
        | _ =>
          rw [ht] at hx
          exact hx
      exact hrem hb (hfun.transfers b hb hreach x hx)

end Program

end MultiMLton.Ssa.CommonArg
