import MultiMLton.Basic.DominatorsCorrect
import MultiMLton.Ssa.CommonArg
import MultiMLton.Ssa.Activation

/-!
# Common arguments hold the same values

Wherever a program comes, a formal holds the same value as its dominators in the graph over variables
(`Common`): the variable that is passed to it does so before, and the dominators are not bound again
in between. So a block that binds the formals that are not kept to the variables that replace them
runs as the original one does.

* `Common.exec`, `Common.enter`: what one block and one transfer preserve;
* `exec_block`: the statements of both blocks;
* `action_rel`: the transfers of both blocks.
-/

namespace MultiMLton.Ssa.CommonArg

open MultiMLton.Basic MultiMLton.Lib Machine PassSimulation List

variable {P : Program} {Γ : Var → Ty} {idom : Node → IdomRes Node} {f : Function} {m : Machine}
  {env : m.Env} {a v x : Var} {l : Label}

/-- A formal that is not kept gets its value from the variable that replaces it. -/
theorem varDom_getVar (hidom : IsDominators (graph P) none idom) (h : getVar idom v ≠ v) :
    VarDom P (getVar idom v) v := by
  have heq := getVar_of_ne h
  obtain ⟨d, hd, hdom, -⟩ := hidom.idom (some v) (by simp) (hidom.reach heq)
  rw [heq] at hd
  cases hd
  exact hdom.dominates

/-- In block `l` every formal that is in scope holds the same value as its dominators. -/
def Common (P : Program) (f : Function) (l : Label) (env : m.Env) : Prop :=
  ∀ b ∈ f.blocks, f.Dominates b.label l → ∀ a ∈ b.formals, ∀ x, x ≠ a → VarDom P x a →
    env a = env x

/-! ### Entering a block without the formals that are not kept -/

section Enter

theorem keepArgs_map {β γ : Type} (g : β → γ) (formals : List (Var × Ty)) (args : List β) :
    keepArgs idom formals (args.map g) = (keepArgs idom formals args).map g := by
  induction formals generalizing args with
  | nil => simp [keepArgs]
  | cons a formals ih =>
    cases args with
    | nil => simp [keepArgs]
    | cons v args =>
      have ih := ih args
      simp only [keepArgs] at ih ⊢
      by_cases hk : keepVar idom a.1 <;> simp [hk, ih]

theorem bind_keep {formals : List (Var × Ty)} {vs : List m.Value} (hlen : vs.length = formals.length)
    {y : Var} (hy : y ∈ formals.map Prod.fst → keepVar idom y = true) :
    env.bind ((formals.filter fun a => keepVar idom a.1).map Prod.fst) (keepArgs idom formals vs) y =
      env.bind (formals.map Prod.fst) vs y := by
  induction formals generalizing env vs with
  | nil => rfl
  | cons a formals ih =>
    cases vs with
    | nil => cases hlen
    | cons v vs =>
      have hlen : vs.length = formals.length := by simpa using hlen
      have hy' : y ∈ formals.map Prod.fst → keepVar idom y = true := fun h =>
        hy (mem_cons_of_mem _ h)
      by_cases hk : keepVar idom a.1 = true
      · have hkeep : keepArgs idom (a :: formals) (v :: vs) = v :: keepArgs idom formals vs := by
          simp [keepArgs, hk]
        rw [hkeep, List.filter_cons, if_pos hk]
        exact ih hlen hy'
      · have hkeep : keepArgs idom (a :: formals) (v :: vs) = keepArgs idom formals vs := by
          simp [keepArgs, hk]
        have hne : y ≠ a.1 := by
          rintro rfl
          exact hk (hy mem_cons_self)
        rw [hkeep, List.filter_cons, if_neg hk, ih hlen hy', List.map_cons, Env.bind]
        exact (Env.bind_congr (Function.update_of_ne hne v env)).symm

/-- The bindings of the formals that are not kept. -/
theorem exec_rems (w : m.World) {rems : List (Var × Ty)}
    (hrems : ∀ y ∈ rems.map Prod.fst, getVar idom y ∉ rems.map Prod.fst) : ∃ env₁,
    exec env w (rems.map fun a => ⟨some a.1, a.2, .var (getVar idom a.1)⟩) = (env₁, [], w) ∧
      (∀ y ∈ rems.map Prod.fst, env₁ y = env (getVar idom y)) ∧
      ∀ y ∉ rems.map Prod.fst, env₁ y = env y := by
  induction rems generalizing env with
  | nil => exact ⟨env, rfl, by simp, fun _ _ => rfl⟩
  | cons a rems ih =>
    rw [List.map_cons] at hrems ⊢
    obtain ⟨env₁, hexec, hin, hout⟩ := @ih (Function.update env a.1 (env (getVar idom a.1)))
      fun y hy hmem => hrems y (mem_cons_of_mem _ hy) (mem_cons_of_mem _ hmem)
    have hne {y : Var} (hy : y ∈ a.1 :: rems.map Prod.fst) : getVar idom y ≠ a.1 := fun heq =>
      hrems y hy (heq ▸ mem_cons_self)
    refine ⟨env₁, ?_, fun y hy => ?_, fun y hy => ?_⟩
    · rw [exec]
      simp only [eval, Env.set, hexec, append_nil]
    · by_cases hmem : y ∈ rems.map Prod.fst
      · rw [hin y hmem, Function.update_of_ne (hne hy)]
      · obtain rfl := (List.mem_cons.1 hy).resolve_right hmem
        rw [hout _ hmem, Function.update_self]
    · rw [List.map_cons, List.mem_cons, not_or] at hy
      rw [hout y hy.2, Function.update_of_ne hy.1]

theorem exec_append_of_silent {env₁ : m.Env} {w : m.World} {ss ss' : List Statement}
    (h : exec env w ss = (env₁, [], w)) : exec env w (ss ++ ss') = exec env₁ w ss' := by
  have happend (ss : List Statement) : ∀ (env : m.Env) (w : m.World), exec env w (ss ++ ss') =
      ((exec (exec env w ss).1 (exec env w ss).2.2 ss').1,
        (exec env w ss).2.1 ++ (exec (exec env w ss).1 (exec env w ss).2.2 ss').2.1,
        (exec (exec env w ss).1 (exec env w ss).2.2 ss').2.2) := by
    induction ss with
    | nil => exact fun _ _ => rfl
    | cons s ss ih =>
      intro env w
      simp only [List.cons_append, exec, ih, append_assoc]
  rw [happend, h]
  rfl

end Enter

/-! ### Equal values -/

section Values

variable (h : P.WellTyped Γ) (hscoped : P.WellScoped) (hf : f ∈ P.functions) {b : Block}
  (hb : b ∈ f.blocks) (hreach : f.Reaches b.label)

include h hscoped hf

/-- A dominator is not bound again between the formal's block and the blocks below it. -/
theorem notMem_of_varDom {c : Block} (hc : c ∈ f.blocks) (hcreach : f.Reaches c.label)
    (hb : b ∈ f.blocks) (hdom : f.Dominates b.label c.label) (ha : a ∈ b.formals) (hx : VarDom P x a)
    (hne : x ≠ a) : x ∉ c.formals ∧ x ∉ c.binds := by
  have hbreach : f.Reaches b.label := by
    obtain ⟨p, hp⟩ := pathTo_iff_reach.2 hcreach
    obtain ⟨p', -, hp'⟩ := hp.of_mem (hdom p hp)
    exact pathTo_iff_reach.1 ⟨p', hp'⟩
  have hbefore := boundBefore_of_varDom h hscoped hf hb hbreach ha hx hne
  have hcP := Program.mem_blocks.2 ⟨f, hf, hc⟩
  rw [← not_or]
  intro hmem
  cases hbefore with
  | global hg => exact h.notMem_globalVars hcP hmem hg
  | arg hg => exact h.notMem_args hcP hmem hf hg
  | block d hd hxd hdb hdne =>
    obtain rfl := h.bound_unique (Program.mem_blocks.2 ⟨f, hf, hd⟩) hcP hxd hmem
    exact hdne (Dominates.antisymm hdb hdom (pathTo_iff_reach.2 hbreach))

include hb hreach

/-- Statements bind no formals and no dominators of formals in scope. -/
theorem Common.exec (hcommon : Common P f b.label env) (w : m.World) :
    Common P f b.label (exec env w b.statements).1 := by
  intro c hc hdom a ha x hne hx
  have hx' := (notMem_of_varDom h hscoped hf hb hreach hc hdom ha hx hne).2
  have ha' : a ∉ b.binds := by
    intro hbind
    have hcP := Program.mem_blocks.2 ⟨f, hf, hc⟩
    obtain rfl := h.bound_unique hcP (Program.mem_blocks.2 ⟨f, hf, hb⟩) (.inl ha) (.inr hbind)
    exact h.formals_disjoint_binds hcP ha hbind
  rw [exec_of_notMem ha' w, exec_of_notMem hx' w]
  exact hcommon c hc hdom a ha x hne hx

/-- From a block to the next one. -/
theorem Common.enter (hcommon : Common P f b.label env) {c : Block} (hc : c ∈ f.blocks)
    (hl : c.label ∈ b.transfer.labels) {vs : List m.Value}
    (hvs : ∀ args, b.transfer = .goto c.label args → vs = args.map env) :
    Common P f c.label (env.bind c.formals vs) := by
  have hedge : f.Edge b.label c.label := ⟨b, hb, rfl, hl⟩
  have hcreach : f.Reaches c.label := hreach.tail hedge
  have hbP := Program.mem_blocks.2 ⟨f, hf, hb⟩
  have hcP := Program.mem_blocks.2 ⟨f, hf, hc⟩
  intro d hd hdom a ha x hne hx
  have hxc := (notMem_of_varDom h hscoped hf hc hcreach hd hdom ha hx hne).1
  rw [Env.bind_of_notMem hxc]
  have hdP := Program.mem_blocks.2 ⟨f, hf, hd⟩
  by_cases hdc : d = c
  · subst hdc
    by_cases hgoto : ∀ args, b.transfer ≠ .goto d.label args
    · have hroot := edges_of_transfer hf hb (rooted_of_labels (P := P) hl hgoto (v := a)
        (by rw [labelArgs_eq h hf hd]; exact ha))
      exact absurd (hx.eq_of_rooted hroot) hne
    · push Not at hgoto
      obtain ⟨args, ht⟩ := hgoto
      obtain ⟨i, hi⟩ := mem_iff_getElem?.1 ha
      have hlen : args.length = d.args.length := by
        simpa using congrArg List.length (goto_typed h hf hd hb ht)
      have hlt : i < args.length := by
        have := (List.getElem?_eq_some_iff.1 hi).1
        simpa [Block.formals, hlen] using this
      have hv := getElem?_eq_getElem hlt
      have hvalue : env.bind d.formals vs a = env args[i] := by
        refine Env.bind_getElem ?_ hi ?_
        · exact Program.formals_nodup h (Program.formals_mem_formalLists hf hd)
        · rw [hvs args ht, getElem?_map, hv]
          rfl
      rw [hvalue]
      by_cases hxv : x = args[i]
      · rw [hxv]
      have hi' := hi
      rw [Block.formals, getElem?_map, Option.map_eq_some_iff] at hi'
      obtain ⟨⟨a', ty⟩, hi', rfl⟩ := hi'
      rw [← labelArgs_eq h hf hd] at hi'
      obtain ⟨h1, h2⟩ := edges_of_goto hv hi'
      rw [← ht] at h1 h2
      have hxv' := hx.of_edge hne (edges_of_transfer hf hb h1)
      by_cases hformal : args[i] ∈ blockFormals P
      · have hused : args[i] ∈ b.transfer.vars := by
          rw [ht]
          exact getElem_mem hlt
        obtain ⟨c', hc', hv', hdom'⟩ := exists_formal h hf hb hformal
          ((hscoped.functions f hf).transfers b hb hreach _ hused)
        exact hcommon c' hc' hdom' _ hv' x hxv hxv'
      · exact absurd (hxv'.eq_of_rooted (edges_of_transfer hf hb (h2 hformal))) hxv
  · have hac : a ∉ c.formals := fun hac => hdc (h.bound_unique hdP hcP (.inl ha) (.inl hac))
    have hne' : d.label ≠ c.label := fun heq => hdc (h.block_unique hdP hcP heq)
    rw [Env.bind_of_notMem hac]
    exact hcommon d hd (hdom.of_edge hne' hedge) a ha x hne hx

end Values

/-! ### Both programs -/

/-- Entering a block of the original program and one of the new program, which has the values of the
formals that are kept. -/
inductive EntryRel (P : Program) (idom : Node → IdomRes Node) (f : Function) :
    m.Entry → m.Entry → Prop
  | keep (b vs env) (hb : b ∈ f.blocks) (hreach : f.Reaches b.label)
    (hcommon : Common P f b.label (env.bind b.formals vs)) (hlen : vs.length = b.args.length) :
    EntryRel P idom f ⟨b.label, vs, env⟩ ⟨b.label, keepArgs idom b.args vs, env⟩
  | all (b vs env) (hb : b ∈ f.blocks) (hreach : f.Reaches b.label)
    (hcommon : Common P f b.label (env.bind b.formals vs))
    (hkeep : ∀ v ∈ b.formals, keepVar idom v = true) :
    EntryRel P idom f ⟨b.label, vs, env⟩ ⟨b.label, vs, env⟩

section Simulation

variable (h : P.WellTyped Γ) (hscoped : P.WellScoped) (hidom : IsDominators (graph P) none idom)
  (hf : f ∈ P.functions) {b : Block} (hb : b ∈ f.blocks) (hreach : f.Reaches b.label)

include hidom

/-- A label that something other than a `goto` leads to keeps its formals. -/
theorem keepVar_of_rooted (ha : (none, some a) ∈ edges P) : keepVar idom a = true := by
  rw [keepVar_eq_true]
  by_contra hne
  exact hne ((varDom_getVar hidom hne).eq_of_rooted ha)

include h hscoped hf

/-- The variable that replaces a formal is bound before its block. -/
theorem getVar_boundBefore (hb : b ∈ f.blocks) (hreach : f.Reaches b.label) (ha : a ∈ b.formals)
    (hne : getVar idom a ≠ a) : f.BoundBefore P.globalVars b.label (getVar idom a) :=
  boundBefore_of_varDom h hscoped hf hb hreach ha (varDom_getVar hidom hne) hne

include hb hreach

/-- After the bindings the variables of the new block hold the values of the original one. -/
theorem exec_block {vs vs' : List m.Value} (hcommon : Common P f b.label (env.bind b.formals vs))
    (hvs : ∀ y, (y ∈ b.formals → keepVar idom y = true) →
      env.bind ((b.args.filter fun a => keepVar idom a.1).map Prod.fst) vs' y =
        env.bind b.formals vs y) (w : m.World) :
    exec (env.bind ((block P idom b).args.map Prod.fst) vs') w (block P idom b).statements =
      exec (env.bind b.formals vs) w b.statements := by
  have hrem {y : Var} (hy : y ∈ (b.args.filter fun a => !keepVar idom a.1).map Prod.fst) :
      y ∈ b.formals ∧ getVar idom y ≠ y := by
    obtain ⟨a, ha, rfl⟩ := mem_map.1 hy
    obtain ⟨ha, hk⟩ := mem_filter.1 ha
    rw [Bool.not_eq_true'] at hk
    exact ⟨mem_map_of_mem ha, keepVar_eq_false.1 hk⟩
  have hout {y : Var} (hy : y ∈ (b.args.filter fun a => !keepVar idom a.1).map Prod.fst) :
      getVar idom y ∉ b.formals := by
    obtain ⟨hmem, hne⟩ := hrem hy
    exact (notMem_formals_of_boundBefore h hf hb
      (getVar_boundBefore h hscoped hidom hf hb hreach hmem hne)).1
  obtain ⟨env₁, hexec, hin, hkept⟩ := @exec_rems idom m
    (env.bind ((b.args.filter fun a => keepVar idom a.1).map Prod.fst) vs') w
    (b.args.filter fun a => !keepVar idom a.1) fun y hy hmem => hout hy (hrem hmem).1
  have heq : env₁ = env.bind b.formals vs := by
    funext y
    by_cases hy : y ∈ (b.args.filter fun a => !keepVar idom a.1).map Prod.fst
    · obtain ⟨hmem, hne⟩ := hrem hy
      rw [hin y hy, hvs _ fun hmem => absurd hmem (hout hy)]
      exact (hcommon b hb (Dominates.refl _ _ _) y hmem _ hne (varDom_getVar hidom hne)).symm
    · rw [hkept y hy]
      refine hvs y fun hmem => ?_
      obtain ⟨a, ha, rfl⟩ := mem_map.1 hmem
      by_contra hk
      exact hy (mem_map_of_mem (mem_filter.2 ⟨ha, by simpa using hk⟩))
  rw [heq] at hexec
  exact exec_append_of_silent hexec

/-- Any label of the transfer but that of a `goto` may be entered with any values. -/
theorem entryRel_of_labels (hcommon : Common P f b.label env) (hl : l ∈ b.transfer.labels)
    (hgoto : ∀ args, b.transfer ≠ .goto l args) (vs : List m.Value) :
    EntryRel P idom f ⟨l, vs, env⟩ ⟨l, vs, env⟩ := by
  obtain ⟨c, hc, rfl⟩ := h.exists_block hf hb hl
  refine .all c vs env hc (hreach.tail ⟨b, hb, rfl, hl⟩)
    (hcommon.enter h hscoped hf hb hreach hc hl fun args ht => absurd ht (hgoto args)) fun v hv => ?_
  refine keepVar_of_rooted hidom (edges_of_transfer hf hb (rooted_of_labels hl hgoto ?_))
  rw [labelArgs_eq h hf hc]
  exact hv

/-- The transfers of both blocks ask for the same, or jump with the values that are kept. -/
theorem action_rel (hcommon : Common P f b.label env) :
    Option.Rel (ActionRel (EntryRel P idom) P f env env) (action env b.transfer)
      (action env (block P idom b).transfer) := by
  by_cases hgoto : ∃ dst args, b.transfer = .goto dst args
  · obtain ⟨dst, args, ht⟩ := hgoto
    have hl : dst ∈ b.transfer.labels := by simp [ht, Transfer.labels]
    obtain ⟨c, hc, rfl⟩ := h.exists_block hf hb hl
    rw [block, ht]
    dsimp only [action, Option.map_some]
    rw [labelArgs_eq h hf hc, ← keepArgs_map]
    refine .some (.jump _ _ _ _ (.keep c _ env hc (hreach.tail ⟨b, hb, rfl, hl⟩) ?_ ?_))
    · refine hcommon.enter h hscoped hf hb hreach hc hl fun args' ht' => ?_
      rw [ht] at ht'
      cases ht'
      rfl
    · simpa using congrArg List.length (goto_typed h hf hc hb ht)
  · have hsame : (block P idom b).transfer = b.transfer := by
      rw [block]
      cases ht : b.transfer with
      | goto dst args => exact absurd ⟨dst, args, ht⟩ hgoto
      | _ => rfl
    rw [hsame]
    refine actionRel_self h hf hb fun a e ha he => ?_
    obtain ⟨l, vs, _⟩ := e
    obtain rfl := he.env_eq
    exact entryRel_of_labels h hscoped hidom hf hb hreach hcommon (he.mem_labels ha)
      (fun args ht => hgoto ⟨_, args, ht⟩) vs

end Simulation

end MultiMLton.Ssa.CommonArg
