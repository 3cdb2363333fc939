import MultiMLton.Ssa.CommonArgTyped

/-!
# Common-argument elimination is correct

The formals that `eliminate` takes away hold the values of the variables that replace them, wherever
the program comes, and those variables are bound before. The new program is well formed and behaves
as the original one: `eliminate_correct`.
-/

namespace MultiMLton.Ssa.CommonArg

open MultiMLton.Basic MultiMLton.Lib Machine PassSimulation List

variable {P : Program} {Γ : Var → Ty} {idom : Node → IdomRes Node} {f : Function} {b : Block}
  {a : Var} {m : Machine}

section Simulation

variable (h : P.WellTyped Γ) (hscoped : P.WellScoped) (hidom : IsDominators (graph P) none idom)

include h

/-- At the start nothing is in scope but the arguments. -/
theorem common_start (hf : f ∈ P.functions) (hb : b ∈ f.blocks) (hl : b.label = f.start)
    (hargs : b.args = []) (env : m.Env) : Common P f b.label env := by
  intro c hc hdom a ha
  have hmem := hdom [f.start] (hl ▸ .root)
  rw [mem_singleton] at hmem
  obtain rfl := h.block_unique (Program.mem_blocks.2 ⟨f, hf, hc⟩) (Program.mem_blocks.2 ⟨f, hf, hb⟩)
    (hmem.trans hl.symm)
  rw [Block.formals, hargs] at ha
  cases ha

include hscoped hidom

/-- The two programs enter the same blocks. -/
theorem transform_simulates (m : Machine) :
    Simulates (fun f (e e' : m.Entry) => EntryRel P idom f e e') P (transform P idom) where
  globals := rfl
  main := rfl
  start := by
    obtain ⟨f, hf, -⟩ := h.main
    rw [hf]
    exact Option.some_ne_none f
  enter n f hn := by
    obtain ⟨hf, -⟩ := (Program.func?_eq_some h).1 hn
    refine ⟨hf, function P idom f,
      Program.func?_revMap (g := function P idom) h (fun _ => rfl) hn, fun globals vs => ?_⟩
    obtain ⟨b, hb, hl, hargs⟩ := h.exists_start hf
    have hall : EntryRel P idom f ⟨b.label, [], globals.bind (f.args.map Prod.fst) vs⟩
        ⟨b.label, [], globals.bind (f.args.map Prod.fst) vs⟩ := by
      refine .all b [] _ hb (hl ▸ .refl) (common_start h hf hb hl hargs _) fun v hv => ?_
      rw [Block.formals, hargs] at hv
      cases hv
    rw [hl] at hall
    exact hall
  block f hf e e' he := by
    have hlookup {b : Block} (hb : b ∈ f.blocks) : P.block? b.label = some b :=
      (Program.block?_eq_some h).2 ⟨Program.mem_blocks.2 ⟨f, hf, hb⟩, rfl⟩
    have hlookup' {b : Block} (hb : b ∈ f.blocks) :
        (transform P idom).block? b.label = some (block P idom b) :=
      Program.block?_revMap (g := function P idom) (labels_nodup h) hf (b := block P idom b)
        (mem_map_of_mem hb)
    have hbody {b : Block} (hb : b ∈ f.blocks) (hreach : f.Reaches b.label) {env : m.Env}
        {vs vs' : List m.Value} (hcommon : Common P f b.label (env.bind b.formals vs))
        (hvs : ∀ y, (y ∈ b.formals → keepVar idom y = true) →
          env.bind ((b.args.filter fun a => keepVar idom a.1).map Prod.fst) vs' y =
            env.bind b.formals vs y) :
        BodyRel (fun f (e e' : m.Entry) => EntryRel P idom f e e') P f b (block P idom b)
          (env.bind b.formals vs) (env.bind ((block P idom b).args.map Prod.fst) vs') := by
      intro w
      rw [exec_block h hscoped hidom hf hb hreach hcommon hvs w]
      exact ⟨rfl, action_rel h hscoped hidom hf hb hreach
        (hcommon.exec h hscoped hf hb hreach w)⟩
    cases he with
    | keep b vs env hb hreach hcommon hlen =>
      exact ⟨b, block P idom b, _, hlookup hb, .refl, hlookup' hb,
        hbody hb hreach hcommon fun y hy => bind_keep hlen hy⟩
    | all b vs env hb hreach hcommon hkeep =>
      refine ⟨b, block P idom b, _, hlookup hb, .refl, hlookup' hb, hbody hb hreach hcommon ?_⟩
      intro y _
      have hargs : b.args.filter (fun a => keepVar idom a.1) = b.args :=
        filter_eq_self.2 fun a ha => hkeep a.1 (mem_map_of_mem ha)
      rw [hargs]
      rfl

/-- Formals hold the values of their dominators wherever the program comes. -/
theorem common_of_reaches {w w' : m.World} {globals : m.Env} {t : m.Thread} {ts : List m.Thread}
    (hreaches : P.Reaches w (.running globals t ts w')) (hf : f ∈ P.functions) (hb : b ∈ f.blocks)
    (hl : t.label = b.label) : Common P f b.label (t.env.bind b.formals t.args) := by
  obtain ⟨n, es, hrun⟩ := hreaches
  obtain ⟨-, s', -, -, hrel⟩ := ((transform_simulates h hscoped hidom m).follows w).run (.start w) hrun
  cases hrel with
  | running _ _ _ _ _ _ ht _ =>
  cases ht with
  | intro f' e e' frames frames' hf' he hframes =>
    have hsame {b' : Block} (hb' : b' ∈ f'.blocks) (hl : b'.label = b.label) : b' = b :=
      h.block_unique (Program.mem_blocks.2 ⟨f', hf', hb'⟩) (Program.mem_blocks.2 ⟨f, hf, hb⟩) hl
    have hfun {b' : Block} (hb' : b' ∈ f'.blocks) (hl : b'.label = b.label) : f' = f :=
      h.function_unique hf' hf hb' hb hl
    cases he with
    | keep b' vs env hb' hreach hcommon hlen | all b' vs env hb' hreach hcommon hkeep =>
      obtain rfl := hfun hb' hl
      obtain rfl := hsame hb' hl
      exact hcommon

end Simulation

/-- What holds of a formal `a` of block `b` that is bound to another variable instead. -/
structure Replaced (P : Program) (idom : Node → IdomRes Node) (f : Function) (b : Block) (a : Var) :
    Prop where
  /-- the variable is bound in a block that strictly dominates the formal's, or outside of blocks -/
  bound : f.Reaches b.label → f.BoundBefore P.globalVars b.label (getVar idom a)
  /-- only jumps lead to the block, and they drop what the block does not keep -/
  jumps : ∀ c ∈ f.blocks, b.label ∈ c.transfer.labels → ∃ args, c.transfer = .goto b.label args ∧
    args.length = b.args.length ∧
    (block P idom c).transfer = .goto b.label (keepArgs idom b.args args)
  /-- whenever the block is entered, both hold one value -/
  values : ∀ (m : Machine) (w : m.World) (globals : m.Env) (t : m.Thread) (ts : List m.Thread)
    (w' : m.World), P.Reaches w (.running globals t ts w') → t.label = b.label →
    t.env.bind b.formals t.args a = t.env.bind b.formals t.args (getVar idom a)

/-- `eliminate` returns. The formals that it removes hold the values of the variables that replace
them, and the new program is well formed and behaves as the original one; so it does after a shrinker,
on the machines on which that preserves behaviour. -/
theorem eliminate_correct (h : P.WellTyped Γ) (hscoped : P.WellScoped) : ∃ idom,
    (∀ shrink, Yields (eliminate P shrink) ((transform P idom).shrinkFunctions shrink)) ∧
      (∀ f ∈ P.functions, ∀ b ∈ f.blocks, ∀ a ∈ b.formals, keepVar idom a = false →
        Replaced P idom f b a) ∧
      (transform P idom).WellTyped Γ ∧ (transform P idom).WellScoped ∧
      P.SameObservable (transform P idom) ∧
      ∀ Law shrink, Shrinks Law shrink → P.SameUnder Law ((transform P idom).shrinkFunctions shrink) := by
  obtain ⟨idom, hyields, hidom, -⟩ := Dominators.dominators_yields (graph P) none_mem_nodes
  have hsame : P.SameObservable (transform P idom) := fun m w _ =>
    (transform_simulates h hscoped hidom m).sameObservable w
  have htyped := transform_wellTyped h hidom
  have hscoped' := transform_wellScoped h hscoped hidom
  refine ⟨idom, fun shrink => ?_, fun f hf b hb a ha hk => ⟨fun hreach => ?_, fun c hc hl => ?_, ?_⟩,
    htyped, hscoped', hsame, fun _ shrink hshrink => hsame.shrink (hshrink _ ⟨Γ, htyped, hscoped'⟩) rfl⟩
  · refine hyields.mono fun fuel hfuel => ?_
    rw [eliminate, hfuel]
    simp only [Option.bind_eq_bind, Option.bind_some, Program.revMap, Program.shrinkFunctions,
      List.map_reverse, List.map_map]
    rfl
  · exact getVar_boundBefore h hscoped hidom hf hb hreach ha (keepVar_eq_false.1 hk)
  · by_cases hgoto : ∀ args, c.transfer ≠ .goto b.label args
    · have hkeep := keepVar_of_rooted hidom (edges_of_transfer hf hc
        (rooted_of_labels hl hgoto (by rw [labelArgs_eq h hf hb]; exact ha)))
      rw [hk] at hkeep
      cases hkeep
    · push Not at hgoto
      obtain ⟨args, ht⟩ := hgoto
      refine ⟨args, ht, by simpa using congrArg List.length (goto_typed h hf hb hc ht), ?_⟩
      rw [block, ht]
      dsimp only
      rw [labelArgs_eq h hf hb]
  · intro m w globals t ts w' hreaches hl
    exact common_of_reaches h hscoped hidom hreaches hf hb hl b hb (Dominates.refl _ _ _) a ha _
      (keepVar_eq_false.1 hk) (varDom_getVar hidom (keepVar_eq_false.1 hk))

/-! ### A loop -/

/-- A loop whose formal is always the variable that is passed to it first. -/
def loop : Program where
  datatypes := []
  globals := []
  functions := [⟨[], [⟨[], 0, [⟨some 0, .unit, .tuple []⟩], .goto 1 [0]⟩,
    ⟨[(1, .unit)], 1, [], .goto 1 [1]⟩], false, 0, none, none, 0⟩]
  main := 0

theorem loop_wellTyped : loop.WellTyped fun _ => .unit where
  defs := by decide
  labels := by decide
  funcs := by decide
  main := ⟨_, rfl, rfl⟩
  globals := by simp [loop]
  functions := by
    simp only [loop, forall_mem_singleton]
    refine ⟨nofun, ?_, ?_, ?_, rfl⟩
    · simp
    · simp only [mem_cons, not_mem_nil, or_false]
      rintro b (rfl | rfl) s hs
      · obtain rfl := mem_singleton.1 hs
        exact ⟨rfl, fun _ _ => rfl⟩
      · cases hs
    · simp only [mem_cons, not_mem_nil, or_false]
      rintro b (rfl | rfl) <;> rfl

theorem loop_wellScoped : loop.WellScoped where
  globals pre s post h := by simp [loop] at h
  functions := by
    simp only [loop, forall_mem_singleton]
    refine ⟨?_, ?_⟩
    · simp only [mem_cons, not_mem_nil, or_false]
      rintro b (rfl | rfl) - pre s post h x hx
      · cases pre with
        | nil =>
          cases h
          cases hx
        | cons => simp at h
      · simp at h
    · simp only [mem_cons, not_mem_nil, or_false]
      rintro b (rfl | rfl) - x hx
      · obtain rfl := mem_singleton.1 hx
        exact .inr mem_cons_self
      · obtain rfl := mem_singleton.1 hx
        exact .inl (.formal _ (mem_cons_of_mem _ mem_cons_self) mem_cons_self
          (Dominates.refl _ _ _))

theorem eliminate_correct_loop : ∃ idom,
    (∀ shrink, Yields (eliminate loop shrink) ((transform loop idom).shrinkFunctions shrink)) ∧
      (∀ f ∈ loop.functions, ∀ b ∈ f.blocks, ∀ a ∈ b.formals, keepVar idom a = false →
        Replaced loop idom f b a) ∧
      (transform loop idom).WellTyped (fun _ => .unit) ∧ (transform loop idom).WellScoped ∧
      loop.SameObservable (transform loop idom) ∧
      ∀ Law shrink, Shrinks Law shrink →
        loop.SameUnder Law ((transform loop idom).shrinkFunctions shrink) :=
  eliminate_correct loop_wellTyped loop_wellScoped

example : ((dominators (graph loop) none 10).map fun idom => getVar idom 1) = some 0 := by
  decide

end MultiMLton.Ssa.CommonArg
