import MultiMLton.Lib.Fuel
import MultiMLton.Ssa.Activation
import MultiMLton.Ssa.LoopInvariantTyped

/-!
# Splitting loop headers is correct

Whenever a block is entered, its invariant formals hold the values that they were given when an
activation entered the block last by anything but a jump back (`entering_value`). The new program is well
formed and behaves as the original one: `loopInvariant_correct`.
-/

namespace MultiMLton.Ssa.LoopInvariant

open MultiMLton.Lib Dfs Machine PassSimulation List Option

variable {P : Program} {Γ : Var → Ty} {f : Function} {b : Block} {m : Machine} {e : m.Entry}
  {es : List m.Entry} {y : Var}

/-- Where an activation has entered block `l` last by anything but a jump back. -/
def entering (f : Function) (l : Label) : List m.Entry → Option m.Entry
  | [] => none
  | e :: es =>
    if e.label = l ∧ ¬(es.head?.any fun e' => jumpsBack f e'.label l) then some e
    else entering f l es

theorem entering_cons_of_ne {l : Label} (h : e.label ≠ l) :
    entering f l (e :: es) = entering f l es := by
  rw [entering, if_neg fun hand => h hand.1]

section Values

variable (h : P.WellTyped Γ) (hscoped : P.WellScoped) (hf : f ∈ P.functions)

include h hf

/-- A jump back passes the invariant formals. -/
theorem repeats_of_jumpsBack (hb : b ∈ f.blocks) {l : Label}
    (hback : jumpsBack f b.label l = true) : ∃ K args, (b, K) ∈ visitsOf f ∧
      b.transfer = .goto l args ∧ (infoOf f).Repeats l args := by
  obtain ⟨⟨b', K⟩, hv, hmatch⟩ := any_eq_true.1 hback
  simp only [Bool.and_eq_true, decide_eq_true_eq] at hmatch
  obtain ⟨⟨hl, hK⟩, hmatch⟩ := hmatch
  obtain rfl := h.block_unique (Program.mem_blocks.2 ⟨f, hf, (mem_of_visit h hf hv).1⟩)
    (Program.mem_blocks.2 ⟨f, hf, hb⟩) hl
  cases ht : b'.transfer with
  | goto dst args =>
    rw [ht] at hmatch
    obtain rfl : dst = l := by simpa using hmatch
    exact ⟨K, args, hv, rfl, repeats_of_visit h hf hv ht hK⟩
  | _ =>
    rw [ht] at hmatch
    cases hmatch

include hscoped

/-- In a block that is dominated by a split one, the invariant formals of the latter have the values
that they were given when it was entered last by anything but a jump back. By induction on the
activation: a jump back passes them on, and nothing else binds them again. -/
theorem entering_value {c d : Block} (hact : P.Activation f (e :: es)) (hc : c ∈ f.blocks)
    (hl : c.label = e.label) (hd : d ∈ f.blocks) (hdom : f.Dominates d.label c.label)
    (hy : (y, true) ∈ (infoOf f).invariant d.label) :
    ∃ e₀, entering f d.label (e :: es) = some e₀ ∧ e.enter c y = e₀.enter d y := by
  have hformal : y ∈ d.formals := by
    rw [← invariant_formals h hf hd]
    exact mem_map_of_mem hy
  have hdP := Program.mem_blocks.2 ⟨f, hf, hd⟩
  generalize hes : e :: es = es' at hact
  induction hact generalizing e es c with
  | start globals vs =>
    -- nothing but itself dominates the start, which has no formals
    cases hes
    obtain ⟨b, hb, hlabel, hargs⟩ := h.exists_start hf
    have hmem := hdom [f.start] (hl ▸ .root)
    rw [mem_singleton] at hmem
    obtain rfl := h.block_unique hdP (Program.mem_blocks.2 ⟨f, hf, hb⟩) (hmem.trans hlabel.symm)
    rw [Block.formals, hargs] at hformal
    cases hformal
  | next e₁ e' es₁ b w a hact hb ha he ih =>
    cases hes
    obtain ⟨b', hbf, hbl, hreach, hfind⟩ := hact.exists_block h hf
    cases hb.symm.trans hfind
    have hlabels : c.label ∈ b.transfer.labels := hl ▸ he.mem_labels ha
    have hedge : f.Edge b.label c.label := ⟨b, hbf, rfl, hlabels⟩
    -- the statements of the block before do not bind the formal
    have hsame : e'.env y = e₁.enter b y := by
      rw [he.env_eq]
      refine exec_of_notMem (fun hmem => ?_) w
      obtain rfl := h.bound_unique hdP (Program.mem_blocks.2 ⟨f, hf, hbf⟩) (.inl hformal) (.inr hmem)
      exact h.formals_disjoint_binds hdP hformal hmem
    by_cases hdc : d = c
    · subst hdc
      by_cases hback : jumpsBack f e₁.label d.label = true
      · rw [← hbl] at hback
        obtain ⟨K, args, hv, ht, -, hrepeats⟩ := repeats_of_jumpsBack h hf hbf hback
        obtain ⟨i, hi⟩ := mem_iff_getElem?.1 hy
        have harg := hrepeats i y hi
        have hused : y ∈ b.transfer.vars := by
          rw [ht]
          exact mem_of_getElem? harg
        obtain ⟨e₀, hentering, hvalue⟩ := ih hbf hbl
          (dominates_of_formal h hf hscoped hv hd hformal hused) rfl
        refine ⟨e₀, ?_, ?_⟩
        · rw [entering, if_neg]
          · exact hentering
          · rw [head?_cons, any_some, ← hbl]
            exact fun hand => hand.2 hback
        · have hformals : d.formals[i]? = some y := by
            rw [← invariant_formals h hf hd, getElem?_map, hi]
            rfl
          have hpassed : e'.args[i]? = some (e'.env y) := by
            rw [ht] at ha
            rw [he.goto ha, he.env_eq, getElem?_map, harg]
            rfl
          have henter : e'.enter d y = e'.env y := Env.bind_getElem
            (Program.formals_nodup h (Program.formals_mem_formalLists hf hd)) hformals hpassed
          rw [henter, hsame, hvalue]
      · refine ⟨e', ?_, rfl⟩
        rw [entering, if_pos ⟨hl.symm, by rwa [head?_cons, any_some]⟩]
    · have hne : d.label ≠ c.label := fun heq =>
        hdc (h.block_unique hdP (Program.mem_blocks.2 ⟨f, hf, hc⟩) heq)
      obtain ⟨e₀, hentering, hvalue⟩ := ih hbf hbl (hdom.of_edge hne hedge) rfl
      refine ⟨e₀, ?_, ?_⟩
      · rw [entering_cons_of_ne (hl ▸ hne.symm)]
        exact hentering
      · rw [← hvalue, ← hsame]
        refine Env.bind_of_notMem fun hmem => hdc ?_
        exact h.bound_unique hdP (Program.mem_blocks.2 ⟨f, hf, hc⟩) (.inl hformal) (.inl hmem)

end Values

/-- What holds of a block `b` that is split. -/
structure Split (P : Program) (f : Function) (b : Block) : Prop where
  /-- whenever an activation enters the block, an invariant formal has the value that it was given when
  the block was entered last by anything but a jump back -/
  values : ∀ (m : Machine) (e : m.Entry) (es : List m.Entry), P.Activation f (e :: es) →
    e.label = b.label → ∀ y, (y, true) ∈ (infoOf f).invariant b.label →
      ∃ e₀, entering f b.label (e :: es) = some e₀ ∧ e.enter b y = e₀.enter b y
  /-- the head binds the invariant formals, and comes before all their uses -/
  scope : ∀ y, (y, true) ∈ (infoOf f).invariant b.label → y ∈ (head P (infoOf f) b).formals ∧
    ∀ c ∈ (function P f).blocks, (function P f).Reaches c.label →
      (y ∈ c.transfer.vars ∨ ∃ s ∈ c.statements, y ∈ s.exp.vars) →
        (function P f).Dominates b.label c.label
  /-- the body is entered by its head and by jumps back, which pass the arguments for its formals; those
  that are left out are the invariant formals themselves -/
  jumps : ∀ c ∈ (function P f).blocks, newLabel P b.label ∈ c.transfer.labels → ∃ args,
    c.transfer = .goto (newLabel P b.label) args ∧
      args.length = (innerFormals b.args ((infoOf f).invariant b.label)).length ∧
      (c = head P (infoOf f) b ∨ ∃ b' K args', (b', K) ∈ visitsOf f ∧ c = body P (infoOf f) K b' ∧
        b'.transfer = .goto b.label args' ∧ args = remove args' ((infoOf f).invariant b.label) ∧
        ∀ (i : ℕ) (y : Var), ((infoOf f).invariant b.label)[i]? = some (y, true) →
          args'[i]? = some y)

section Correct

variable (h : P.WellTyped Γ) (hscoped : P.WellScoped)

theorem length_remove {β γ δ : Type} {xs : List β} {ys : List γ} (invariant : List (δ × Bool))
    (hlen : xs.length = ys.length) : (remove xs invariant).length = (remove ys invariant).length := by
  induction xs generalizing ys invariant with
  | nil =>
    obtain rfl := length_eq_zero_iff.1 hlen.symm
    rfl
  | cons x xs ih =>
    cases ys with
    | nil => cases hlen
    | cons y ys =>
      cases invariant with
      | nil => rfl
      | cons z invariant =>
        have ih := ih invariant (Nat.succ_inj.1 hlen)
        obtain ⟨z, i⟩ := z
        cases i with
        | true => exact ih
        | false => exact congrArg (· + 1) ih

include h

/-- Every search returns with more fuel than there are blocks. -/
theorem loopInvariant_yields (shrink : List Statement → Function → Function) :
    Yields (loopInvariant P shrink) ((transform P).shrinkFunctions shrink) := by
  refine Filter.eventually_atTop.2 ⟨(P.functions.map fun f => f.blocks.length).foldr max 0 + 1,
    fun fuel hfuel => ?_⟩
  have hsimplify (f : Function) (hf : f ∈ P.functions) :
      simplifyFunction P shrink fuel f = some (shrink P.globals (function P f)) := by
    obtain ⟨visited, hrun, -⟩ := exists_searched h hf
    have hle : f.blocks.length ≤ (P.functions.map fun f => f.blocks.length).foldr max 0 :=
      le_max_of_le (mem_map_of_mem hf) le_rfl
    have hrun := fun {σ} => hrun fuel (by omega) (σ := σ)
    rw [simplifyFunction, hrun]
    simp only [Option.bind_eq_bind, Option.bind_some]
    rw [← infoOf, hrun]
    rfl
  rw [loopInvariant, mapM_eq_some hsimplify]
  simp only [Option.bind_eq_bind, Option.bind_some, Program.revMap, Program.shrinkFunctions,
    List.map_reverse, List.map_map]
  rfl

include hscoped

theorem split_of_changed (hf : f ∈ P.functions) (hb : b ∈ f.blocks)
    (hc : (infoOf f).changed b.label = true) : Split P f b where
  values m e es hact hl y hy :=
    entering_value h hscoped hf hact hb hl.symm hb (Dominates.refl _ _ _) hy
  scope y hy := by
    obtain ⟨K, hv⟩ := visit_of_changed h hf hb hc
    have hhead : y ∈ (head P (infoOf f) b).formals := by
      obtain ⟨i, hi⟩ := mem_iff_getElem?.1 hy
      have hi' := congrArg (fun l : List Var => l[i]?) (invariant_formals h hf hb)
      simp only [Block.formals, getElem?_map, hi, map_some] at hi'
      obtain ⟨⟨y', t⟩, ha, rfl⟩ := map_eq_some_iff.1 hi'.symm
      have hzip : (b.args.zip ((infoOf f).invariant b.label))[i]? = some ((y', t), y', true) :=
        getElem?_zip_eq_some.2 ⟨ha, hi⟩
      exact mem_map_of_mem (mem_map.2 ⟨_, mem_of_getElem? hzip, rfl⟩)
    refine ⟨hhead, fun c hc' hreach hused => ?_⟩
    have hfun : function P f ∈ (transform P).functions := Program.mem_revMap.2 ⟨f, hf, rfl⟩
    have hscope := function_wellScoped h hf hscoped
    refine (transform_wellTyped h hscoped).dominates_of_formal (b := head P (infoOf f) b) hfun
      (head_mem hv hc) hc' hhead ?_
    rcases hused with hused | ⟨s, hs, hused⟩
    · exact hscope.transfers c hc' hreach y hused
    · obtain ⟨pre, post, heq⟩ := append_of_mem hs
      refine (hscope.statements c hc' hreach pre s post heq y hused).imp_right fun hpre => ?_
      rw [Block.binds, heq, filterMap_append]
      exact mem_append_left _ hpre
  jumps c hc' hl := by
    obtain ⟨b', K, hv, rfl | ⟨hchanged, rfl⟩⟩ := mem_function.1 hc'
    · rcases labels_redirect hl with hl | ⟨dst, args, ht, hK, hchanged, heq⟩
      · obtain ⟨d, K', hv', heq⟩ := exists_visit h hf hv hl
        have hlt := visit_label_lt h hf hv'
        rw [heq] at hlt
        exact absurd hlt (not_lt.2 (Nat.le_add_right _ _))
      · obtain rfl := newLabel_inj heq
        refine ⟨remove args ((infoOf f).invariant b.label), ?_, ?_, .inr ⟨b', K, args, hv, rfl, ht, rfl,
          (repeats_of_visit h hf hv ht hK).2⟩⟩
        · rw [body, ht]
          dsimp only [redirect]
          rw [labelsAt, hK, hchanged]
          rfl
        · refine length_remove _ ?_
          simpa using congrArg List.length (goto_typed h hf (mem_of_visit h hf hv).1 hb ht)
    · obtain heq := newLabel_inj (mem_singleton.1 hl)
      obtain rfl := h.block_unique (Program.mem_blocks.2 ⟨f, hf, hb⟩)
        (Program.mem_blocks.2 ⟨f, hf, (mem_of_visit h hf hv).1⟩) heq
      exact ⟨_, rfl, by simp [innerActuals, innerFormals], .inl rfl⟩

end Correct

/-- `loopInvariant` returns. The invariant formals of the blocks that it splits keep their values until
the blocks are entered by anything but jumps back, and every thread is in an activation. The new program
is well formed and behaves as the original one; so it does after a shrinker, on the machines on which
that preserves behaviour. -/
theorem loopInvariant_correct (h : P.WellTyped Γ) (hscoped : P.WellScoped) :
    (∀ shrink, Yields (loopInvariant P shrink) ((transform P).shrinkFunctions shrink)) ∧
      (∀ f ∈ P.functions, ∀ b ∈ f.blocks, (infoOf f).changed b.label = true → Split P f b) ∧
      (∀ (m : Machine) (w w' : m.World) (globals : m.Env) (t : m.Thread) (ts : List m.Thread),
        P.Reaches w (.running globals t ts w') →
          ∃ f ∈ P.functions, ∃ es, P.Activation f (⟨t.label, t.args, t.env⟩ :: es)) ∧
      (transform P).WellTyped (newTypes P Γ) ∧ (transform P).WellScoped ∧
      P.SameObservable (transform P) ∧
      ∀ Law shrink, Shrinks Law shrink → P.SameUnder Law ((transform P).shrinkFunctions shrink) := by
  have hsame : P.SameObservable (transform P) := fun m w harity =>
    (transform_simulates h hscoped m harity).sameObservable w
  have htyped := transform_wellTyped h hscoped
  have hscoped' := transform_wellScoped h hscoped
  exact ⟨loopInvariant_yields h, fun f hf b hb hc => split_of_changed h hscoped hf hb hc,
    fun m w w' globals t ts hreaches => exists_activation h hreaches, htyped, hscoped', hsame,
    fun _ shrink hshrink => hsame.shrink (hshrink _ ⟨_, htyped, hscoped'⟩) rfl⟩

/-! ### A loop -/

/-- A loop with an invariant formal and one that changes. -/
def loop : Program where
  datatypes := []
  globals := []
  functions := [⟨[], [⟨[], 0, [⟨some 0, .unit, .tuple []⟩], .goto 1 [0, 0]⟩,
    ⟨[(1, .unit), (2, .unit)], 1, [⟨some 3, .unit, .tuple []⟩], .goto 1 [1, 3]⟩], false, 0, none, none,
    0⟩]
  main := 0

theorem loop_wellTyped : loop.WellTyped fun _ => .unit where
  defs := by decide
  labels := by decide
  funcs := by decide
  main := ⟨_, rfl, rfl⟩
  globals := by simp [loop]
  functions := by
    simp only [loop, forall_mem_singleton]
    refine ⟨nofun, ?_, ?_, ?_, rfl⟩
    · simp only [mem_cons, not_mem_nil, or_false]
      rintro b (rfl | rfl) x hx
      · cases hx
      · simp only [mem_cons, not_mem_nil, or_false] at hx
        rcases hx with rfl | rfl <;> rfl
    · simp only [mem_cons, not_mem_nil, or_false]
      rintro b (rfl | rfl) s hs
      · obtain rfl := mem_singleton.1 hs
        exact ⟨rfl, fun _ _ => rfl⟩
      · obtain rfl := mem_singleton.1 hs
        exact ⟨rfl, fun _ _ => rfl⟩
    · simp only [mem_cons, not_mem_nil, or_false]
      rintro b (rfl | rfl) <;> rfl

theorem loop_wellScoped : loop.WellScoped where
  globals pre s post h := by simp [loop] at h
  functions := by
    simp only [loop, forall_mem_singleton]
    refine ⟨?_, ?_⟩
    · simp only [mem_cons, not_mem_nil, or_false]
      rintro b (rfl | rfl) - pre s post h x hx
      · cases pre with
        | nil =>
          cases h
          cases hx
        | cons => simp at h
      · cases pre with
        | nil =>
          cases h
          cases hx
        | cons => simp at h
    · simp only [mem_cons, not_mem_nil, or_false]
      rintro b (rfl | rfl) - x hx
      · have hx : x = 0 := by simpa [Transfer.vars] using hx
        subst hx
        exact .inr mem_cons_self
      · have hx : x = 1 ∨ x = 3 := by simpa [Transfer.vars] using hx
        rcases hx with rfl | rfl
        · exact .inl (.formal _ (mem_cons_of_mem _ mem_cons_self) mem_cons_self
            (Dominates.refl _ _ _))
        · exact .inr mem_cons_self

theorem loopInvariant_correct_loop :
    (∀ shrink, Yields (loopInvariant loop shrink) ((transform loop).shrinkFunctions shrink)) ∧
      (∀ f ∈ loop.functions, ∀ b ∈ f.blocks, (infoOf f).changed b.label = true → Split loop f b) ∧
      (∀ (m : Machine) (w w' : m.World) (globals : m.Env) (t : m.Thread) (ts : List m.Thread),
        loop.Reaches w (.running globals t ts w') →
          ∃ f ∈ loop.functions, ∃ es, loop.Activation f (⟨t.label, t.args, t.env⟩ :: es)) ∧
      (transform loop).WellTyped (newTypes loop fun _ => .unit) ∧ (transform loop).WellScoped ∧
      loop.SameObservable (transform loop) ∧
      ∀ Law shrink, Shrinks Law shrink → loop.SameUnder Law ((transform loop).shrinkFunctions shrink) :=
  loopInvariant_correct loop_wellTyped loop_wellScoped

example : (transform loop).functions.flatMap Function.blocks =
    [⟨[(1, .unit), (6, .unit)], 1, [], .goto 3 [6]⟩,
      ⟨[(2, .unit)], 3, [⟨some 3, .unit, .tuple []⟩], .goto 3 [3]⟩,
      ⟨[], 0, [⟨some 0, .unit, .tuple []⟩], .goto 1 [0, 0]⟩] := by
  decide

end MultiMLton.Ssa.LoopInvariant
