import MultiMLton.Ssa.TypeCheck
import MultiMLton.Ssa.Semantics

/-!
# Passes that change blocks

A pass that changes the blocks of each function behaves the same if entering a block of the original
program is related to entering a block of the new one, such that

* both blocks emit the same and ask for the same, or jump to entries that are related;
* the new program may run through blocks that only jump before it comes to that block.

The activations that wait and the other threads are related by what happens when they go on, and that
is said here once for all passes: `Simulates.sameObservable`.
-/

namespace MultiMLton.Ssa

open MultiMLton.Lib Machine List Option

/-- Constructors have as many arguments as they have been declared with. -/
def Machine.RespectsArity (m : Machine) (P : Program) : Prop :=
  ∀ v, ∀ d ∈ P.datatypes, ∀ ts, ((m.conArgs v).1, ts) ∈ d.cons → (m.conArgs v).2.length = ts.length

/-- The same events and the same ends, on all machines that respect arities and in all worlds. -/
def Program.SameObservable (P P' : Program) : Prop :=
  ∀ (m : Machine) (w : m.World), m.RespectsArity P →
    StepSystem.SameObservable (P.system m w) (P'.system m w)

/-- A block that is about to be entered. -/
structure Machine.Entry (m : Machine) where
  label : Label
  args : List m.Value
  env : m.Env

variable {m : Machine}

/-- The values of variables in the block. -/
def Machine.Entry.enter (e : m.Entry) (b : Block) : m.Env := e.env.bind (b.args.map Prod.fst) e.args

def Machine.Entry.thread (e : m.Entry) (frames : List m.Frame) : m.Thread :=
  ⟨e.label, e.args, e.env, frames⟩

/-- A block without statements jumps to the next entry. -/
def Program.Glide (P : Program) (e e' : m.Entry) : Prop :=
  ∃ b l vs, P.block? e.label = some b ∧ b.statements = [] ∧
    action (e.enter b) b.transfer = some (.jump l vs) ∧ e' = ⟨l, vs, e.enter b⟩

/-- A case continues at one of its labels. -/
theorem Machine.mem_labels_of_select {env : m.Env} {test : Var} {cases : Cases}
    {default : Option Label} {l : Label} {vs : List m.Value}
    (h : select' env test cases default = some (l, vs)) :
    l ∈ (Transfer.case test cases default).labels := by
  have hdefault (h : default.map (fun l => (l, ([] : List m.Value))) = some (l, vs)) :
      l ∈ cases.labels ++ default.toList := by
    obtain ⟨l', rfl, heq⟩ := map_eq_some_iff.1 h
    cases heq
    exact mem_append_right _ (by simp)
  rw [Transfer.labels]
  cases cases with
  | con cs | word s cs =>
    simp only [select'] at h
    split at h
    · rename_i c l' hfind
      cases h
      exact mem_append_left _ (mem_map_of_mem (mem_of_find?_eq_some hfind))
    · exact hdefault h

namespace PassSimulation

variable {P P' : Program} (E : Function → m.Entry → m.Entry → Prop)

/-- The activations that wait for `f` go on with related entries. -/
inductive FramesRel (P : Program) : Function → List m.Frame → List m.Frame → Prop
  | nil (f) : FramesRel P f [] []
  | cons (f g cont handler env env' frames frames') (hg : g ∈ P.functions)
    (hcont : ∀ l, cont = some l → ∀ ts, f.returns = some ts → ∀ vs, vs.length = ts.length →
      E g ⟨l, vs, env⟩ ⟨l, vs, env'⟩)
    (hhandle : ∀ l, handler = .handle l → ∀ ts, f.raises = some ts → ∀ vs, vs.length = ts.length →
      E g ⟨l, vs, env⟩ ⟨l, vs, env'⟩)
    (hcaller : handler = .caller → ∀ ts, f.raises = some ts → g.raises = some ts)
    (hframes : FramesRel P g frames frames') :
    FramesRel P f (⟨cont, handler, env⟩ :: frames) (⟨cont, handler, env'⟩ :: frames')

inductive ThreadRel (P : Program) : m.Thread → m.Thread → Prop
  | intro (f e e' frames frames') (hf : f ∈ P.functions) (he : E f e e')
    (hframes : FramesRel E P f frames frames') :
    ThreadRel P (e.thread frames) (e'.thread frames')

inductive StateRel (P : Program) : m.State → m.State → Prop
  | start (w) : StateRel P (.start w) (.start w)
  | running (globals t t' ts ts' w) (ht : ThreadRel E P t t')
    (hts : List.Forall₂ (ThreadRel E P) ts ts') :
    StateRel P (.running globals t ts w) (.running globals t' ts' w)
  | ended (o w) : StateRel P (.ended o w) (.ended o w)

/-- What is done with the results of a call. -/
def ReturnRel (f g : Function) (env env' : m.Env) : Return → Prop
  | .dead => g.returns = none ∧ g.raises = none
  | .nonTail cont handler =>
    (∀ ts, g.returns = some ts → ∀ vs : List m.Value, vs.length = ts.length →
      E f ⟨cont, vs, env⟩ ⟨cont, vs, env'⟩) ∧
    (∀ l, handler = .handle l → ∀ ts, g.raises = some ts → ∀ vs : List m.Value,
      vs.length = ts.length → E f ⟨l, vs, env⟩ ⟨l, vs, env'⟩) ∧
    (handler = .caller → ∀ ts, g.raises = some ts → f.raises = some ts)
  | .tail =>
    (∀ ts, g.raises = some ts → f.raises = some ts) ∧
      ∀ ts, g.returns = some ts → f.returns = some ts

/-- What the transfers of two blocks ask for. -/
inductive ActionRel (P : Program) (f : Function) (env env' : m.Env) : m.Action → m.Action → Prop
  | jump (l l' vs vs') (h : E f ⟨l, vs, env⟩ ⟨l', vs', env'⟩) :
    ActionRel P f env env' (.jump l vs) (.jump l' vs')
  | bug : ActionRel P f env env' .bug .bug
  | call (n g vs r) (hg : P.func? n = some g) (hr : ReturnRel E f g env env' r) :
    ActionRel P f env env' (.call n vs r) (.call n vs r)
  | raise (vs ts) (hf : f.raises = some ts) (hlen : vs.length = ts.length) :
    ActionRel P f env env' (.raise vs) (.raise vs)
  | ret (vs ts) (hf : f.returns = some ts) (hlen : vs.length = ts.length) :
    ActionRel P f env env' (.ret vs) (.ret vs)
  | runtime (p vs l) (h : ∀ v, E f ⟨l, [v], env⟩ ⟨l, [v], env'⟩) :
    ActionRel P f env env' (.runtime p vs l) (.runtime p vs l)

/-- Two blocks emit the same, and ask for the same. -/
def BodyRel (P : Program) (f : Function) (b b' : Block) (env env' : m.Env) : Prop :=
  ∀ w, (exec env' w b'.statements).2 = (exec env w b.statements).2 ∧
    Option.Rel (ActionRel E P f (exec env w b.statements).1 (exec env' w b'.statements).1)
      (action (exec env w b.statements).1 b.transfer)
      (action (exec env' w b'.statements).1 b'.transfer)

/-- The new program enters related blocks. -/
structure Simulates (P P' : Program) : Prop where
  globals : P'.globals = P.globals
  main : P'.main = P.main
  start : P.func? P.main ≠ none
  enter : ∀ n f, P.func? n = some f → f ∈ P.functions ∧ ∃ f', P'.func? n = some f' ∧
    ∀ (globals : m.Env) (vs : List m.Value),
      E f ⟨f.start, [], globals.bind (f.args.map Prod.fst) vs⟩
        ⟨f'.start, [], globals.bind (f'.args.map Prod.fst) vs⟩
  block : ∀ f ∈ P.functions, ∀ e e', E f e e' → ∃ b b' e'', P.block? e.label = some b ∧
    Relation.ReflTransGen P'.Glide e' e'' ∧ P'.block? e''.label = some b' ∧
    BodyRel E P f b b' (e.enter b) (e''.enter b')

variable {E}

/-! ### Activations that wait -/

theorem FramesRel.tail {f f' : Function} {frames frames' : List m.Frame}
    (h : FramesRel E P f frames frames')
    (hraises : ∀ ts, f'.raises = some ts → f.raises = some ts)
    (hreturns : ∀ ts, f'.returns = some ts → f.returns = some ts) :
    FramesRel E P f' frames frames' := by
  cases h with
  | nil => exact .nil f'
  | cons _ g cont handler env env' frames frames' hg hcont hhandle hcaller hframes =>
    exact .cons f' g cont handler env env' frames frames' hg
      (fun l hl ts hts => hcont l hl ts (hreturns ts hts))
      (fun l hl ts hts => hhandle l hl ts (hraises ts hts))
      (fun hc ts hts => hcaller hc ts (hraises ts hts)) hframes

/-- The frames of a function that is called. -/
theorem FramesRel.push {f g : Function} {frames frames' : List m.Frame} {env env' : m.Env}
    {r : Return} (h : FramesRel E P f frames frames') (hf : f ∈ P.functions)
    (hr : ReturnRel E f g env env' r) :
    FramesRel E P g (pushFrame env frames r) (pushFrame env' frames' r) := by
  cases r with
  | dead =>
    refine .cons g f none .dead env env' frames frames' hf ?_ ?_ ?_ h
    · exact nofun
    · exact nofun
    · exact nofun
  | nonTail cont handler =>
    obtain ⟨hcont, hhandle, hcaller⟩ := hr
    refine .cons g f (some cont) handler env env' frames frames' hf ?_ hhandle hcaller h
    intro l hl
    cases hl
    exact hcont
  | tail => exact h.tail hr.1 hr.2

/-- Where unwinding leads. -/
inductive UnwindRel (E : Function → m.Entry → m.Entry → Prop) (P : Program) :
    m.Thread ⊕ Outcome → m.Thread ⊕ Outcome → Prop
  | thread (t t') (h : ThreadRel E P t t') : UnwindRel E P (.inl t) (.inl t')
  | outcome (o) : UnwindRel E P (.inr o) (.inr o)

section Unwind

variable {f : Function} {frames frames' : List m.Frame} {vs : List m.Value} {ts : List Ty}

theorem unwindReturn_rel (h : FramesRel E P f frames frames') (hf : f.returns = some ts)
    (hlen : vs.length = ts.length) :
    Option.Rel (UnwindRel E P) (unwindReturn vs frames) (unwindReturn vs frames') := by
  cases h with
  | nil => exact .some (.outcome _)
  | cons _ g cont handler env env' frames frames' hg hcont hhandle hcaller hframes =>
    cases cont with
    | none => exact .none
    | some l =>
      exact .some (.thread _ _ (.intro g _ _ frames frames' hg (hcont l rfl ts hf vs hlen) hframes))

theorem unwindRaise_rel (h : FramesRel E P f frames frames') (hf : f.raises = some ts)
    (hlen : vs.length = ts.length) :
    Option.Rel (UnwindRel E P) (unwindRaise vs frames) (unwindRaise vs frames') := by
  induction h with
  | nil => exact .some (.outcome _)
  | cons f g cont handler env env' frames frames' hg hcont hhandle hcaller hframes ih =>
    cases handler with
    | caller => exact ih (hcaller rfl ts hf)
    | dead => exact .none
    | handle l =>
      exact .some (.thread _ _ (.intro g _ _ frames frames' hg (hhandle l rfl ts hf vs hlen) hframes))

end Unwind

/-! ### Steps -/

theorem getElem?_rel {β γ : Type} {R : β → γ → Prop} {l : List β} {l' : List γ}
    (h : List.Forall₂ R l l') (i : ℕ) : Option.Rel R l[i]? l'[i]? := by
  induction h generalizing i with
  | nil => exact .none
  | cons hab _ ih =>
    cases i with
    | zero => exact .some hab
    | succ i => exact ih i

/-- The same events, and related states. -/
def StepRel (E : Function → m.Entry → m.Entry → Prop) (P : Program)
    (a a' : List m.Event × m.State) : Prop := a.1 = a'.1 ∧ StateRel E P a.2 a'.2

section Step

variable {f : Function} {globals env env' : m.Env} {frames frames' : List m.Frame}
  {threads threads' : List m.Thread}

theorem unwind_rel {a a' : Option (m.Thread ⊕ Outcome)}
    (hthreads : List.Forall₂ (ThreadRel E P) threads threads') (w : m.World)
    (ha : Option.Rel (UnwindRel E P) a a') :
    Option.Rel (StepRel E P)
      (a.map fun
        | .inl t => (([], .running globals t threads w) : List m.Event × m.State)
        | .inr o => ([], .ended o w))
      (a'.map fun
        | .inl t => ([], .running globals t threads' w)
        | .inr o => ([], .ended o w)) := by
  cases ha with
  | none => exact .none
  | some hrel =>
    cases hrel with
    | thread t t' ht => exact .some ⟨rfl, .running _ t t' _ _ w ht hthreads⟩
    | outcome o => exact .some ⟨rfl, .ended o w⟩

theorem Simulates.enter_rel (h : Simulates E P P') {n : Func} {g : Function}
    (hg : P.func? n = some g) (globals : m.Env) (vs : List m.Value) {frames frames' : List m.Frame}
    (hframes : FramesRel E P g frames frames') :
    Option.Rel (ThreadRel E P) (P.enter globals n vs frames) (P'.enter globals n vs frames') := by
  obtain ⟨hmem, g', hg', hentry⟩ := h.enter n g hg
  rw [Program.enter, Program.enter, hg, hg']
  exact .some (.intro g _ _ frames frames' hmem (hentry globals vs) hframes)

/-- What is asked for is done in both programs. -/
theorem Simulates.perform_rel (h : Simulates E P P') (hf : f ∈ P.functions)
    (hframes : FramesRel E P f frames frames')
    (hthreads : List.Forall₂ (ThreadRel E P) threads threads') (w : m.World) {a a' : m.Action}
    (ha : ActionRel E P f env env' a a') :
    Option.Rel (StepRel E P) (P.perform globals env frames threads w a)
      (P'.perform globals env' frames' threads' w a') := by
  cases ha with
  | jump l l' vs vs' he =>
    exact .some ⟨rfl, .running _ _ _ _ _ w (.intro f _ _ frames frames' hf he hframes) hthreads⟩
  | bug => exact .some ⟨rfl, .ended .bug w⟩
  | call n g vs r hg hr =>
    have hrel := h.enter_rel hg globals vs (hframes.push hf hr)
    simp only [Program.perform]
    generalize P.enter globals n vs (pushFrame env frames r) = t,
      P'.enter globals n vs (pushFrame env' frames' r) = t' at hrel
    cases hrel with
    | none => exact .none
    | some ht => exact .some ⟨rfl, .running _ _ _ _ _ w ht hthreads⟩
  | raise vs ts hraises hlen => exact unwind_rel hthreads w (unwindRaise_rel hframes hraises hlen)
  | ret vs ts hreturns hlen => exact unwind_rel hthreads w (unwindReturn_rel hframes hreturns hlen)
  | runtime p vs l he =>
    have hthread (v : m.Value) :
        ThreadRel E P ⟨l, [v], env, frames⟩ ⟨l, [v], env', frames'⟩ :=
      .intro f ⟨l, [v], env⟩ ⟨l, [v], env'⟩ frames frames' hf (he v) hframes
    simp only [Program.perform]
    rcases m.runtime p vs w with ⟨resume, w'⟩
    cases resume with
    | same v => exact .some ⟨rfl, .running _ _ _ _ _ w' (hthread v) hthreads⟩
    | copy v =>
      exact .some ⟨rfl, .running _ _ _ _ _ w' (hthread v)
        (rel_append hthreads (.cons (hthread v) .nil))⟩
    | switch i v =>
      have hi := getElem?_rel hthreads i
      dsimp only
      generalize threads[i]? = t, threads'[i]? = t' at hi
      cases hi with
      | none => exact .none
      | some ht =>
        exact .some ⟨rfl, .running _ _ _ _ _ w' ht
          (rel_append hthreads (.cons (hthread v) .nil))⟩
    | halt => exact .some ⟨rfl, .ended _ w'⟩

end Step

/-- Blocks that only jump emit nothing. -/
theorem run_glide {e e' : m.Entry} (h : Relation.ReflTransGen P'.Glide e e') (globals : m.Env)
    (frames : List m.Frame) (threads : List m.Thread) (w w₀ : m.World) :
    ∃ n, (P'.system m w₀).run n (.running globals (e.thread frames) threads w) =
      some ([], .running globals (e'.thread frames) threads w) := by
  induction h with
  | refl => exact ⟨0, rfl⟩
  | @tail e₁ e₂ _ hglide ih =>
    obtain ⟨n, hn⟩ := ih
    obtain ⟨b, l, vs, hb, hnil, haction, rfl⟩ := hglide
    refine ⟨n + 1, ?_⟩
    have hstep : (P'.system m w₀).step (.running globals (e₁.thread frames) threads w) =
        some ([], .running globals (Entry.thread ⟨l, vs, e₁.enter b⟩ frames) threads w) := by
      simp only [Program.system, Program.step, Entry.thread, hb, hnil, exec, bind_eq_bind,
        bind_some]
      rw [show e₁.env.bind (b.args.map Prod.fst) e₁.args = e₁.enter b from rfl, haction]
      rfl
    exact StepSystem.run_append hn ((StepSystem.run_one _).trans hstep)

section Blocks

variable {f : Function} {globals : m.Env} {b b' : Block} {e e' : m.Entry}
  {frames frames' : List m.Frame} {threads threads' : List m.Thread}

/-- One step from related blocks. -/
theorem Simulates.step_rel (h : Simulates E P P') (hf : f ∈ P.functions)
    (hb : P.block? e.label = some b) (hb' : P'.block? e'.label = some b')
    (hbody : BodyRel E P f b b' (e.enter b) (e'.enter b'))
    (hframes : FramesRel E P f frames frames')
    (hthreads : List.Forall₂ (ThreadRel E P) threads threads') (w : m.World) :
    Option.Rel (StepRel E P) (P.step (.running globals (e.thread frames) threads w))
      (P'.step (.running globals (e'.thread frames') threads' w)) := by
  obtain ⟨hemit, haction⟩ := hbody w
  simp only [Program.step, Entry.thread, hb, hb', bind_eq_bind, bind_some]
  rw [show e.env.bind (b.args.map Prod.fst) e.args = e.enter b from rfl,
    show e'.env.bind (b'.args.map Prod.fst) e'.args = e'.enter b' from rfl]
  generalize exec (e.enter b) w b.statements = r, exec (e'.enter b') w b'.statements = r' at *
  obtain ⟨env, es, w₁⟩ := r
  obtain ⟨env', es', w₁'⟩ := r'
  cases hemit
  dsimp only at haction ⊢
  generalize action env b.transfer = a, action env' b'.transfer = a' at haction
  cases haction with
  | none => exact .none
  | some ha =>
    have hrel : Option.Rel _ (P.perform globals env frames threads w₁ _) _ :=
      h.perform_rel hf hframes hthreads w₁ ha
    simp only [bind_some]
    generalize P.perform globals env frames threads w₁ _ = s,
      P'.perform globals env' frames' threads' w₁ _ = s' at hrel
    cases hrel with
    | none => exact .none
    | some hs => exact .some ⟨congrArg (es ++ ·) hs.1, hs.2⟩

end Blocks

/-! ### Runs -/

theorem Simulates.start_rel (h : Simulates E P P') (w : m.World) :
    Option.Rel (StepRel E P) (P.step (.start w)) (P'.step (.start w)) := by
  obtain ⟨f, hf⟩ := ne_none_iff_exists'.1 h.start
  have hrel := h.enter_rel hf (exec (fun _ => m.unbound) w P.globals).1 [] (.nil f)
  simp only [Program.step, h.globals, h.main]
  generalize P.enter _ P.main [] [] = t, P'.enter _ P.main [] [] = t' at hrel
  cases hrel with
  | none => exact .none
  | some ht => exact .some ⟨rfl, .running _ _ _ _ _ _ ht .nil⟩

/-- Related states emit the same, once the new program has come to the block. -/
theorem Simulates.exists_glide (h : Simulates E P P') (w₀ : m.World) {s s' : m.State}
    (hs : StateRel E P s s') : ∃ n t', (P'.system m w₀).run n s' = some ([], t') ∧
      Option.Rel (StepRel E P) (P.step s) (P'.step t') ∧
      (P.step s = none → (P'.system m w₀).outcome t' = (P.system m w₀).outcome s) := by
  cases hs with
  | start w => exact ⟨0, .start w, rfl, h.start_rel w, fun _ => rfl⟩
  | running globals t t' ts ts' w ht hts =>
    cases ht with
    | intro f e e' frames frames' hf he hframes =>
      obtain ⟨b, b', e₁, hb, hglide, hb', hbody⟩ := h.block f hf e e' he
      obtain ⟨n, hn⟩ := run_glide hglide globals frames' ts' w w₀
      exact ⟨n, _, hn, h.step_rel hf hb hb' hbody hframes hts w, fun _ => rfl⟩
  | ended o w => exact ⟨0, .ended o w, rfl, .none, fun _ => rfl⟩

theorem Simulates.follows (h : Simulates E P P') (w : m.World) :
    StepSystem.Follows (P.system m w) (P'.system m w) (StateRel E P) where
  start := .start w
  step s s' hs es t ht := by
    obtain ⟨n, u', hn, hrel, -⟩ := h.exists_glide w hs
    have ht : P.step s = some (es, t) := ht
    rw [ht] at hrel
    generalize hu : P'.step u' = a' at hrel
    cases hrel with
    | @some _ a' hR =>
      obtain ⟨es', t'⟩ := a'
      obtain ⟨heq, hR⟩ := hR
      dsimp only at heq hR
      subst heq
      exact ⟨n, t', StepSystem.run_append hn ((StepSystem.run_one _).trans hu), hR⟩
  stop s s' hs hstep := by
    obtain ⟨n, u', hn, hrel, hout⟩ := h.exists_glide w hs
    have hstep : P.step s = none := hstep
    rw [hstep] at hrel
    generalize hu : P'.step u' = a' at hrel
    cases hrel with
    | none => exact ⟨n, u', hn, hu, hout hstep⟩

/-- Nothing steps on from an outcome. -/
theorem step_of_outcome (P : Program) (w : m.World) (s : m.State)
    (h : ((P.system m w).outcome s).isSome) : P.step s = none := by
  cases s with
  | start w => cases h
  | running => cases h
  | ended o w => rfl

theorem Simulates.sameObservable (h : Simulates E P P') (w : m.World) :
    StepSystem.SameObservable (P.system m w) (P'.system m w) :=
  (h.follows w).sameObservable (step_of_outcome P w) (step_of_outcome P' w)

end PassSimulation

end MultiMLton.Ssa
