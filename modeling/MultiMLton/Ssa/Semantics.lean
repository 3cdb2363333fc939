import MultiMLton.Lib.StepSystem
import MultiMLton.Ssa.Tree

/-!
# What SSA programs do

Programs run on a `Machine`: what its values are, how constants, constructors and tuples are built
and taken apart, and what primitives do. Whatever a program may learn from outside is part of the
machine's world, so a program has one run in each world.

A step of `system` runs one block, from its formals to its transfer. It emits one event for each
primitive that is not functional, with its arguments and its result. An activation that waits for a
call to return is a frame; a thread is an activation with its frames. Primitives of the runtime may
go on with the thread, switch to another one, copy it, or end the program.
-/

namespace MultiMLton.Ssa

open MultiMLton.Atoms MultiMLton.Lib List

/-- What a runtime primitive makes of the current thread: it goes on with a result, is kept in a
copy before it goes on, is left for another one, or everything ends. -/
inductive Resume (Value : Type)
  | same (v : Value)
  | copy (v : Value)
  | switch (thread : ℕ) (v : Value)
  | halt

/-- A machine that SSA programs run on. -/
structure Machine where
  Value : Type
  World : Type
  /-- what a variable holds before it is bound -/
  unbound : Value
  const : Const → Value
  con : Con → List Value → Value
  tuple : List Value → Value
  /-- the component of a tuple -/
  select : ℕ → Value → Value
  /-- the constructor of a value and its arguments, as a case sees them -/
  conArgs : Value → Con × List Value
  /-- the word that a case sees -/
  word : WordSize → Value → WordX
  /-- the result of a functional primitive -/
  compute : Prim → List Ty → List Value → Value
  /-- the result of an arithmetic primitive, if it does not overflow -/
  arith : Prim → List Value → Option Value
  /-- the result and the effect of another primitive -/
  perform : Prim → List Ty → List Value → World → Value × World
  /-- what a primitive of the runtime does -/
  runtime : Prim → List Value → World → Resume Value × World

namespace Machine

variable (m : Machine)

/-- The values of the variables in an activation. -/
abbrev Env : Type := Var → m.Value

/-- An effect as it is seen from outside. -/
structure Event where
  prim : Prim
  targs : List Ty
  args : List m.Value
  /-- the result, if the program goes on with one -/
  result : Option m.Value

variable {m}

/-- `env` with values for formals. -/
def Env.bind (env : m.Env) : List Var → List m.Value → m.Env
  | x :: xs, v :: vs => Env.bind (Function.update env x v) xs vs
  | _, _ => env

/-- The result of an expression, what it emits, and the world after it. -/
def eval (env : m.Env) (w : m.World) : Exp → m.Value × List m.Event × m.World
  | .conApp c args => (m.con c (args.map env), [], w)
  | .const c => (m.const c, [], w)
  | .primApp p ts args =>
    if Prim.isFunctional p then (m.compute p ts (args.map env), [], w)
    else
      let (v, w') := m.perform p ts (args.map env) w
      (v, [⟨p, ts, args.map env, some v⟩], w')
  | .profile => (m.tuple [], [], w)
  | .select i x => (m.select i (env x), [], w)
  | .tuple xs => (m.tuple (xs.map env), [], w)
  | .var x => (env x, [], w)

/-- `env` after a statement with a result. -/
def Env.set (env : m.Env) (x : Option Var) (v : m.Value) : m.Env :=
  match x with
  | some x => Function.update env x v
  | none => env

/-- The statements of a block, one after the other. -/
def exec (env : m.Env) (w : m.World) : List Statement → m.Env × List m.Event × m.World
  | [] => (env, [], w)
  | s :: ss =>
    let (v, es, w') := eval env w s.exp
    let (env', es', w'') := exec (env.set s.var v) w' ss
    (env', es ++ es', w'')

/-! ### Transfers -/

variable (m) in
/-- What a transfer asks for. -/
inductive Action
  | jump (dst : Label) (vs : List m.Value)
  | bug
  | call (f : Func) (vs : List m.Value) (r : Return)
  | raise (vs : List m.Value)
  | ret (vs : List m.Value)
  | runtime (p : Prim) (vs : List m.Value) (l : Label)

/-- The label a case continues at. The formals of a constructor's label take its arguments. -/
def select' (env : m.Env) (test : Var) (cases : Cases) (default : Option Label) :
    Option (Label × List m.Value) :=
  match cases with
  | .con cs =>
    let (c, vs) := m.conArgs (env test)
    match cs.find? (·.1 = c) with
    | some (_, l) => some (l, vs)
    | none => default.map fun l => (l, [])
  | .word s cs =>
    match cs.find? (·.1 = m.word s (env test)) with
    | some (_, l) => some (l, [])
    | none => default.map fun l => (l, [])

/-- The action of a transfer; a case without a branch for the value has none. -/
def action (env : m.Env) : Transfer → Option m.Action
  | .arith p args overflow success _ =>
    match m.arith p (args.map env) with
    | some v => some (.jump success [v])
    | none => some (.jump overflow [])
  | .bug => some .bug
  | .call f args r => some (.call f (args.map env) r)
  | .case test cases default =>
    (select' env test cases default).map fun a => .jump a.1 a.2
  | .goto dst args => some (.jump dst (args.map env))
  | .raise xs => some (.raise (xs.map env))
  | .ret xs => some (.ret (xs.map env))
  | .runtime p args l => some (.runtime p (args.map env) l)

/-! ### Threads -/

variable (m)

/-- An activation that waits for a call to return. -/
structure Frame where
  /-- `none` at a call that is not to return -/
  cont : Option Label
  handler : Handler
  env : m.Env

/-- A thread about to enter a block with values for its formals. -/
structure Thread where
  label : Label
  args : List m.Value
  env : m.Env
  frames : List m.Frame

/-- How a program ends. -/
inductive Outcome
  | returned
  | raised
  | bug
  | halted

inductive State
  | start (w : m.World)
  | running (globals : m.Env) (thread : m.Thread) (threads : List m.Thread) (w : m.World)
  | ended (o : Outcome) (w : m.World)

variable {m}

/-- Where a return leads: to the caller's continuation, or to the end of the program. -/
def unwindReturn (vs : List m.Value) : List m.Frame → Option (m.Thread ⊕ Outcome)
  | [] => some (.inr .returned)
  | fr :: frames => fr.cont.map fun l => .inl ⟨l, vs, fr.env, frames⟩

/-- Where a raise leads: to the closest handler, or to the end of the program. -/
def unwindRaise (vs : List m.Value) : List m.Frame → Option (m.Thread ⊕ Outcome)
  | [] => some (.inr .raised)
  | fr :: frames =>
    match fr.handler with
    | .caller => unwindRaise vs frames
    | .dead => none
    | .handle l => some (.inl ⟨l, vs, fr.env, frames⟩)

/-- The frames of a callee. -/
def pushFrame (env : m.Env) (frames : List m.Frame) : Return → List m.Frame
  | .dead => ⟨none, .dead, env⟩ :: frames
  | .nonTail cont handler => ⟨some cont, handler, env⟩ :: frames
  | .tail => frames

end Machine

open Machine

variable {m : Machine}

namespace Program

variable (P : Program)

/-- A thread at the start of a function. -/
def enter (globals : m.Env) (f : Func) (vs : List m.Value) (frames : List m.Frame) :
    Option m.Thread :=
  (P.func? f).map fun f =>
    ⟨f.start, [], globals.bind (f.args.map Prod.fst) vs, frames⟩

/-- The state after an action, and what it emits. -/
def perform (globals env : m.Env) (frames : List m.Frame) (threads : List m.Thread) (w : m.World) :
    m.Action → Option (List m.Event × m.State)
  | .jump l vs => some ([], .running globals ⟨l, vs, env, frames⟩ threads w)
  | .bug => some ([], .ended .bug w)
  | .call f vs r =>
    (P.enter globals f vs (pushFrame env frames r)).map fun t => ([], .running globals t threads w)
  | .raise vs => (unwindRaise vs frames).map fun
    | .inl t => ([], .running globals t threads w)
    | .inr o => ([], .ended o w)
  | .ret vs => (unwindReturn vs frames).map fun
    | .inl t => ([], .running globals t threads w)
    | .inr o => ([], .ended o w)
  | .runtime p vs l =>
    match m.runtime p vs w with
    | (.same v, w') =>
      some ([⟨p, [], vs, some v⟩], .running globals ⟨l, [v], env, frames⟩ threads w')
    | (.copy v, w') =>
      some ([⟨p, [], vs, some v⟩],
        .running globals ⟨l, [v], env, frames⟩ (threads ++ [⟨l, [v], env, frames⟩]) w')
    | (.switch i v, w') =>
      threads[i]?.map fun t =>
        ([⟨p, [], vs, some v⟩], .running globals t (threads ++ [⟨l, [v], env, frames⟩]) w')
    | (.halt, w') => some ([⟨p, [], vs, none⟩], .ended .halted w')

/-- One step: the globals and the call of the main function, or a block. -/
def step : m.State → Option (List m.Event × m.State)
  | .start w =>
    let (globals, es, w') := exec (fun _ => m.unbound) w P.globals
    (P.enter globals P.main [] []).map fun t => (es, .running globals t [] w')
  | .running globals t threads w => do
    let b ← P.block? t.label
    let (env, es, w') := exec (t.env.bind (b.args.map Prod.fst) t.args) w b.statements
    let a ← action env b.transfer
    let (es', s) ← P.perform globals env t.frames threads w' a
    some (es ++ es', s)
  | .ended _ _ => none

/-- A program that runs on a machine in a world. -/
def system (m : Machine) (w : m.World) : StepSystem m.Event (Outcome × m.World) where
  State := m.State
  start := .start w
  step := P.step
  outcome
    | .ended o w => some (o, w)
    | _ => none

/-- The states that a program comes to. -/
def Reaches (w : m.World) (s : m.State) : Prop :=
  ∃ n es, (P.system m w).run n (.start w) = some (es, s)

end Program

/-! ### Variables that are bound and read -/

namespace Machine

variable {env env' : m.Env} {xs : List Var} {vs : List m.Value} {x : Var}

theorem Env.bind_of_notMem (h : x ∉ xs) : env.bind xs vs x = env x := by
  induction xs generalizing env vs with
  | nil => rfl
  | cons y xs ih =>
    rw [mem_cons, not_or] at h
    cases vs with
    | nil => rfl
    | cons v vs => rw [Env.bind, ih h.2, Function.update_of_ne h.1]

theorem Env.bind_getElem (hxs : xs.Nodup) {i : ℕ} {v : m.Value} (hx : xs[i]? = some x)
    (hv : vs[i]? = some v) : env.bind xs vs x = v := by
  induction xs generalizing env vs i with
  | nil => simp at hx
  | cons y xs ih =>
    obtain ⟨hy, hxs⟩ := nodup_cons.1 hxs
    cases vs with
    | nil => simp at hv
    | cons u vs =>
      cases i with
      | zero =>
        simp only [getElem?_cons_zero, Option.some.injEq] at hx hv
        subst hx hv
        rw [Env.bind, Env.bind_of_notMem hy, Function.update_self]
      | succ i => exact ih hxs hx hv

theorem Env.bind_congr (h : env' x = env x) : env'.bind xs vs x = env.bind xs vs x := by
  induction xs generalizing env env' vs with
  | nil => exact h
  | cons y xs ih =>
    cases vs with
    | nil => exact h
    | cons v vs =>
      refine ih ?_
      rw [Function.update_apply, Function.update_apply, h]

theorem map_congr_vars {f : Var → Var} (h : ∀ x ∈ xs, env' (f x) = env x) :
    (xs.map f).map env' = xs.map env := by
  rw [map_map]
  exact map_congr_left h

/-- An expression with other variables of the same values has the same result. -/
theorem eval_replaceVar {f : Var → Var} {e : Exp} (h : ∀ x ∈ e.vars, env' (f x) = env x)
    (w : m.World) : eval env' w (e.replaceVar f) = eval env w e := by
  cases e <;> simp only [Exp.vars] at h <;> simp only [Exp.replaceVar, eval]
  case conApp | primApp | tuple => rw [map_congr_vars h]
  case select | var => rw [h _ mem_cons_self]

theorem eval_congr {e : Exp} (h : ∀ x ∈ e.vars, env' x = env x) (w : m.World) :
    eval env' w e = eval env w e := by
  have hid : e.replaceVar id = e := by cases e <;> simp [Exp.replaceVar]
  rw [← eval_replaceVar (f := id) h w, hid]

/-- A transfer with other variables of the same values asks for the same. -/
theorem action_replaceVar {f : Var → Var} {t : Transfer} (h : ∀ x ∈ t.vars, env' (f x) = env x) :
    action env' (t.replaceVar f) = action env t := by
  cases t <;> simp only [Transfer.vars] at h <;> simp only [Transfer.replaceVar, action]
  case case test cases default => simp only [select', h test mem_cons_self]
  all_goals rw [map_congr_vars h]

theorem action_congr {t : Transfer} (h : ∀ x ∈ t.vars, env' x = env x) :
    action env' t = action env t := by
  have hid : t.replaceVar id = t := by cases t <;> simp [Transfer.replaceVar]
  rw [← action_replaceVar (f := id) h, hid]

/-- Statements change nothing but what they define. -/
theorem exec_of_notMem {ss : List Statement} (hx : x ∉ ss.filterMap Statement.var) (w : m.World) :
    (exec env w ss).1 x = env x := by
  induction ss generalizing env w with
  | nil => rfl
  | cons s ss ih =>
    rw [exec]
    dsimp only
    cases hs : s.var with
    | none =>
      rw [filterMap_cons_none hs] at hx
      exact ih hx _
    | some y =>
      rw [filterMap_cons_some hs, mem_cons, not_or] at hx
      rw [ih hx.2]
      exact Function.update_of_ne hx.1 _ _

end Machine

end MultiMLton.Ssa
