import MultiMLton.Ssa.Multi

/-!
# Where control goes

The runs of a program without its data: a case goes on at any of its labels, an arithmetic transfer
overflows or does not. A step executes one statement or one transfer, and emits what is called,
entered and bound by it.

`Thread_copyCurrent` is a transfer. The other primitives of threads are statements, as
`ssa/direct-exp.fun` builds them and `backend/ssa-to-rssa.fun` expects them: `Thread_copy`,
`Thread_switchTo`, and those of `runtime/gc/threadlet.c`, which copy frames below the current one,
put copied frames in the place of the current one, or go back to a lower frame. Threads that are
switched by signals or by exported functions are left out.

* `Move`, `Step`, `Run`: from one place to the next one, with the events there;
* `Effect`: what a statement does to threads.
-/

namespace MultiMLton.Ssa

/-- What a statement does to threads. -/
inductive Effect
  | none
  | copy
  | switchTo
  | copyParasite
  | extractParasite
  | jumpDown
  | prefixAndSwitchTo
  deriving DecidableEq

/-- C functions go by the names of their targets. -/
def Prim.effect (p : Prim) : Effect :=
  if p.isNamed ["Thread_copy"] then .copy
  else if p.isNamed ["Thread_switchTo"] then .switchTo
  else if p.isNamed ["GC_copyParasite"] then .copyParasite
  else if p.isNamed ["GC_extractParasite"] then .extractParasite
  else if p.isNamed ["Threadlet_jumpDown"] then .jumpDown
  else if p.isNamed ["Threadlet_prefixAndSwitchTo"] then .prefixAndSwitchTo
  else .none

def Exp.effect : Exp → Effect
  | .primApp p _ _ => p.effect
  | _ => .none

namespace Control

/-- A place in a block: before a statement, or before the transfer. -/
structure Point where
  label : Label
  index : ℕ

/-- An activation that waits. -/
structure Frame where
  /-- `none` at a call that is not to return -/
  cont : Option Point
  handler : Handler

/-- A thread that does not run. -/
structure Thread where
  frames : List Frame
  /-- frames that were copied before the first `Thread_copyCurrent` -/
  early : Bool

structure State where
  point : Point
  frames : List Frame
  threads : List Thread
  /-- a thread has been copied by `Thread_copyCurrent` -/
  copied : Bool

inductive Event
  | call (f : Func)
  | enter (l : Label)
  | bind (x : Var)
  | resume (early : Bool)
  deriving DecidableEq

/-- What is seen where control arrives: at the start of a block, or behind a statement. -/
def arrival (b : Block) : ℕ → List Event
  | 0 => .enter b.label :: b.formals.map .bind
  | i + 1 => (b.statements[i]?.bind Statement.var).toList.map .bind

/-- The threads behind a statement that control does not leave. `copyParasite` copies the frames
from the caller's down to one that the program chooses. -/
inductive Keeps (σ : State) : Effect → List Thread → Prop
  | none : Keeps σ .none σ.threads
  | copy {j : ℕ} {t : Thread} (ht : σ.threads[j]? = some t) : Keeps σ .copy (σ.threads ++ [t])
  | copyParasite (k : ℕ) :
      Keeps σ .copyParasite (σ.threads ++ [⟨σ.frames.take k, !σ.copied⟩])
  | extractParasite {j : ℕ} {t : Thread} (ht : σ.threads[j]? = some t) (k : ℕ) :
      Keeps σ .extractParasite
        (σ.threads.set j ⟨t.frames.drop k, t.early⟩ ++ [⟨t.frames.take k, t.early⟩])

/-- The frames that a statement returns to, with the threads behind it and what it resumes. -/
inductive Leaves (σ : State) : Effect → List Event → List Frame → List Thread → Prop
  | switchTo {j : ℕ} {t : Thread} (ht : σ.threads[j]? = some t) :
      Leaves σ .switchTo [.resume t.early] t.frames (σ.threads.eraseIdx j ++
        [⟨⟨some ⟨σ.point.label, σ.point.index + 1⟩, .dead⟩ :: σ.frames, false⟩])
  | jumpDown (k : ℕ) : Leaves σ .jumpDown [] (σ.frames.drop k) σ.threads
  | prefixAndSwitchTo {j : ℕ} {t : Thread} (ht : σ.threads[j]? = some t) :
      Leaves σ .prefixAndSwitchTo [.resume t.early] (t.frames ++ σ.frames) σ.threads

/-- The labels that a transfer may go to within the activation. -/
def jumps : Transfer → List Label
  | .runtime p _ l => if p.isNamed ["MLton_halt", "Thread_copyCurrent"] then [] else [l]
  | .call _ _ _ => []
  | t => t.labels

/-- The frames of a callee. -/
def push : Return → List Frame → List Frame
  | .dead, frames => ⟨none, .dead⟩ :: frames
  | .nonTail cont handler, frames => ⟨some ⟨cont, 0⟩, handler⟩ :: frames
  | .tail, frames => frames

/-- The closest handler, with the frames below. -/
def unwind : List Frame → Option (Label × List Frame)
  | [] => none
  | fr :: frames =>
    match fr.handler with
    | .caller => unwind frames
    | .dead => none
    | .handle l => some (l, frames)

variable (P : Program)

/-- From one point to another, with what is seen on the way. -/
inductive Move (σ : State) : List Event → State → Prop
  | next {b : Block} {s : Statement} {threads : List Thread} (hb : P.block? σ.point.label = some b)
      (hs : b.statements[σ.point.index]? = some s) (hkeeps : Keeps σ s.exp.effect threads) :
      Move σ [] ⟨⟨σ.point.label, σ.point.index + 1⟩, σ.frames, threads, σ.copied⟩
  | leave {b : Block} {s : Statement} {es : List Event} {p : Point} {h : Handler}
      {frames : List Frame} {threads : List Thread} (hb : P.block? σ.point.label = some b)
      (hs : b.statements[σ.point.index]? = some s)
      (hleaves : Leaves σ s.exp.effect es (⟨some p, h⟩ :: frames) threads) :
      Move σ es ⟨p, frames, threads, σ.copied⟩
  | jump {b : Block} {l : Label} (hb : P.block? σ.point.label = some b)
      (hend : σ.point.index = b.statements.length) (hl : l ∈ jumps b.transfer) :
      Move σ [] ⟨⟨l, 0⟩, σ.frames, σ.threads, σ.copied⟩
  | call {b : Block} {n : Func} {args : List Var} {r : Return} {f : Function}
      (hb : P.block? σ.point.label = some b) (hend : σ.point.index = b.statements.length)
      (ht : b.transfer = .call n args r) (hf : P.func? n = some f) :
      Move σ (.call n :: (f.args.map Prod.fst).map .bind)
        ⟨⟨f.start, 0⟩, push r σ.frames, σ.threads, σ.copied⟩
  | ret {b : Block} {xs : List Var} {p : Point} {h : Handler} {frames : List Frame}
      (hb : P.block? σ.point.label = some b) (hend : σ.point.index = b.statements.length)
      (ht : b.transfer = .ret xs) (hframes : σ.frames = ⟨some p, h⟩ :: frames) :
      Move σ [] ⟨p, frames, σ.threads, σ.copied⟩
  | raise {b : Block} {xs : List Var} {l : Label} {frames : List Frame}
      (hb : P.block? σ.point.label = some b) (hend : σ.point.index = b.statements.length)
      (ht : b.transfer = .raise xs) (hunwind : unwind σ.frames = some (l, frames)) :
      Move σ [] ⟨⟨l, 0⟩, frames, σ.threads, σ.copied⟩
  | copyCurrent {b : Block} {p : Prim} {args : List Var} {l : Label}
      (hb : P.block? σ.point.label = some b) (hend : σ.point.index = b.statements.length)
      (ht : b.transfer = .runtime p args l) (hp : p.isNamed ["Thread_copyCurrent"] = true) :
      Move σ [] ⟨⟨l, 0⟩, σ.frames,
        σ.threads ++ [⟨⟨some ⟨l, 0⟩, .dead⟩ :: σ.frames, false⟩], true⟩

inductive Step (σ : State) : List Event → State → Prop
  | mk {σ' : State} {es : List Event} {b : Block} (hmove : Move P σ es σ')
      (hb : P.block? σ'.point.label = some b) : Step σ (es ++ arrival b σ'.point.index) σ'

/-- What has been seen when a state is reached. -/
inductive Run : List Event → State → Prop
  | start {f : Function} {b : Block} (hf : P.func? P.main = some f)
      (hb : P.block? f.start = some b) :
      Run ((P.globals.filterMap Statement.var).map .bind ++
        .call P.main :: (f.args.map Prod.fst).map .bind ++ arrival b 0) ⟨⟨f.start, 0⟩, [], [], false⟩
  | step {es es' : List Event} {σ σ' : State} (hrun : Run es σ) (hstep : Step P σ es' σ') :
      Run (es ++ es') σ'

end Control

end MultiMLton.Ssa
