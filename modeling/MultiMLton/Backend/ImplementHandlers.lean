import MultiMLton.Backend.Rssa
import MultiMLton.Ssa.FlatLattice

/-!
# Running RSSA with exception handlers

What the transfers of RSSA programs, and the four statements about handlers, do to the stack. The
registers and the heap are left out, so that it is open which of its labels a transfer jumps to.

* `Frame`: the function of a frame, with the contents of its link slot and of its handler slot;
* `State`: the current exception stack, and the frames;
* `Step`: one block; a call, raise or return shows the state in which it is made;
* `Run`: blocks in sequence, with all that they show.
-/

namespace MultiMLton.Backend

open Rssa

namespace HandlerStack

/-- An exception stack: the position of the frame whose handler is current, from the bottom of the
stack. -/
abbrev Link : Type := Option ℕ

/-- A frame; its slots hold nothing at first. -/
structure Frame (F L : Type) where
  func : F
  slot : Option Link
  handler : Option L

/-- The top frame is before the block `label`. The frames below wait in calls. -/
structure State (F L : Type) where
  exnStack : Link
  label : L
  top : Frame F L
  below : List (Frame F L × Return L)

variable {F L V ν : Type}

namespace State

/-- The frame of a function that is entered. -/
def enter (s : State F L) (f : Function F L V ν) (below : List (Frame F L × Return L)) :
    State F L where
  exnStack := s.exnStack
  label := f.start
  top := ⟨f.name, none, none⟩
  below := below

/-- What a statement does; nothing can be read from an empty slot. -/
def execStatement (s : State F L) : Statement V L ν → Option (State F L)
  | .setExnStackLocal => some { s with exnStack := some s.below.length }
  | .setExnStackSlot => s.top.slot.map fun k => { s with exnStack := k }
  | .setHandler l => some { s with top := { s.top with handler := some l } }
  | .setSlotExnStack => some { s with top := { s.top with slot := some s.exnStack } }
  | _ => some s

def exec (s : State F L) (ss : List (Statement V L ν)) : Option (State F L) :=
  ss.foldlM execStatement s

/-- The frames above the position `k` are dropped. -/
def unwind (k : ℕ) :
    List (Frame F L × Return L) → Option (Frame F L × List (Frame F L × Return L))
  | [] => none
  | (frame, _) :: rest => if rest.length = k then some (frame, rest) else unwind k rest

/-- A raise goes on at the handler slot of the frame that the exception stack points to. -/
def raise (s : State F L) : Option (State F L) := do
  let k ← s.exnStack
  let (frame, rest) ← unwind k ((s.top, .tail) :: s.below)
  let l ← frame.handler
  some ⟨some k, l, frame, rest⟩

def ret (s : State F L) : Option (State F L) :=
  match s.below with
  | (frame, .nonTail cont _) :: rest => some ⟨s.exnStack, cont, frame, rest⟩
  | _ => none

/-- A call that is no tail call leaves its frame on the stack. -/
def call (s : State F L) (f : Function F L V ν) : Return L → State F L
  | .tail => s.enter f s.below
  | r => s.enter f ((s.top, r) :: s.below)

end State

variable [DecidableEq F] [DecidableEq L]

/-- Where a transfer may lead, if anywhere. -/
def State.next (p : Program F L V ν) (s : State F L) :
    Transfer F L V ν → List (Option (State F L))
  | .call _ name r => [(func? p name).map fun f => s.call f r]
  | .raise _ => [s.raise]
  | .ret _ => [s.ret]
  | t => t.jumps.map fun l => some { s with label := l }

/-- The state that a transfer shows. -/
def State.shows (s : State F L) : Transfer F L V ν → List (State F L)
  | .call _ _ _ | .raise _ | .ret _ => [s]
  | _ => []

/-- One block. -/
inductive Step (p : Program F L V ν) : State F L → List (State F L) → Option (State F L) → Prop
  | block {s t u f b} (hfunc : func? p s.top.func = some f) (hblock : block? f s.label = some b)
    (hexec : s.exec b.statements = some t) (hnext : u ∈ t.next p b.transfer) :
    Step p s (t.shows b.transfer) u

/-- Some blocks, up to a state or to the end. -/
inductive Run (p : Program F L V ν) : State F L → List (State F L) → Option (State F L) → Prop
  | refl (s) : Run p s [] (some s)
  | step {s t e es u} : Step p s e (some t) → Run p t es u → Run p s (e ++ es) u
  | last {s e} : Step p s e none → Run p s e none

/-- A function is entered on an empty stack. -/
def start (f : Function F L V ν) (k : Link) : State F L := ⟨k, f.start, ⟨f.name, none, none⟩, []⟩

end HandlerStack

end MultiMLton.Backend

/-!
## Implementing exception handlers

`backend/implement-handlers.fun`: `flow` finds out what each block of a function knows of the
exception stack and of its handler slot, and inserts the statements that a call, raise or return
needs and that are not known to do nothing. `explicit` inserts all of them.

The label that `Label.newNoname` makes for a function is a parameter.
-/

namespace MultiMLton.Backend

open Rssa FlatLattice

namespace ImplementHandlers

variable {F L V ν : Type}

/-- `Function.hasHandler` -/
def hasHandler (f : Function F L V ν) : Bool :=
  f.blocks.any fun b =>
    match b.transfer with
    | .call _ _ (.nonTail _ (.handle _)) => true
    | _ => false

/-- `ExnStack.Point.t` -/
inductive ExnStack
  | locl
  | slot
  deriving DecidableEq

/-- The variables of type `ExnStack.t`: `global` of a label, `ExnStack.locall` and
`ExnStack.slot`. -/
inductive Global (L : Type)
  | label (l : L)
  | locall
  | slot
  deriving DecidableEq

/-- The variables of type `HandlerLat.t`: `handler` of a label, and `HandlerLat.point` of one. -/
inductive Handler (L : Type)
  | label (l : L)
  | point (l : L)
  deriving DecidableEq

/-- `labelInfo` -/
structure LabelInfo (L : Type) where
  global : Store (Global L) ExnStack
  handler : Store (Handler L) L

def globalPoint : Global L → Option ExnStack
  | .label _ => none
  | .locall => some .locl
  | .slot => some .slot

def handlerPoint : Handler L → Option L
  | .label _ => none
  | .point l => some l

def LabelInfo.new : LabelInfo L := ⟨Store.make globalPoint, Store.make handlerPoint⟩

/-- An inequality for each variable of the label `dst`. -/
structure Bound (L : Type) where
  global : Global L
  handler : Handler L
  dst : L

/-- The inequalities of a block. -/
def bounds (b : Block F L V ν) : List (Bound L) :=
  let goto (l : L) : Bound L := ⟨.label b.label, .label b.label, l⟩
  match b.transfer with
  | .call _ _ .dead => []
  | .call _ _ (.nonTail cont .caller) => [⟨.slot, .label b.label, cont⟩]
  | .call _ _ (.nonTail cont .dead) => [goto cont]
  | .call _ _ (.nonTail cont (.handle l)) => [⟨.locall, .point l, l⟩, ⟨.locall, .point l, cont⟩]
  | .call _ _ .tail => []
  | t => t.jumps.map goto

variable [DecidableEq L]

namespace LabelInfo

/-- `ExnStack.<=` and `HandlerLat.<=` -/
def le (fuel : ℕ) (i : LabelInfo L) (c : Bound L) : Option (LabelInfo L) := do
  let (_, global) ← i.global.le fuel c.global (.label c.dst)
  let (_, handler) ← i.handler.le fuel c.handler (.label c.dst)
  some ⟨global, handler⟩

/-- `ExnStack.<= (ExnStack.slot, global)` and `HandlerLat.forceTop handler` -/
def forceStart (fuel : ℕ) (i : LabelInfo L) (start : L) : Option (LabelInfo L) := do
  let (_, global) ← i.global.le fuel .slot (.label start)
  some ⟨global, (i.handler.forceTop (.label start)).2⟩

/-- The inequalities of a block are added. -/
def visit (fuel : ℕ) (start : L) (i : LabelInfo L) (b : Block F L V ν) : Option (LabelInfo L) :=
  (if b.label = start then i.forceStart fuel start else some i).bind fun i =>
    (bounds b).foldlM (le fuel) i

end LabelInfo

/-- A variable is raised twice at most. -/
def solve (f : Function F L V ν) : Option (LabelInfo L) :=
  f.blocks.foldlM (LabelInfo.visit (f.blocks.length * 2 + 1) f.start) .new

/-- What is known before the transfer of a block. -/
structure Known (L : Type) where
  global : Elt ExnStack
  handler : Elt L

def LabelInfo.known (i : LabelInfo L) (l : L) : Known L :=
  ⟨i.global.value (.label l), i.handler.value (.label l)⟩

def setExnStackSlot (i : Known L) : List (Statement V L ν) :=
  if i.global = .point .slot then [] else [.setExnStackSlot]

def setExnStackLocal (i : Known L) : List (Statement V L ν) :=
  if i.global = .point .locl then [] else [.setExnStackLocal]

def setHandler (i : Known L) (l : L) : List (Statement V L ν) :=
  if i.handler = .point l then [] else [.setHandler l]

/-- The statements that a transfer needs. -/
def post (i : Known L) : Transfer F L V ν → List (Statement V L ν)
  | .call _ _ .dead => []
  | .call _ _ (.nonTail _ .caller) => setExnStackSlot i
  | .call _ _ (.nonTail _ .dead) => []
  | .call _ _ (.nonTail _ (.handle l)) => setHandler i l ++ setExnStackLocal i
  | .call _ _ .tail => setExnStackSlot i
  | .raise _ => setExnStackSlot i
  | .ret _ => setExnStackSlot i
  | _ => []

def rewriteBlock (known : L → Known L) (b : Block F L V ν) : Block F L V ν :=
  { b with statements := b.statements ++ post (known b.label) b.transfer }

def startBlock (newStart start : L) : Block F L V ν where
  args := []
  kind := .jump
  label := newStart
  statements := [.setSlotExnStack]
  transfer := .goto [] start

/-- The function with the statements that are not known to do nothing. -/
def rewrite (known : L → Known L) (newStart : L) (f : Function F L V ν) : Function F L V ν :=
  { f with
    blocks := f.blocks.map (rewriteBlock known) ++ [startBlock newStart f.start]
    start := newStart }

def flow (newStart : L) (f : Function F L V ν) : Option (Function F L V ν) :=
  if hasHandler f then (solve f).map fun i => rewrite i.known newStart f else some f

/-- `doit`; `newNoname` is the label that is made for a function. -/
def doit (newNoname : F → L) (p : Program F L V ν) : Option (Program F L V ν) := do
  let functions ← p.functions.reverse.mapM fun f => flow (newNoname f.name) f
  let main ← flow (newNoname p.main.name) p.main
  some ⟨functions, main⟩

/-- The version in which each block has all statements that it needs. -/
def explicit (newNoname : F → L) (p : Program F L V ν) : Program F L V ν where
  functions := p.functions.map fun f => rewrite (fun _ => ⟨.bottom, .bottom⟩) (newNoname f.name) f
  main := rewrite (fun _ => ⟨.bottom, .bottom⟩) (newNoname p.main.name) p.main

end ImplementHandlers

end MultiMLton.Backend
