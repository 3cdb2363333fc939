import MultiMLton.Backend.Rssa
import MultiMLton.Lib.BackPropagation

/-!
# Liveness

`backend/live.fun`: which variables are live at the labels of a function, and whether the slots of the
handler and of the link are. Each label has a node for its body, and another one for its formals if it
has any.

* `effects`: what the pass over the blocks does, one after the other, and `State.perform`;
* `processVar`: a variable is propagated backwards from its uses to its definition;
* `handlerLink`: the same for a slot, which has several definitions;
* `live`: the whole analysis. Where the source raises an exception the result is `none`.
-/

namespace MultiMLton.Backend

open Lib Rssa

namespace Live

variable {F L V ν : Type}

/-! ### What the source visits -/

/-- `Operand.foldVars` -/
def vars : Operand V → List V
  | .arrayOffset base index _ _ => vars base ++ vars index
  | .cast z => vars z
  | .offset base _ => vars base
  | .var x => [x]
  | _ => []

inductive Visit (V L : Type)
  | defn (x : V)
  | label (l : L)
  | use (x : V)

def useOperand (z : Operand V) : List (Visit V L) := (vars z).map .use

def useOperands (zs : List (Operand V)) : List (Visit V L) := zs.flatMap useOperand

/-- `Statement.foreachDefUse` -/
def foreachDefUse : Statement V L ν → List (Visit V L)
  | .bind dst _ src => useOperand src ++ [.defn dst]
  | .move dst src => useOperand dst ++ useOperand src
  | .object dst _ => [.defn dst]
  | .primApp args dst _ => dst.toList.map .defn ++ useOperands args
  | _ => []

/-- `Transfer.foreachDefLabelUse` -/
def foreachDefLabelUse : Transfer F L V ν → List (Visit V L)
  | .arith args dst overflow _ success =>
    [.label overflow, .label success, .defn dst] ++ useOperands args
  | .ccall args _ r => r.toList.map .label ++ useOperands args
  | .call args _ r => r.labels.map .label ++ useOperands args
  | .goto args dst => useOperands args ++ [.label dst]
  | .raise args => useOperands args
  | .ret args => useOperands args
  | .switch s => useOperand s.test ++ s.labels.map .label

/-! ### Nodes and their state -/

/-- `LiveInfo.t`: the function, the formals of a label, and the body of a label. -/
inductive Node (L : Type)
  | head
  | formals (l : L)
  | body (l : L)
  deriving DecidableEq

/-- `argInfo` of a label -/
def argInfo (b : Block F L V ν) : Node L :=
  if b.args.isEmpty then .body b.label else .formals b.label

/-- `defuse`, with the nodes `LiveInfo.t` -/
inductive DefUse (α N : Type)
  | defn (b : N)
  | use (a : α) (b : N)

/-- `live` and `preds` of the nodes, `defined` and `used` of the variables, and the lists of
`live`. -/
structure State (V L : Type) where
  live : Node L → List V
  preds : Node L → List (Node L)
  defined : V → Option (Node L)
  used : V → List (Node L)
  allVars : List V
  handlerCodeDefUses : List (DefUse L (Node L))
  handlerLinkDefUses : List (DefUse Unit (Node L))

def State.init : State V L where
  live _ := []
  preds _ := []
  defined _ := none
  used _ := []
  allVars := []
  handlerCodeDefUses := []
  handlerLinkDefUses := []

/-- `addEdge`, `setDefined`, `use`, and `List.push` on the two lists of slots. -/
inductive Effect (V L : Type)
  | edge (b b' : Node L)
  | defn (x : V) (b : Node L)
  | use (x : V) (b : Node L)
  | code (du : DefUse L (Node L))
  | link (du : DefUse Unit (Node L))

section

variable [DecidableEq V] [DecidableEq L]

def State.perform (shouldConsider : V → Bool) (s : State V L) : Effect V L → State V L
  | .edge b b' =>
    if b ∈ s.preds b' then s
    else { s with preds := Function.update s.preds b' (b :: s.preds b') }
  | .defn x b =>
    if shouldConsider x then
      { s with
        allVars := x :: s.allVars
        defined := Function.update s.defined x (some b) }
    else s
  | .use x b =>
    if shouldConsider x then
      if (s.used x).head? = some b then s
      else { s with used := Function.update s.used x (b :: s.used x) }
    else s
  | .code du => { s with handlerCodeDefUses := du :: s.handlerCodeDefUses }
  | .link du => { s with handlerLinkDefUses := du :: s.handlerLinkDefUses }

end

/-! ### The pass over the blocks -/

section

variable [DecidableEq L]

/-- `goto`; a label that is not there does not come this far. -/
def goto (f : Function F L V ν) (b : Node L) (l : L) : List (Effect V L) :=
  match block? f l with
  | none => []
  | some block => [.edge b (argInfo block)]

/-- `label`: a handler is used by the code slot. -/
def label (f : Function F L V ν) (b : Node L) (l : L) : List (Effect V L) :=
  match block? f l with
  | none => []
  | some block =>
    match block.kind with
    | .handler => [.code (.use l b)]
    | _ => [.edge b (argInfo block)]

def visit (f : Function F L V ν) (b : Node L) : Visit V L → List (Effect V L)
  | .defn x => [.defn x b]
  | .label l => label f b l
  | .use x => [.use x b]

/-- The statements that use or define a slot. -/
def visitSlots (b : Node L) : Statement V L ν → List (Effect V L)
  | .setExnStackSlot => [.link (.use () b)]
  | .setHandler _ => [.code (.defn b)]
  | .setSlotExnStack => [.link (.defn b)]
  | _ => []

/-- The live variables of a continuation include those of its handler. -/
def visitKind (f : Function F L V ν) (b : Node L) : Kind L → List (Effect V L)
  | .cont (.handle l) => goto f b l
  | _ => []

def visitBlock (f : Function F L V ν) (block : Block F L V ν) : List (Effect V L) :=
  let b := Node.body block.label
  block.args.map (.defn · (argInfo block)) ++ visitKind f b block.kind ++
    (block.statements.flatMap fun s => (foreachDefUse s).flatMap (visit f b) ++ visitSlots b s) ++
      (foreachDefLabelUse block.transfer).flatMap (visit f b)

/-- The edge from the formals of a label to its body. -/
def formalsEdge (block : Block F L V ν) : List (Effect V L) :=
  if block.args.isEmpty then [] else [.edge (.formals block.label) (.body block.label)]

def effects (f : Function F L V ν) : List (Effect V L) :=
  f.blocks.flatMap formalsEdge ++ f.args.map (.defn · .head) ++ f.blocks.flatMap (visitBlock f)

/-- The labels that the blocks look up. -/
def lookups (block : Block F L V ν) : List L :=
  block.transfer.labels ++
    match block.kind with
    | .cont (.handle l) => [l]
    | _ => []

/-! ### Variables -/

variable [DecidableEq V]

/-- Whether a variable is live at a node is seen from the end of its buffer. -/
def varMarking (x : V) : Marking (Node L → List V) (Node L) Unit where
  seen live b := decide ((live b).getLast? = some x)
  mark live b _ := Function.update live b (live b ++ [x])
  seen_mark live b _ c := by
    by_cases h : c = b
    · simp [h]
    · simp [h]

def processVar (fuel : ℕ) (s : State V L) (x : V) : Option (State V L) := do
  let defined ← s.defined x
  let stop b := decide (b = defined)
  let st := (s.used x).foldl ((varMarking x).consider stop ()) (s.live, [])
  let live ← (varMarking x).propagate s.preds stop fuel st
  some { s with live := live }

end

/-! ### Slots -/

section

variable {N α : Type} [DecidableEq N]

def slotMarking : Marking (N → Option α) N α where
  seen sel b := (sel b).isSome
  mark sel b a := Function.update sel b (some a)
  seen_mark sel b a c := by
    by_cases h : c = b
    · simp [h]
    · simp [h]

/-- What is found when a definition or a use is visited, in order: the nodes with definitions, the
nodes that are live, and those that are to do. -/
def visitDefUse (du : DefUse α N) (st : List N × (N → Option α) × List (α × N)) :
    List N × (N → Option α) × List (α × N) :=
  match du with
  | .defn b => (b :: st.1, st.2)
  | .use a b =>
    if st.1.head? = some b then st
    else (st.1, Function.update st.2.1 b (some a), (a, b) :: st.2.2)

def handlerLink (fuel : ℕ) (preds : N → List N) (defuse : List (DefUse α N)) :
    Option (N → Option α) :=
  let st := defuse.foldr visitDefUse ([], (fun _ => none), [])
  slotMarking.propagate preds (fun b => decide (b ∈ st.1)) fuel st.2

end

/-! ### The analysis -/

/-- The result of `labelLive`. -/
structure LabelLive (V L : Type) where
  begin : List V
  beginNoFormals : List V
  handler : Option L
  link : Bool

variable [DecidableEq V] [DecidableEq L]

/-- `live`; the loops do each node once. -/
def live (f : Function F L V ν) (shouldConsider : V → Bool) :
    Option (L → Option (LabelLive V L)) := do
  guard (∀ block ∈ f.blocks, ∀ l ∈ lookups block, l ∈ f.labels)
  let s := (effects f).foldl (State.perform shouldConsider) .init
  let nodes := 2 * f.blocks.length
  let s' ← s.allVars.foldlM (processVar nodes) s
  let handler ← handlerLink (s.handlerCodeDefUses.length + nodes) s.preds s.handlerCodeDefUses
  let link ← handlerLink (s.handlerLinkDefUses.length + nodes) s.preds s.handlerLinkDefUses
  some fun l => (block? f l).map fun block =>
    { begin := s'.live (.body l)
      beginNoFormals := s'.live (argInfo block)
      handler := handler (.body l)
      link := (link (.body l)).isSome }

end Live

end MultiMLton.Backend
