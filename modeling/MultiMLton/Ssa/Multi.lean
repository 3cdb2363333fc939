import MultiMLton.Basic.StronglyConnected
import MultiMLton.Ssa.Scope

/-!
# Multiplicities

`ssa/multi.fun`: which labels, variables and functions may be entered, bound and called more than
once, and which by more than one thread.

The two-point lattices of `ssa/two-point-lattice.fun` are marks that are top or not, and a handler is
run when its mark becomes top. Where the source raises an exception, or `fuel` does not suffice for
handlers within handlers and for the search of a control-flow graph, the result is `none`.
-/

namespace MultiMLton.Ssa

open MultiMLton.Lib

/-- `Transfer.foreachFunc` -/
def Transfer.funcs : Transfer → List Func
  | call f _ _ => [f]
  | _ => []

/-- `Program.hasPrim` -/
def Program.hasPrim (P : Program) (p : Prim → Bool) : Bool :=
  let statement (s : Statement) : Bool :=
    match s.exp with
    | .primApp prim _ _ => p prim
    | _ => false
  P.globals.any statement || P.blocks.any fun b => b.statements.any statement ||
    match b.transfer with
    | .arith prim _ _ _ _ | .runtime prim _ _ => p prim
    | _ => false

/-- `Prim.name`, for primitives that `Prim.apply` does not name. -/
def Prim.isNamed (names : List String) : Prim → Bool
  | .other (.named n _) => decide (n ∈ names)
  | _ => false

namespace Multi

/-- Primitives that may run a thread other than the current one, or other frames. -/
def switches (p : Prim) : Bool :=
  p.isNamed ["Thread_switchTo", "Threadlet_jumpDown", "Threadlet_prefixAndSwitchTo"]

/-- Primitives that copy the current thread, or frames. -/
def copies (p : Prim) : Bool :=
  p.isNamed ["Thread_copyCurrent", "Threadlet_jumpDown", "Threadlet_prefixAndSwitchTo"]

def usesThreadsOrConts (P : Program) : Bool := P.hasPrim switches

/-! ### Marks and their handlers -/

inductive Calls
  | zero
  | one
  | many
  deriving DecidableEq

def Calls.inc : Calls → Calls
  | zero => one
  | _ => many

/-- The lattice elements of `FuncInfo`, `LabelInfo` and `VarInfo`. -/
inductive Mark
  | threadCopyCurrentFunc (f : Func)
  | threadCopyCurrentLabel (l : Label)
  | multiThreadedFunc (f : Func)
  | multiThreadedLabel (l : Label)
  | multiThreadedVar (x : Var)
  | multiUsedFunc (f : Func)
  | multiUsedLabel (l : Label)
  | multiUsedVar (x : Var)
  deriving DecidableEq

/-- What is run when a mark becomes top. -/
inductive Task
  | forceThreadCopyCurrent (l : Label) (f : Func)
  | forceMultiThreadedFunc (f : Function)
  | forceMultiUsedFunc (f : Function)

structure Info where
  calls : Func → Calls
  top : Mark → Bool
  handlers : Mark → List Task

def Info.new : Info := ⟨fun _ => .zero, fun _ => false, fun _ => []⟩

/-- `Calls.inc` -/
def Info.inc (f : Func) (s : Info) : Info :=
  { s with calls := Function.update s.calls f (s.calls f).inc }

/-- The mark is top. -/
def Info.raise (m : Mark) (s : Info) : Info := { s with top := Function.update s.top m true }

theorem Info.top_raise {m m' : Mark} {s : Info} :
    (s.raise m).top m' = true ↔ m' = m ∨ s.top m' = true := by
  by_cases h : m' = m <;> simp [Info.raise, h]

section Force

variable (force : Mark → Info → Option Info)

def forceMultiThreadedVar (s : Info) (x : Var) : Option Info := do
  let s ← force (.multiThreadedVar x) s
  force (.multiUsedVar x) s

def forceMultiUsedVar (s : Info) (x : Var) : Option Info := force (.multiUsedVar x) s

/-- `forceMultiThreadedFunc`, the first one -/
def forceMultiThreadedName (s : Info) (f : Func) : Option Info := do
  let s ← force (.multiThreadedFunc f) s
  force (.multiUsedFunc f) s

/-- `forceMultiUsedFunc`, the first one -/
def forceMultiUsedName (s : Info) (f : Func) : Option Info := force (.multiUsedFunc f) s

def forceMultiThreadedBlock (s : Info) (b : Block) : Option Info :=
  if s.top (.multiThreadedLabel b.label) then some s
  else do
    let s ← force (.multiThreadedLabel b.label) s
    let s ← force (.multiUsedLabel b.label) s
    let s ← b.formals.foldlM (forceMultiThreadedVar force) s
    let s ← b.binds.foldlM (forceMultiThreadedVar force) s
    b.transfer.funcs.foldlM (forceMultiThreadedName force) s

def forceMultiUsedBlock (s : Info) (b : Block) : Option Info :=
  if s.top (.multiUsedLabel b.label) then some s
  else do
    let s ← force (.multiUsedLabel b.label) s
    let s ← b.formals.foldlM (forceMultiUsedVar force) s
    let s ← b.binds.foldlM (forceMultiUsedVar force) s
    b.transfer.funcs.foldlM (forceMultiUsedName force) s

/-- `forceMultiThreadedFunc`, the second one -/
def forceMultiThreadedFunc (f : Function) (s : Info) : Option Info := do
  let s ← (f.args.map Prod.fst).foldlM (forceMultiThreadedVar force) s
  f.blocks.foldlM (forceMultiThreadedBlock force) s

/-- `forceMultiUsedFunc`, the second one -/
def forceMultiUsedFunc (f : Function) (s : Info) : Option Info := do
  let s ← (f.args.map Prod.fst).foldlM (forceMultiUsedVar force) s
  f.blocks.foldlM (forceMultiUsedBlock force) s

def forceThreadCopyCurrent (l : Label) (f : Func) (s : Info) : Option Info := do
  let s ← force (.threadCopyCurrentLabel l) s
  force (.threadCopyCurrentFunc f) s

def run (s : Info) : Task → Option Info
  | .forceThreadCopyCurrent l f => forceThreadCopyCurrent force l f s
  | .forceMultiThreadedFunc f => forceMultiThreadedFunc force f s
  | .forceMultiUsedFunc f => forceMultiUsedFunc force f s

end Force

/-- `makeTop` -/
def force : ℕ → Mark → Info → Option Info
  | 0, _, _ => none
  | fuel + 1, m, s =>
    if s.top m then some s else (s.handlers m).foldlM (run (force fuel)) (s.raise m)

/-- `addHandler` -/
def addHandler (fuel : ℕ) (m : Mark) (t : Task) (s : Info) : Option Info :=
  if s.top m then run (force fuel) s t
  else some { s with handlers := Function.update s.handlers m (t :: s.handlers m) }

/-! ### The control flow of a function -/

/-- The graph of `Function.controlFlow` -/
def controlFlow (f : Function) : DirectedGraph Label where
  nodes := f.blocks.map Block.label
  succ l := if l ∈ f.blocks.map Block.label then
      ((f.blocks.filter fun b => decide (b.label = l)).flatMap fun b => b.transfer.labels).filter
        fun l' => decide (l' ∈ f.blocks.map Block.label)
    else []
  mem_of_succ l l' h := by
    split_ifs at h with hl
    · exact ⟨hl, of_decide_eq_true (List.mem_filter.1 h).2⟩
    · exact absurd h List.not_mem_nil

/-- `nodeBlock o labelNode` -/
def withBlock (f : Function) (k : Info → Block → Option Info) (s : Info) (l : Label) : Option Info :=
  (f.blocks.find? (·.label = l)).bind (k s)

def forceMultiThreadedBlockDFS (force : Mark → Info → Option Info) (f : Function) :
    ℕ → Info → Block → Option Info
  | 0, _, _ => none
  | fuel + 1, s, b =>
    if s.top (.multiThreadedLabel b.label) then some s
    else do
      let s ← forceMultiThreadedBlock force s b
      b.transfer.labels.foldlM (withBlock f (forceMultiThreadedBlockDFS force f fuel)) s

def visitBlock (fuel : ℕ) (f : Function) (s : Info) (b : Block) : Option Info :=
  if s.top (.threadCopyCurrentLabel b.label) then
    b.transfer.labels.foldlM (withBlock f (forceMultiThreadedBlockDFS (force fuel) f fuel)) s
  else some s

def visitForceMultiUsedBlock (fuel : ℕ) (f : Function) (s : Info) (b : Block) : Option Info := do
  let s ← forceMultiUsedBlock (force fuel) s b
  visitBlock fuel f s b

/-- What is done with a component of a graph: `many` if its nodes are on cycles, and `once` if not. -/
def visitComponent {α : Type} [DecidableEq α] (g : DirectedGraph α)
    (once many : Info → α → Option Info) (s : Info) : List α → Option Info
  | [] => some s
  | [n] => if n ∈ g.succ n then many s n else once s n
  | ns => ns.foldlM many s

def visitComponents {α : Type} [DecidableEq α] (g : DirectedGraph α)
    (once many : Info → α → Option Info) (s : Info) : Option Info :=
  (Basic.components g).foldlM (visitComponent g once many) s

/-! ### The program -/

/-- The call graph -/
def callGraph (P : Program) : DirectedGraph Func where
  nodes := P.functions.map Function.name
  succ n := if n ∈ P.functions.map Function.name then
      (((P.functions.filter fun f => decide (f.name = n)).flatMap fun f =>
        f.blocks.flatMap fun b => b.transfer.funcs).dedup).filter
        fun n' => decide (n' ∈ P.functions.map Function.name)
    else []
  mem_of_succ n n' h := by
    split_ifs at h with hn
    · exact ⟨hn, of_decide_eq_true (List.mem_filter.1 h).2⟩
    · exact absurd h List.not_mem_nil

/-- What is done with each block to compute `calls` and `threadCopyCurrent`. -/
def scanBlock (usesThreadsOrConts : Bool) (fuel : ℕ) (f : Function) (s : Info) (b : Block) :
    Option Info :=
  match b.transfer with
  | .call g _ _ =>
    if usesThreadsOrConts then
      addHandler fuel (.threadCopyCurrentFunc g) (.forceThreadCopyCurrent b.label f.name) (s.inc g)
    else some (s.inc g)
  | .runtime p _ _ =>
    if usesThreadsOrConts && copies p then
      forceThreadCopyCurrent (force fuel) b.label f.name s
    else some s
  | _ => some s

def visitFunc (usesThreadsOrConts : Bool) (fuel : ℕ) (multiUsed : Bool) (s : Info) (f : Function) :
    Option Info := do
  let s ← (if multiUsed || decide (s.calls f.name = .many) then force fuel (.multiUsedFunc f.name) s
    else some s)
  if s.top (.multiThreadedFunc f.name) then forceMultiThreadedFunc (force fuel) f s
  else if s.top (.multiUsedFunc f.name) then do
    let s ← forceMultiUsedFunc (force fuel) f s
    if usesThreadsOrConts then do
      let s ← addHandler fuel (.multiThreadedFunc f.name) (.forceMultiThreadedFunc f) s
      f.blocks.foldlM (visitBlock fuel f) s
    else some s
  else if usesThreadsOrConts then do
    let s ← addHandler fuel (.multiThreadedFunc f.name) (.forceMultiThreadedFunc f) s
    let s ← addHandler fuel (.multiUsedFunc f.name) (.forceMultiUsedFunc f) s
    visitComponents (controlFlow f) (withBlock f (visitBlock fuel f))
      (withBlock f (visitForceMultiUsedBlock fuel f)) s
  else do
    let s ← addHandler fuel (.multiUsedFunc f.name) (.forceMultiUsedFunc f) s
    visitComponents (controlFlow f) (fun s _ => some s)
      (withBlock f (forceMultiUsedBlock (force fuel))) s

/-- `nodeFunction` -/
def withFunction (P : Program) (k : Info → Function → Option Info) (s : Info) (n : Func) :
    Option Info :=
  (P.func? n).bind (k s)

def multi (P : Program) (fuel : ℕ) : Option Info := do
  let uses := usesThreadsOrConts P
  let s ← P.functions.foldlM (fun s f => f.blocks.foldlM (scanBlock uses fuel f) s)
    (Info.new.inc P.main)
  visitComponents (callGraph P) (withFunction P (visitFunc uses fuel false))
    (withFunction P (visitFunc uses fuel true)) s

/-! ### What is reported -/

def Info.funcIsMultiUsed (s : Info) (f : Func) : Bool := s.top (.multiUsedFunc f)

def Info.labelIsMultiUsed (s : Info) (l : Label) : Bool := s.top (.multiUsedLabel l)

def Info.varIsMultiDefed (s : Info) (x : Var) : Bool := s.top (.multiUsedVar x)

end Multi

end MultiMLton.Ssa
