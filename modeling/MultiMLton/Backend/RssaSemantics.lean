import MultiMLton.Backend.Rssa

/-!
# Running RSSA with a heap limit

Small steps of the blocks of one function, with what they do to the frontier of the heap. Registers
hold numbers; what is read from the heap, from the stack or from other fields of the runtime is a
number that other statements, and the runtime, may change.

* `State.guaranteed`, `State.allocated`: what the last limit check or collection guaranteed, and what
  has been allocated since;
* `Step`: one statement or one transfer; a signal may come between any two.
-/

namespace MultiMLton.Backend

open MultiMLton.Atoms

namespace Rssa

/-- `Runtime.limitSlop`, which is `GC_HEAP_LIMIT_SLOP` of the runtime. -/
def limitSlop : ℕ := 512

/-- The size of pointers, and the least number of bytes that a collection leaves free. -/
structure Machine where
  csize : WordSize
  bits : csize.bits = 32 ∨ csize.bits = 64
  allocChunkSize : ℕ
  limitSlop_lt : limitSlop < allocChunkSize

/-- The registers of a function and the part of the heap that belongs to its processor. -/
structure State (V : Type) where
  vars : V → ℕ
  /-- The values of all other operands that are not constants. -/
  other : Operand V → ℕ
  frontier : ℕ
  limit : ℕ
  limitPlusSlop : ℕ
  /-- What the last limit check or collection guaranteed. -/
  guaranteed : ℕ
  /-- What has been allocated since. -/
  allocated : ℕ

variable {F L V ν : Type}

namespace State

/-- The value of an operand. -/
def eval (s : State V) : Operand V → ℕ
  | .cast z => s.eval z
  | .const (.word w) => w.value.toNat
  | .const .null => 0
  | .runtime .frontier => s.frontier
  | .runtime .limit => s.limit
  | .runtime .limitPlusSlop => s.limitPlusSlop
  | .var x => s.vars x
  | z => s.other z

/-- The object, or the C function, takes the next bytes of the heap. -/
def allocate (s : State V) (size : ℕ) : State V :=
  { s with frontier := s.frontier + size, allocated := s.allocated + size }

/-- A new guarantee. -/
def guarantee (s : State V) (bytes : ℕ) : State V :=
  { s with guaranteed := bytes, allocated := 0 }

/-- The invariant of the runtime. A limit of zero asks for a collection. -/
structure Valid (m : Machine) (s : State V) : Prop where
  pos : 0 < s.frontier
  lt : s.limitPlusSlop < 2 ^ m.csize.bits
  limit : s.limit = 0 ∨ s.limit + limitSlop = s.limitPlusSlop

/-- What is guaranteed and has not been allocated yet fits between the frontier and the end. -/
def Honest (s : State V) : Prop := s.frontier + s.guaranteed ≤ s.limitPlusSlop + s.allocated

variable [DecidableEq V]

/-- A register gets a value. -/
def assign (s : State V) (x : V) (v : ℕ) : State V :=
  { s with vars := Function.update s.vars x v }

/-- The arguments of a block get their values. -/
def assignAll (s : State V) (xs : List V) (vs : List ℕ) : State V :=
  (xs.zip vs).foldl (fun s p => s.assign p.1 p.2) s

end State

/-! ### Primitives -/

/-- The result of a primitive on numbers. Limit checks compare and subtract; nothing is said about
other primitives. -/
def PrimResult (m : Machine) (p : Prim ν) (args : List ℕ) (r : ℕ) : Prop :=
  match p, args with
  | .cpointerEqual, [a, b] => r = if a = b then 1 else 0
  | .cpointerLt, [a, b] => r = if a < b then 1 else 0
  | .wordLt _ false, [a, b] => r = if a < b then 1 else 0
  | .cpointerDiff, [a, b] => r = (((a : ℤ) - b) % m.csize.modulus).toNat
  | _, _ => True

/-- The result of a primitive that may overflow. -/
def ArithResult (p : Prim ν) (args : List ℕ) (r : Option ℕ) : Prop :=
  match p, args with
  | .wordAddCheck s false, [a, b] => r = if a + b < 2 ^ s.bits then some (a + b) else none
  | _, _ => True

/-! ### Transfers and limit checks -/

/-- `WordSize.bool` -/
def boolSize : WordSize := ⟨32, WordSize.compareRes.pos, WordSize.compareRes.le⟩

/-- `Transfer.ifBool` -/
def Transfer.ifBool (test : Operand V) (falsee truee : L) : Transfer F L V ν :=
  .switch ⟨[(.zero boolSize, falsee), (.one boolSize, truee)], none, boolSize, test⟩

/-- The label that a switch goes to. -/
def Switch.goesTo (sw : Switch V L) (v : ℕ) : Option L :=
  match sw.cases.find? fun c => decide (c.1.value.toNat = v) with
  | some c => some c.2
  | none => sw.default

/-- The bytes that a call says it needs. -/
def CFunction.needs (func : CFunction) (s : State V) (args : List (Operand V)) : ℕ :=
  match func.bytesNeeded with
  | some i => (args[i]?.map s.eval).getD 0
  | none => 0

/-- Which argument of a C function is the number of bytes to leave free: the prototypes of
`GC_switchToThread`, `GC_arrayAllocate` and `GC_collect`. -/
def CFunction.ensuresArg (func : CFunction) : ℕ :=
  if func.target = "GC_switchToThread" then 2 else 1

/-- The bytes that are free after a C function that may collect was given the number `n`.
`GC_collect` asks for `allocChunkSize` bytes at least. -/
def CFunction.leaves (m : Machine) (func : CFunction) (n : ℕ) : ℕ :=
  if func.ensuresBytesFree then
    if func.target = "GC_collect" then max n m.allocChunkSize else n
  else 0

/-- `CFunction.gc` -/
def CFunction.gc (maySwitchThreads : Bool) : CFunction where
  bytesNeeded := none
  ensuresBytesFree := true
  mayGC := true
  maySwitchThreads := maySwitchThreads
  target := "GC_collect"

/-- The test of a check for at most `limitSlop` bytes. -/
def limitTest (r : V) : List (Statement V L ν) :=
  [.primApp [.runtime .limit, .runtime .frontier] (some r) .cpointerLt]

/-- The test of a check for `amount` bytes. -/
def heapTest (csize : WordSize) (d r : V) (amount : Operand V) : List (Statement V L ν) :=
  [.primApp [.runtime .limitPlusSlop, .runtime .frontier] (some d) .cpointerDiff,
    .primApp [.var d, amount] (some r) (.wordLt csize false)]

/-- The operand does not depend on the registers `d` and `r`. -/
def Operand.Steady (d r : V) : Operand V → Prop
  | .const (.word _) => True
  | .var x => x ≠ d ∧ x ≠ r
  | _ => False

/-- The block is a limit check for `amount` bytes, passed when `r` is false. -/
inductive IsLimitCheck (m : Machine) (b : Block F L V ν) : V → Operand V → Prop
  | limit {r pass fail} (hstatements : b.statements = limitTest r)
    (htransfer : b.transfer = .ifBool (.var r) pass fail) :
    IsLimitCheck m b r (.const (.word (.make limitSlop m.csize)))
  | heap {d r amount pass fail} (hstatements : b.statements = heapTest m.csize d r amount)
    (htransfer : b.transfer = .ifBool (.var r) pass fail) (hdr : d ≠ r)
    (hamount : amount.Steady d r) : IsLimitCheck m b r amount

/-- Where control is: before the statements `rest` of a block, or in the C function that the block
calls. -/
inductive Point (F L V ν : Type)
  | at (b : Block F L V ν) (rest : List (Statement V L ν))
  | inC (b : Block F L V ν)

/-- Control arrives at a block. -/
def Point.enter (b : Block F L V ν) : Point F L V ν := .at b b.statements

/-- The registers of two states differ in `xs` at most. -/
def AgreeOutside (xs : List V) (s s' : State V) : Prop := ∀ x, x ∉ xs → s'.vars x = s.vars x

/-! ### Steps -/

variable [DecidableEq V]

/-- One statement. What is written into `limit` is one of the two values that the runtime asserts it
to have. -/
inductive Exec (m : Machine) : Statement V L ν → State V → State V → Prop
  | bind {dst isMutable src s} : Exec m (.bind dst isMutable src) s (s.assign dst (s.eval src))
  | moveVar {x src s} : Exec m (.move (.var x) src) s (s.assign x (s.eval src))
  | moveFrontier {src s} :
    Exec m (.move (.runtime .frontier) src) s { s with frontier := s.eval src }
  | moveLimitPlusSlop {src s} :
    Exec m (.move (.runtime .limitPlusSlop) src) s { s with limitPlusSlop := s.eval src }
  | moveLimit {src s v} (hv : v = 0 ∨ v + limitSlop = s.limitPlusSlop) :
    Exec m (.move (.runtime .limit) src) s { s with limit := v }
  | moveOther {dst src s other} (hvar : ∀ x, dst ≠ .var x) (hlimit : dst ≠ .runtime .limit)
    (hfrontier : dst ≠ .runtime .frontier) (hend : dst ≠ .runtime .limitPlusSlop) :
    Exec m (.move dst src) s { s with other := other }
  | object {dst size s v other} :
    Exec m (.object dst size) s (({ s with other := other }.assign dst v).allocate size)
  | primApp {args dst prim s v} (h : PrimResult m prim (args.map s.eval) v) :
    Exec m (.primApp args (some dst) prim) s (s.assign dst v)
  | primEffect {args prim s other} : Exec m (.primApp args none prim) s { s with other := other }
  | profile {s} : Exec m .profile s s
  | profileLabel {s} : Exec m .profileLabel s s
  | setExnStackLocal {s other} : Exec m .setExnStackLocal s { s with other := other }
  | setExnStackSlot {s other} : Exec m .setExnStackSlot s { s with other := other }
  | setHandler {l s other} : Exec m (.setHandler l) s { s with other := other }
  | setSlotExnStack {s other} : Exec m .setSlotExnStack s { s with other := other }

/-- One step of a function with the given blocks. Between a call and its continuation other functions
run, and nothing is guaranteed to the continuation. -/
inductive Step (m : Machine) (blocks : List (Block F L V ν)) :
    Point F L V ν × State V → Point F L V ν × State V → Prop
  | signal {p s} : Step m blocks (p, s) (p, { s with limit := 0 })
  | exec {b st rest s s'} (h : Exec m st s s') : Step m blocks (.at b (st :: rest), s) (.at b rest, s')
  | goto {b args dst b' s} (ht : b.transfer = .goto args dst) (hb : b' ∈ blocks)
    (hl : b'.label = dst) :
    Step m blocks (.at b [], s) (.enter b', s.assignAll b'.args (args.map s.eval))
  | switch {b sw b' s} (ht : b.transfer = .switch sw) (hb : b' ∈ blocks)
    (hl : sw.goesTo (s.eval sw.test) = some b'.label)
    (hcheck : ∀ r amount, IsLimitCheck m b r amount → s.vars r ≠ 0) :
    Step m blocks (.at b [], s) (.enter b', s)
  | pass {b sw r amount b' s} (ht : b.transfer = .switch sw) (hb : b' ∈ blocks)
    (hl : sw.goesTo (s.eval sw.test) = some b'.label) (hcheck : IsLimitCheck m b r amount)
    (hr : s.vars r = 0) :
    Step m blocks (.at b [], s) (.enter b', s.guarantee (s.eval amount))
  | arith {b args dst overflow prim success b' s v}
    (ht : b.transfer = .arith args dst overflow prim success)
    (h : ArithResult prim (args.map s.eval) (some v)) (hb : b' ∈ blocks) (hl : b'.label = success) :
    Step m blocks (.at b [], s) (.enter b', s.assign dst v)
  | overflow {b args dst overflow prim success b' s}
    (ht : b.transfer = .arith args dst overflow prim success)
    (h : ArithResult prim (args.map s.eval) none) (hb : b' ∈ blocks) (hl : b'.label = overflow) :
    Step m blocks (.at b [], s) (.enter b', s)
  | ccall {b args func ret s n o} (ht : b.transfer = .ccall args func ret)
    (hn : n ≤ func.needs s args) :
    Step m blocks (.at b [], s) (.inC b, { s with other := o }.allocate n)
  | creturn {b args func l b' s v other} (ht : b.transfer = .ccall args func (some l))
    (hb : b' ∈ blocks) (hl : b'.label = l) (hgc : func.mayGC = false)
    (hvars : ∀ x, x ∉ b'.args → v x = s.vars x) :
    Step m blocks (.inC b, s) (.enter b', { s with vars := v, other := other })
  | collected {b args func l b' s s'} (ht : b.transfer = .ccall args func (some l))
    (hb : b' ∈ blocks) (hl : b'.label = l) (hgc : func.mayGC = true)
    (hvars : AgreeOutside b'.args s s') (hvalid : s'.Valid m) (hhonest : s'.Honest)
    (hguaranteed : s'.guaranteed =
      func.leaves m ((args[func.ensuresArg]?.map s.eval).getD 0)) (hallocated : s'.allocated = 0) :
    Step m blocks (.inC b, s) (.enter b', s')
  | returned {b args f ret b' s s'} (ht : b.transfer = .call args f ret) (hb : b' ∈ blocks)
    (hl : b'.label ∈ ret.labels) (hvalid : s'.Valid m) (hhonest : s'.Honest)
    (hguaranteed : s'.guaranteed = 0) (hallocated : s'.allocated = 0) :
    Step m blocks (.at b [], s) (.enter b', s')

end Rssa

end MultiMLton.Backend
