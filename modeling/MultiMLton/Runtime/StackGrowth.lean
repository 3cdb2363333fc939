import Mathlib.Tactic
import MultiMLton.Runtime.Object

/-!
# Growing the stack of a host

`GC_prefixAndSwitchTo` of `gc/threadlet.c` puts a parasite on the current stack, which it lets
`ensureHasHeapBytesFreeAndOrInvariantForMutator` of `gc/garbage-collection.c` grow before. Addresses
in the local heap are numbers, and those in the current stack are offsets from its bottom.

* `hasHeapBytesFree`, `maybeSatisfyAllocationRequestLocally`, `setGCStateCurrentLocalHeap`,
  `growStackCurrent`, `performGC`: the functions of the runtime;
* `Runtime`: its constants, and the collectors, of which only the sizes that they leave are seen;
* `PrefixSafe`: the parasite fits where it is copied, and new stacks lie in free space;
* `prefixSafe_iff`: when that is so.
-/

namespace MultiMLton.GC.StackGrowth

open List Option

/-- A local heap; `frontier` is where its next chunk begins. -/
structure LocalHeap where
  start : ℕ
  size : ℕ
  availableSize : ℕ
  oldGenSize : ℕ
  nursery : ℕ
  frontier : ℕ

/-- The current stack, with `getStackTopFrameSize`. -/
structure Stack where
  used : ℕ
  reserved : ℕ
  topFrameSize : ℕ

/-- A stack object that has been allocated: its bytes with the header, and the bytes that were free
there. -/
structure NewStack where
  bytes : ℕ
  room : ℕ
  deriving DecidableEq

/-- The fields of `GC_state` that are read or set, and the stack objects allocated so far. -/
structure State where
  heap : LocalHeap
  frontier : ℕ
  limitPlusSlop : ℕ
  canMinor : Bool
  signalIsPending : Bool
  bytesNeeded : ℕ
  stack : Stack
  stackTop : ℕ
  stackLimit : ℤ
  newStacks : List NewStack

/-- The constants of the runtime, and its collectors.  `ratios.stackCurrentGrow` is
`growNum / growDen`.  The collectors keep the frames of the current stack; `majorGC` may end the
process.  `useGenerational` is the test of `setGCStateCurrentLocalHeap` but for the size of the
nursery. -/
structure Runtime where
  model : Model
  maxFrameSize : ℕ
  growNum : ℕ
  growDen : ℕ
  minorCheneyCopyGC : State → State
  majorGC : ℕ → State → Option State
  useGenerational : State → ℕ → Bool
  growDen_pos : 0 < growDen
  grow_ge_one : growDen ≤ growNum
  minor_stack : ∀ s, (minorCheneyCopyGC s).stack.used = s.stack.used ∧
    (minorCheneyCopyGC s).newStacks = s.newStacks
  major_stack : ∀ n s t, majorGC n s = some t →
    t.stack.used = s.stack.used ∧ t.newStacks = s.newStacks

/-- `GC_HEAP_LIMIT_SLOP` -/
def GC_HEAP_LIMIT_SLOP : ℕ := 512

/-- `RESERVED_MAX` -/
def RESERVED_MAX : ℕ := (2 ^ 64 - 1) / 4

variable (r : Runtime)

/-- `GC_BONUS_SLOP` -/
def Runtime.bonusSlop : ℕ := r.model.headerSize + 4

/-! ### Stacks -/

def sizeofStackSlop : ℕ := 2 * r.maxFrameSize

/-- The header of a stack object and its `struct GC_stack`. -/
def stackHeader : ℕ := r.model.headerSize + r.model.stackStructSize

def alignStackReserved (reserved : ℕ) : ℕ := alignWithExtra r.model reserved (stackHeader r)

def sizeofStackWithHeader (reserved : ℕ) : ℕ := stackHeader r + reserved

/-- `reservedGrow`, cut at `RESERVED_MAX`. -/
def reservedGrow (reserved : ℕ) : ℕ := min (r.growNum * reserved / r.growDen) RESERVED_MAX

def sizeofStackMinimumReserved (stack : Stack) : ℕ :=
  alignStackReserved r (stack.used + sizeofStackSlop r - stack.topFrameSize)

def sizeofStackGrowReserved (stack : Stack) : ℕ :=
  alignStackReserved r (max (reservedGrow r stack.reserved) (sizeofStackMinimumReserved r stack))

def getStackLimit (stack : Stack) : ℤ := stack.reserved - sizeofStackSlop r

def invariantForMutatorStack (s : State) : Bool :=
  decide ((s.stack.used : ℤ) ≤ getStackLimit r s.stack + s.stack.topFrameSize)

/-- The size of the current stack is used as the size of the new one. -/
def setGCStateCurrentThreadAndStack (s : State) : State :=
  { s with
    stackTop := s.stack.used
    stackLimit := getStackLimit r s.stack }

/-! ### The local heap -/

def hasHeapBytesFree (s : State) (oldGen nursery : ℕ) : Bool :=
  decide (s.heap.oldGenSize + oldGen
      + (if s.canMinor then 2 else 1) * (s.frontier - s.heap.nursery) ≤ s.heap.size)
    && decide (s.heap.start + s.heap.oldGenSize + oldGen ≤ s.heap.nursery)
    && decide (nursery ≤ s.limitPlusSlop - s.frontier)

/-- A chunk for the request is taken from the nursery of the heap. -/
def takesChunk (s : State) (nurseryBytesRequested : ℕ) : Bool :=
  decide (s.limitPlusSlop - s.frontier < nurseryBytesRequested)
    && decide (nurseryBytesRequested + r.bonusSlop ≤
      s.heap.start + s.heap.availableSize - s.heap.frontier)

/-- The state with the chunk. -/
def withChunk (s : State) (nurseryBytesRequested : ℕ) : State :=
  let newFrontier :=
    if s.heap.frontier = s.limitPlusSlop + r.bonusSlop then s.frontier else s.heap.frontier
  { s with
    heap := { s.heap with frontier := newFrontier + nurseryBytesRequested + r.bonusSlop }
    frontier := newFrontier
    limitPlusSlop := newFrontier + nurseryBytesRequested }

/-- `maybeSatisfyAllocationRequestLocally`; nobody else takes chunks of a local heap. -/
def maybeSatisfyAllocationRequestLocally (s : State) (nurseryBytesRequested : ℕ) : State :=
  if takesChunk r s nurseryBytesRequested then withChunk r s nurseryBytesRequested else s

/-- `setGCStateCurrentLocalHeap`; the process ends when the nursery is too small. -/
def setGCStateCurrentLocalHeap (s : State) (oldGenBytesRequested nurseryBytesRequested : ℕ) :
    Option State :=
  let h := s.heap
  let limitPlusSlop := h.start + h.size
  let nurserySize := h.size - (h.oldGenSize + oldGenBytesRequested)
  let genNursery := alignFrontier r.model (limitPlusSlop - nurserySize / 2)
  let set (canMinor : Bool) (nursery : ℕ) : State :=
    { s with
      heap := { h with availableSize := h.size, nursery := nursery, frontier := limitPlusSlop }
      frontier := nursery
      limitPlusSlop := limitPlusSlop
      canMinor := canMinor }
  if h.size < h.oldGenSize + oldGenBytesRequested + nurseryBytesRequested then none
  else if nurseryBytesRequested ≤ limitPlusSlop - genNursery && r.useGenerational s nurserySize then
    some (set true genNursery)
  else some (set false (limitPlusSlop - nurserySize))

/-- `newStack` and `copyStack` of `growStackCurrent`. -/
def growStackCurrent (s : State) (allocInOldGen : Bool) (reservedNew : ℕ) : State :=
  let reserved := if 0 < reservedNew then reservedNew else sizeofStackGrowReserved r s.stack
  let bytes := sizeofStackWithHeader r reserved
  let s := { s with stack := { s.stack with reserved := reserved } }
  if allocInOldGen then
    { s with
      heap := { s.heap with oldGenSize := s.heap.oldGenSize + bytes }
      newStacks := s.newStacks ++
        [⟨bytes, s.heap.nursery - (s.heap.start + s.heap.oldGenSize)⟩] }
  else
    { s with
      frontier := s.frontier + bytes
      newStacks := s.newStacks ++ [⟨bytes, s.limitPlusSlop - s.frontier⟩] }

/-! ### Collections -/

/-- The stack that is to be grown, as `stackTopOk` and `stackBytesRequested`. -/
def stackRequest (s : State) (ensureStack : Bool) (forceStackGrowthBytes : ℕ) : Bool × ℕ :=
  if 0 < forceStackGrowthBytes then (false, forceStackGrowthBytes)
  else
    let stackTopOk := !ensureStack || invariantForMutatorStack r s
    (stackTopOk,
      if stackTopOk then 0 else sizeofStackWithHeader r (sizeofStackGrowReserved r s.stack))

/-- The `majorGC` of `performGC`. -/
def majorIfNeeded (s : State) (forceMajor : Bool) (totalBytesRequested : ℕ) : Option State :=
  if forceMajor || decide (s.heap.availableSize - s.heap.oldGenSize < totalBytesRequested) then
    r.majorGC totalBytesRequested s
  else some s

/-- The collections of `performGC`, up to `setGCStateCurrentLocalHeap`. -/
def collect (s : State) (oldGenBytesRequested nurseryBytesRequested stackBytesRequested : ℕ)
    (forceMajor : Bool) : Option State := do
  let s := { s with bytesNeeded := nurseryBytesRequested }
  let nurseryBytesRequested :=
    if nurseryBytesRequested = 0 then GC_HEAP_LIMIT_SLOP else nurseryBytesRequested
  let totalBytesRequested := oldGenBytesRequested + stackBytesRequested + nurseryBytesRequested
  let s ← majorIfNeeded r s forceMajor totalBytesRequested
  setGCStateCurrentLocalHeap r s (oldGenBytesRequested + stackBytesRequested) nurseryBytesRequested

/-- Either the process ends, with the stacks allocated so far, or it goes on. -/
abbrev Outcome : Type := Except (List NewStack) State

def performGC (s : State) (oldGenBytesRequested nurseryBytesRequested : ℕ) (forceMajor : Bool)
    (forceStackGrowthBytes : ℕ) : Outcome :=
  let s := r.minorCheneyCopyGC s
  let (stackTopOk, stackBytesRequested) := stackRequest r s true forceStackGrowthBytes
  match collect r s oldGenBytesRequested nurseryBytesRequested stackBytesRequested forceMajor with
  | none => .error s.newStacks
  | some s =>
    let s := if stackTopOk then s else growStackCurrent r s true forceStackGrowthBytes
    .ok (setGCStateCurrentThreadAndStack r s)

/-- `ensureHasHeapBytesFreeAndOrInvariantForMutator`, not from `GC_collect`. -/
def ensureHasHeapBytesFreeAndOrInvariantForMutator (s : State)
    (forceGC ensureFrontier ensureStack : Bool)
    (oldGenBytesRequested nurseryBytesRequested forceStackGrowthBytes : ℕ) : Outcome :=
  let nurseryBytesRequested :=
    if ensureFrontier then nurseryBytesRequested + s.bytesNeeded else nurseryBytesRequested
  let (stackTopOk, stackBytesRequested) := stackRequest r s ensureStack forceStackGrowthBytes
  -- try to satisfy (at least part of the) request locally
  let s := maybeSatisfyAllocationRequestLocally r s (nurseryBytesRequested + stackBytesRequested)
  let s :=
    if !stackTopOk && hasHeapBytesFree s 0 stackBytesRequested then
      setGCStateCurrentThreadAndStack r (growStackCurrent r s false forceStackGrowthBytes)
    else s
  let mustCollect := (ensureStack && !invariantForMutatorStack r s)
    || !hasHeapBytesFree s oldGenBytesRequested nurseryBytesRequested || forceGC
  if s.signalIsPending || mustCollect then
    let s := { s with bytesNeeded := nurseryBytesRequested }
    let s := { s with stack := { s.stack with used := s.stackTop } }
    if mustCollect then
      performGC r s oldGenBytesRequested nurseryBytesRequested forceGC forceStackGrowthBytes
    else .ok s
  else .ok s

/-! ### Splicing a parasite -/

/-- `reservedNew` of `GC_prefixAndSwitchTo`, for a parasite of so many bytes. -/
def reservedNew (s : State) (parasite : ℕ) : ℕ :=
  alignStackReserved r (reservedGrow r (s.stackTop + parasite + sizeofStackSlop r))

/-- What is written to the thread before the request to grow, and again before a collection. -/
def beforeGrowth (s : State) : State :=
  { s with
    stack := { s.stack with used := s.stackTop }
    bytesNeeded := 0 }

/-- What comes of `GC_prefixAndSwitchTo` before it copies the parasite: the loop is left when the
parasite fits, or after one turn. -/
def copyState (s : State) (parasite : ℕ) : Outcome :=
  if s.stackLimit < s.stackTop + parasite then
    ensureHasHeapBytesFreeAndOrInvariantForMutator r (beforeGrowth s) false true true 0 0
      (reservedNew r s parasite)
  else .ok s

/-- Every new stack object lies in free space with its header. -/
def Inside (newStacks : List NewStack) : Prop := ∀ new ∈ newStacks, new.bytes ≤ new.room

/-- The parasite is copied within the limit of the stack, and the stack has grown as much as it
should. -/
structure Safe (parasite reserved : ℕ) (t : State) : Prop where
  fits : t.stackTop + parasite ≤ t.stackLimit
  reserved : reserved ≤ t.stack.reserved
  inside : Inside t.newStacks

def Met (parasite reserved : ℕ) : Outcome → Prop
  | .ok t => Safe parasite reserved t
  | .error newStacks => Inside newStacks

/-- The bytes of stack that are asked for, if any. -/
def requested (s : State) (parasite : ℕ) : ℕ :=
  if s.stackLimit < s.stackTop + parasite then reservedNew r s parasite else 0

def PrefixSafe (s : State) (parasite : ℕ) : Prop :=
  Met parasite (requested r s parasite) (copyState r s parasite)

/-- The mutator runs on its stack, and the sizes are those of objects in memory. -/
structure Valid (s : State) (parasite : ℕ) : Prop where
  stackLimit : s.stackLimit = getStackLimit r s.stack
  newStacks : s.newStacks = []
  small : s.stackTop + parasite + sizeofStackSlop r ≤ RESERVED_MAX

/-- If a collection comes back, the old generation has room for the stack object with its header
below the nursery. -/
def CollectsRoom (s : State) (reserved : ℕ) : Prop :=
  ∀ t, collect r (r.minorCheneyCopyGC s) 0 0 reserved false = some t →
    t.heap.start + t.heap.oldGenSize + sizeofStackWithHeader r reserved ≤ t.heap.nursery

/-- The state after a stack has been allocated in the nursery. -/
def grownLocally (s : State) (reserved : ℕ) : State :=
  setGCStateCurrentThreadAndStack r (growStackCurrent r s false reserved)

/-- The ways in which a request to grow is met. -/
inductive GrowsSafely (s : State) (reserved : ℕ) : Prop
  /-- The chunk has room for the stack object with its header; if a collection has to follow, so
  has the old generation then. -/
  | locally (free : hasHeapBytesFree s 0 reserved = true)
      (room : sizeofStackWithHeader r reserved ≤ s.limitPlusSlop - s.frontier)
      (after : hasHeapBytesFree (grownLocally r s reserved) 0 0 = true ∨
        CollectsRoom r (grownLocally r s reserved) reserved)
  /-- There is no room for the bytes alone, and the stack or the heap demand a collection. -/
  | collected (noChunk : takesChunk r s reserved = false)
      (full : hasHeapBytesFree s 0 reserved = false)
      (demanded : invariantForMutatorStack r s = false ∨ hasHeapBytesFree s 0 0 = false)
      (room : CollectsRoom r s reserved)
  /-- With a new chunk the heap demands a collection. -/
  | chunk (takes : takesChunk r s reserved = true)
      (demanded : hasHeapBytesFree (withChunk r s reserved) 0 0 = false)
      (room : CollectsRoom r (withChunk r s reserved) reserved)

/-! ### What the functions do -/

section

variable {r : Runtime} {s t : State} {reserved parasite : ℕ}

theorem stackHeader_pos (r : Runtime) : 0 < stackHeader r := by
  have hsize := r.model.objptrSize_eq
  simp only [stackHeader, Model.headerSize, Model.stackStructSize]
  omega

theorem le_alignStackReserved (r : Runtime) (n : ℕ) : n ≤ alignStackReserved r n := by
  have hpos : 0 < r.model.alignment := by
    rcases r.model.alignment_eq with heq | heq <;> omega
  have hle := le_align (a := n + stackHeader r) hpos
  unfold alignStackReserved alignWithExtra
  omega

/-- A ratio of at least 1 does not shrink the request. -/
theorem le_reservedNew (h : Valid r s parasite) :
    s.stackTop + parasite + sizeofStackSlop r ≤ reservedNew r s parasite := by
  refine le_trans ?_ (le_alignStackReserved r _)
  refine le_min ?_ h.small
  rw [Nat.le_div_iff_mul_le r.growDen_pos, Nat.mul_comm]
  exact Nat.mul_le_mul_right _ r.grow_ge_one

theorem stackRequest_forced (s : State) (ensureStack : Bool) (h : 0 < reserved) :
    stackRequest r s ensureStack reserved = (false, reserved) := if_pos h

theorem setGCStateCurrentLocalHeap_keeps {oldGen nursery : ℕ}
    (h : setGCStateCurrentLocalHeap r s oldGen nursery = some t) :
    t.stack = s.stack ∧ t.newStacks = s.newStacks := by
  simp only [setGCStateCurrentLocalHeap] at h
  split_ifs at h <;> cases h <;> exact ⟨rfl, rfl⟩

theorem majorIfNeeded_keeps {forceMajor : Bool} {total : ℕ}
    (h : majorIfNeeded r s forceMajor total = some t) :
    t.stack.used = s.stack.used ∧ t.newStacks = s.newStacks := by
  unfold majorIfNeeded at h
  split_ifs at h
  · exact r.major_stack _ _ _ h
  · cases h
    exact ⟨rfl, rfl⟩

theorem collect_keeps {oldGen nursery stackBytes : ℕ} {forceMajor : Bool}
    (h : collect r s oldGen nursery stackBytes forceMajor = some t) :
    t.stack.used = s.stack.used ∧ t.newStacks = s.newStacks := by
  simp only [collect, bind_eq_bind] at h
  obtain ⟨s₁, hmajor, hset⟩ := bind_eq_some_iff.mp h
  obtain ⟨hstack, hnew⟩ := setGCStateCurrentLocalHeap_keeps hset
  obtain ⟨hused', hnew'⟩ := majorIfNeeded_keeps hmajor
  rw [hstack, hnew]
  exact ⟨hused', hnew'⟩

/-- A forced request is met by a collection when there is room for the stack. -/
theorem performGC_met (h : s.stack.used + parasite + sizeofStackSlop r ≤ reserved)
    (hpos : 0 < reserved) :
    Met parasite reserved (performGC r s 0 0 false reserved) ↔
      Inside s.newStacks ∧ CollectsRoom r s reserved := by
  obtain ⟨hused₀, hnew₀⟩ := r.minor_stack s
  simp only [performGC, stackRequest_forced _ true hpos, CollectsRoom]
  cases hcollect : collect r (r.minorCheneyCopyGC s) 0 0 reserved false with
  | none =>
    simp only [Met, hnew₀, reduceCtorEq, false_implies, implies_true, and_true]
  | some t =>
    obtain ⟨hused, hnew⟩ := collect_keeps hcollect
    rw [hused₀] at hused
    rw [hnew₀] at hnew
    have hroom : (∀ t', some t = some t' → t'.heap.start + t'.heap.oldGenSize +
          sizeofStackWithHeader r reserved ≤ t'.heap.nursery) ↔
        sizeofStackWithHeader r reserved ≤ t.heap.nursery - (t.heap.start + t.heap.oldGenSize) := by
      have hheader := stackHeader_pos r
      simp only [Option.some.injEq, forall_eq', sizeofStackWithHeader]
      omega
    rw [hroom]
    constructor
    · rintro ⟨-, -, hinside⟩
      simp only [growStackCurrent, setGCStateCurrentThreadAndStack, if_pos hpos, if_true,
        Bool.false_eq_true, if_false, hnew] at hinside
      exact ⟨fun new hmem => hinside new (mem_append_left _ hmem),
        hinside _ (mem_append_right _ (mem_singleton_self _))⟩
    · rintro ⟨hinside, hfree⟩
      refine ⟨?_, ?_, ?_⟩
      · simp only [growStackCurrent, setGCStateCurrentThreadAndStack, getStackLimit, if_pos hpos,
          if_true, Bool.false_eq_true, if_false, hused]
        omega
      · simp [growStackCurrent, setGCStateCurrentThreadAndStack, hpos]
      · simp only [growStackCurrent, setGCStateCurrentThreadAndStack, if_pos hpos, if_true,
          Bool.false_eq_true, if_false, hnew]
        intro new hmem
        rcases mem_append.mp hmem with hold | hlast
        · exact hinside new hold
        · rw [mem_singleton.mp hlast]
          exact hfree

/-- The state in which it is decided whether to collect. -/
def decided (r : Runtime) (s : State) (reserved : ℕ) : State :=
  let s := maybeSatisfyAllocationRequestLocally r s reserved
  if hasHeapBytesFree s 0 reserved then grownLocally r s reserved else s

/-- The test for a collection. -/
def demands (r : Runtime) (s : State) : Bool :=
  !invariantForMutatorStack r s || !hasHeapBytesFree s 0 0

theorem beforeGrowth_of_saved (hneeded : s.bytesNeeded = 0) (hused : s.stack.used = s.stackTop) :
    beforeGrowth s = s := by
  obtain ⟨heap, frontier, limit, canMinor, signal, needed, ⟨used, res, size⟩, top, lim, new⟩ := s
  change needed = 0 at hneeded
  change used = top at hused
  subst hneeded hused
  rfl

theorem decided_keeps (reserved : ℕ) (hneeded : s.bytesNeeded = 0)
    (hused : s.stack.used = s.stackTop) :
    (decided r s reserved).bytesNeeded = 0 ∧
      (decided r s reserved).stack.used = (decided r s reserved).stackTop := by
  simp only [decided, maybeSatisfyAllocationRequestLocally]
  split_ifs <;> simp [withChunk, grownLocally, growStackCurrent,
    setGCStateCurrentThreadAndStack, hneeded, hused]

theorem ensure_forced (h : 0 < reserved) (hneeded : s.bytesNeeded = 0)
    (hused : s.stack.used = s.stackTop) :
    ensureHasHeapBytesFreeAndOrInvariantForMutator r s false true true 0 0 reserved =
      if demands r (decided r s reserved) then
        performGC r (decided r s reserved) 0 0 false reserved
      else .ok (decided r s reserved) := by
  simp only [ensureHasHeapBytesFreeAndOrInvariantForMutator, stackRequest_forced s true h, hneeded,
    Nat.zero_add, Nat.add_zero, if_true, Bool.not_false, Bool.true_and, Bool.or_false]
  obtain ⟨hneeded', hused'⟩ := decided_keeps (r := r) reserved hneeded hused
  -- the thread already has the values that it is given before a collection
  have hsame : beforeGrowth (decided r s reserved) = decided r s reserved :=
    beforeGrowth_of_saved hneeded' hused'
  change (if (decided r s reserved).signalIsPending || demands r (decided r s reserved) then
      if demands r (decided r s reserved) then
        performGC r (beforeGrowth (decided r s reserved)) 0 0 false reserved
      else .ok (beforeGrowth (decided r s reserved))
    else .ok (decided r s reserved)) = _
  rw [hsame]
  cases demands r (decided r s reserved) <;> simp

/-- What becomes of a request, once it is decided whether to collect. -/
def answer (r : Runtime) (s : State) (reserved : ℕ) : Outcome :=
  if demands r s then performGC r s 0 0 false reserved else .ok s

section

variable (h : s.stack.used + parasite + sizeofStackSlop r ≤ reserved) (hpos : 0 < reserved)

include h hpos

/-- After a growth in the nursery the stack has room, so that only the heap can demand more. -/
theorem demands_grownLocally :
    demands r (grownLocally r s reserved) = !hasHeapBytesFree (grownLocally r s reserved) 0 0 := by
  have hinv : invariantForMutatorStack r (grownLocally r s reserved) = true := by
    simp only [invariantForMutatorStack, grownLocally, growStackCurrent, getStackLimit,
      setGCStateCurrentThreadAndStack, if_pos hpos, Bool.false_eq_true, if_false,
      decide_eq_true_eq]
    omega
  simp only [demands, hinv, Bool.not_true, Bool.false_or]

theorem grownLocally_met (hnew : s.newStacks = []) :
    Met parasite reserved (answer r (grownLocally r s reserved) reserved) ↔
      sizeofStackWithHeader r reserved ≤ s.limitPlusSlop - s.frontier ∧
        (hasHeapBytesFree (grownLocally r s reserved) 0 0 = true ∨
          CollectsRoom r (grownLocally r s reserved) reserved) := by
  have hinside : Inside (grownLocally r s reserved).newStacks ↔
      sizeofStackWithHeader r reserved ≤ s.limitPlusSlop - s.frontier := by
    simp [Inside, grownLocally, growStackCurrent, setGCStateCurrentThreadAndStack, hnew, hpos]
  have hused : (grownLocally r s reserved).stack.used = s.stack.used := rfl
  have hreserved : (grownLocally r s reserved).stack.reserved = reserved := by
    simp [grownLocally, growStackCurrent, setGCStateCurrentThreadAndStack, hpos]
  rw [answer, demands_grownLocally h hpos]
  cases hfree : hasHeapBytesFree (grownLocally r s reserved) 0 0 with
  | false =>
    rw [Bool.not_false, if_pos rfl, performGC_met (by rw [hused]; exact h) hpos, hinside]
    simp only [Bool.false_eq_true, false_or]
  | true =>
    rw [Bool.not_true, if_neg Bool.false_ne_true]
    simp only [true_or, and_true]
    constructor
    · exact fun hmet => hinside.mp hmet.inside
    · intro hroom
      refine ⟨?_, hreserved.ge, hinside.mpr hroom⟩
      change (s.stack.used : ℤ) + parasite ≤
        getStackLimit r (grownLocally r s reserved).stack
      rw [getStackLimit, hreserved]
      omega

/-- Where no stack has been allocated, only a collection can make the parasite fit. -/
theorem kept_met (hnew : s.newStacks = []) (hlimit : s.stackLimit < s.stackTop + parasite) :
    Met parasite reserved (answer r s reserved) ↔
      demands r s = true ∧ CollectsRoom r s reserved := by
  rw [answer]
  cases demands r s with
  | false =>
    simp only [Bool.false_eq_true, if_false, false_and, iff_false]
    exact fun hmet => absurd hmet.fits (not_le.mpr hlimit)
  | true =>
    have hinside : Inside s.newStacks := by simp [Inside, hnew]
    simp only [if_true, true_and, performGC_met h hpos, hinside]

end

/-! ### Requests -/

theorem takesChunk_of_free (h : hasHeapBytesFree s 0 reserved = true) :
    takesChunk r s reserved = false := by
  simp only [hasHeapBytesFree, Bool.and_eq_true, decide_eq_true_eq] at h
  simp only [takesChunk, Bool.and_eq_false_iff, decide_eq_false_iff_not, not_lt]
  exact Or.inl h.2

/-- A chunk has the bytes that were asked for, and no more. -/
theorem withChunk_room (r : Runtime) (s : State) (reserved : ℕ) :
    (withChunk r s reserved).limitPlusSlop - (withChunk r s reserved).frontier = reserved := by
  simp only [withChunk]
  omega

theorem hasHeapBytesFree_withChunk (r : Runtime) (s : State) (reserved : ℕ) :
    hasHeapBytesFree (withChunk r s reserved) 0 reserved =
      hasHeapBytesFree (withChunk r s reserved) 0 0 := by
  simp only [hasHeapBytesFree, withChunk_room, le_refl, Nat.zero_le]

theorem decided_chunk (h : takesChunk r s reserved = true) :
    decided r s reserved =
      if hasHeapBytesFree (withChunk r s reserved) 0 0 then
        grownLocally r (withChunk r s reserved) reserved
      else withChunk r s reserved := by
  simp only [decided, maybeSatisfyAllocationRequestLocally, h, if_true,
    hasHeapBytesFree_withChunk]

theorem decided_noChunk (h : takesChunk r s reserved = false) :
    decided r s reserved =
      if hasHeapBytesFree s 0 reserved then grownLocally r s reserved else s := by
  simp only [decided, maybeSatisfyAllocationRequestLocally, h, Bool.false_eq_true, if_false]

section

variable (h : s.stack.used + parasite + sizeofStackSlop r ≤ reserved) (hpos : 0 < reserved)
  (hnew : s.newStacks = []) (hlimit : s.stackLimit < s.stackTop + parasite)

include h hpos hnew hlimit

/-- A stack that is put into a new chunk overruns it by its header. -/
theorem answer_chunk_met (hchunk : takesChunk r s reserved = true) :
    Met parasite reserved (answer r (decided r s reserved) reserved) ↔
      hasHeapBytesFree (withChunk r s reserved) 0 0 = false ∧
        CollectsRoom r (withChunk r s reserved) reserved := by
  rw [decided_chunk hchunk]
  cases hfree : hasHeapBytesFree (withChunk r s reserved) 0 0 with
  | true =>
    have hmet := grownLocally_met (s := withChunk r s reserved) h hpos hnew
    rw [if_pos rfl, hmet, withChunk_room]
    have hheader := stackHeader_pos r
    simp only [sizeofStackWithHeader, Bool.true_eq_false, false_and, iff_false, not_and]
    omega
  | false =>
    have hmet := kept_met (s := withChunk r s reserved) h hpos hnew hlimit
    rw [if_neg Bool.false_ne_true, hmet, demands, hfree]
    simp only [Bool.not_false, Bool.or_true, true_and]

theorem answer_noChunk_met (hchunk : takesChunk r s reserved = false) :
    Met parasite reserved (answer r (decided r s reserved) reserved) ↔
      if hasHeapBytesFree s 0 reserved then
        sizeofStackWithHeader r reserved ≤ s.limitPlusSlop - s.frontier ∧
          (hasHeapBytesFree (grownLocally r s reserved) 0 0 = true ∨
            CollectsRoom r (grownLocally r s reserved) reserved)
      else
        (invariantForMutatorStack r s = false ∨ hasHeapBytesFree s 0 0 = false) ∧
          CollectsRoom r s reserved := by
  rw [decided_noChunk hchunk]
  cases hasHeapBytesFree s 0 reserved with
  | true =>
    rw [if_pos rfl, if_pos rfl]
    exact grownLocally_met h hpos hnew
  | false =>
    rw [if_neg Bool.false_ne_true, if_neg Bool.false_ne_true, kept_met h hpos hnew hlimit]
    simp only [demands, Bool.or_eq_true, Bool.not_eq_true']

theorem answer_met : Met parasite reserved (answer r (decided r s reserved) reserved) ↔
      GrowsSafely r s reserved := by
  cases hchunk : takesChunk r s reserved with
  | true =>
    rw [answer_chunk_met h hpos hnew hlimit hchunk]
    constructor
    · rintro ⟨hdemanded, hroom⟩
      exact GrowsSafely.chunk hchunk hdemanded hroom
    · rintro (⟨hfree, -, -⟩ | ⟨hnoChunk, -, -, -⟩ | ⟨-, hdemanded, hroom⟩)
      · exact absurd (hchunk.symm.trans (takesChunk_of_free hfree)) Bool.false_ne_true.symm
      · exact absurd (hchunk.symm.trans hnoChunk) Bool.false_ne_true.symm
      · exact ⟨hdemanded, hroom⟩
  | false =>
    rw [answer_noChunk_met h hpos hnew hlimit hchunk]
    constructor
    · intro hmet
      split_ifs at hmet with hfree
      · exact GrowsSafely.locally hfree hmet.1 hmet.2
      · exact GrowsSafely.collected hchunk (Bool.not_eq_true _ ▸ hfree) hmet.1 hmet.2
    · rintro (⟨hfree, hroom, hafter⟩ | ⟨-, hfull, hdemanded, hroom⟩ | ⟨htakes, -, -⟩)
      · rw [if_pos hfree]
        exact ⟨hroom, hafter⟩
      · rw [if_neg (by simp [hfull])]
        exact ⟨hdemanded, hroom⟩
      · exact absurd (htakes.symm.trans hchunk) Bool.false_ne_true.symm

end

/-- A parasite that does not fit asks for some bytes. -/
theorem reservedNew_pos (h : Valid r s parasite) (hlimit : s.stackLimit < s.stackTop + parasite) :
    0 < reservedNew r s parasite := by
  have hle := le_reservedNew h
  have hstack := h.stackLimit
  unfold getStackLimit at hstack
  omega

end

variable {r} in
/-- The parasite is prefixed safely just when it fits, or the request to grow is met safely. -/
theorem prefixSafe_iff {s : State} {parasite : ℕ} (h : Valid r s parasite) :
    PrefixSafe r s parasite ↔
      s.stackTop + parasite ≤ s.stackLimit ∨
        GrowsSafely r (beforeGrowth s) (reservedNew r s parasite) := by
  by_cases hlimit : s.stackLimit < s.stackTop + parasite
  · have hpos := reservedNew_pos h hlimit
    have hle := le_reservedNew h
    rw [PrefixSafe, requested, copyState, if_pos hlimit, if_pos hlimit]
    generalize reservedNew r s parasite = reserved at hpos hle ⊢
    rw [ensure_forced hpos rfl rfl]
    have hmet : Met parasite reserved (answer r (decided r (beforeGrowth s) reserved) reserved) ↔
        GrowsSafely r (beforeGrowth s) reserved := answer_met hle hpos h.newStacks hlimit
    constructor
    · exact fun hsafe => Or.inr (hmet.mp hsafe)
    · rintro (hfits | hgrows)
      · exact absurd hlimit (not_lt.mpr hfits)
      · exact hmet.mpr hgrows
  · have hfits := not_lt.mp hlimit
    rw [PrefixSafe, requested, copyState, if_neg hlimit, if_neg hlimit]
    have hinside : Inside s.newStacks := by simp [Inside, h.newStacks]
    exact ⟨fun _ => Or.inl hfits, fun _ => ⟨hfits, Nat.zero_le _, hinside⟩⟩

/-- Collectors that find no garbage, and a stack that is to be doubled. -/
def still : Runtime where
  model := ⟨8, 8, .inr rfl, .inr rfl⟩
  maxFrameSize := 16
  growNum := 2
  growDen := 1
  minorCheneyCopyGC := id
  majorGC := fun _ s => some s
  useGenerational := fun _ _ => false
  growDen_pos := by decide
  grow_ge_one := by decide
  minor_stack := fun _ => ⟨rfl, rfl⟩
  major_stack := fun _ _ _ h => by
    cases h
    exact ⟨rfl, rfl⟩

/-- A host with 64 bytes on a stack of 128, in a heap of 4096 bytes. -/
def host (frontier limitPlusSlop heapFrontier : ℕ) : State where
  heap := ⟨0, 4096, 4096, 0, 0, heapFrontier⟩
  frontier := frontier
  limitPlusSlop := limitPlusSlop
  canMinor := false
  signalIsPending := false
  bytesNeeded := 0
  stack := ⟨64, 128, 32⟩
  stackTop := 64
  stackLimit := 96
  newStacks := []

theorem host_valid (frontier limitPlusSlop heapFrontier : ℕ) :
    Valid still (host frontier limitPlusSlop heapFrontier) 300 where
  stackLimit := rfl
  newStacks := rfl
  small := by
    change 64 + 300 + 32 ≤ RESERVED_MAX
    decide

/-- A parasite of 300 bytes fits after the stack has been grown in the nursery. -/
theorem prefixSafe_of_room : PrefixSafe still (host 1000 4096 4096) 300 :=
  (prefixSafe_iff (host_valid 1000 4096 4096)).mpr
    (.inr (.locally (by decide) (by decide) (.inl (by decide))))

set_option maxRecDepth 2000 in
/-- With 600 bytes left in a heap that fulfils its invariants, nothing grows and nothing is
collected, and the parasite, copied from the bottom of the top frame at 32 to 332, ends 204 bytes
above the stack; a stack that is put into a chunk of its
own overruns it by 56 bytes. -/
theorem prefix_overruns :
    (Valid still (host 3496 4096 4096) 300 ∧ ¬ PrefixSafe still (host 3496 4096 4096) 300 ∧
      ∃ t, copyState still (host 3496 4096 4096) 300 = .ok t ∧ t.stackTop + 300 = 364 ∧
        t.stackLimit = 96 ∧ t.stack.reserved = 128) ∧
      Valid still (host 100 700 1000) 300 ∧ ¬ PrefixSafe still (host 100 700 1000) 300 ∧
        ∃ t, copyState still (host 100 700 1000) 300 = .ok t ∧ t.newStacks = [⟨848, 792⟩] := by
  refine ⟨⟨host_valid _ _ _, ?_, ⟨_, rfl, rfl, rfl, rfl⟩⟩, host_valid _ _ _, ?_, ⟨_, rfl, rfl⟩⟩
  · intro hsafe
    have hfits : (364 : ℤ) ≤ 96 := hsafe.fits
    omega
  · intro hsafe
    have hinside : 848 ≤ 792 := hsafe.inside ⟨848, 792⟩ (List.mem_singleton_self _)
    omega

end MultiMLton.GC.StackGrowth
