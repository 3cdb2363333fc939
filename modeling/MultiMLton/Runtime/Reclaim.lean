import MultiMLton.Runtime.Exclusivity

/-!
# Taking exclusive objects back from the shared heap

`reclaimObjects` of `gc/reclaim.c`: the objects that only this core reaches are moved to the end of
its old generation, one after the other, as long as there is space.  The pointers to them are put
right in the roots and in the local heap, and the places where they have been are filled.
-/

namespace MultiMLton.GC

open Function
open Option (bind_eq_some_iff map_eq_some_iff)

namespace Reclaim

open Exclusivity

variable {w : ℕ}

/-- What there is at the place of an object.  When an object has been forwarded, its header is
`GC_FORWARDED` and its first word the new place; the rest of it is still there. -/
inductive Cell (w : ℕ)
  | object (ob : Obj w)
  | forwarded (new : ℕ) (old : Obj w)
  | filler

abbrev Memory (w : ℕ) : Type := ℕ → Cell w

/-- The memory and the fields of `GC_state`; `objects` are the objects of the old generation in their
order. -/
structure State (w : ℕ) where
  memory : Memory w
  heapStart : ℕ
  heapSize : ℕ
  oldGenSize : ℕ
  nursery : ℕ
  frontier : ℕ
  objects : List ℕ
  toStart : ℕ
  toLimit : ℕ
  back : ℕ
  amInMinorGC : Bool
  weaks : ℕ
  reachable : Option (List ℕ)
  globals : List ℕ
  proc : Proc
  stackTop : ℕ
  stackBottom : ℕ
  atomicState : BitVec 32
  limit : ℕ
  limitPlusSlop : ℕ

def GC_HEAP_LIMIT_SLOP : ℕ := 512

def State.store (s : State w) (p : ℕ) (cell : Cell w) : State w :=
  { s with memory := Function.update s.memory p cell }

/-- Write to an object that is still there. -/
def State.modify (s : State w) (p : ℕ) (f : Obj w → Obj w) : State w :=
  match s.memory p with
  | .object ob => s.store p (.object (f ob))
  | _ => s

/-- `sizeofStackShrinkReserved`, which computes with `double`, is a parameter. -/
structure Env (w : ℕ) where
  tables : Tables
  offsetofStack : ℕ
  sizeofStackShrinkReserved : Obj w → (isCurrentStack : Bool) → ℕ

variable (e : Env w)

/-- `getStackCurrentObjptr` -/
def getStackCurrent (s : State w) : ℕ :=
  match s.memory s.proc.currentThread with
  | .object thread => thread.objptr e.offsetofStack
  | _ => 0

def beginAtomic (s : State w) : State w :=
  { s with
    atomicState := s.atomicState + 1
    limit := if s.limit = 0 then s.limitPlusSlop - GC_HEAP_LIMIT_SLOP else s.limit }

def enter_local (s : State w) : State w :=
  beginAtomic (s.modify (getStackCurrent e s) fun stack =>
    { stack with used := s.stackTop - s.stackBottom })

/-- The forwarding pointers are followed at most `fuel` times. -/
def fixFwdObjptr (memory : Memory w) : (fuel : ℕ) → ℕ → Option ℕ
  | 0, _ => none
  | fuel + 1, op =>
    if isPointer op && op ≠ 0 then
      match memory op with
      | .forwarded new _ => fixFwdObjptr memory fuel new
      | _ => some op
    else some op

variable (fuel : ℕ)

/-- `sizeofObject`: the type and the length are those of the new object, `reserved` is read from the
old one. -/
def sizeofObject (memory : Memory w) (p : ℕ) : Option ℕ :=
  (fixFwdObjptr memory fuel p).bind fun new =>
    match memory new, memory p with
    | .object ob, .object old => some (objSize e.tables { ob with reserved := old.reserved })
    | .object ob, .forwarded _ old => some (objSize e.tables { ob with reserved := old.reserved })
    | _, _ => none

/-- What `forwardObjptr` makes of a stack before it is copied. -/
def shrinkStack (s : State w) (p : ℕ) (stack : Obj w) : Obj w :=
  let isCurrentStack := decide (getStackCurrent e s = p) && decide (stack.used ≠ 0)
  { stack with
    reserved := min (e.sizeofStackShrinkReserved stack isCurrentStack) stack.reserved
    thread := match s.memory stack.thread with
      | .forwarded new _ => new
      | _ => stack.thread }

/-- `not s->forwardState.amInMinorGC or isObjptrInNursery (s, s->heap, w->objptr)` -/
def linksForwarded (s : State w) (op : ℕ) : Bool :=
  isPointer op &&
    (!s.amInMinorGC || !isPointer op || decide (s.nursery ≤ op) && decide (op < s.frontier))

/-- `GC_ARRAY_HEADER_SIZE`, or the size of the other headers. -/
def headerBytes (ob : Obj w) : ℕ :=
  if (splitHeader e.tables ob.header).tag = .array then e.tables.model.arrayHeaderSize
  else e.tables.model.headerSize

/-- The object is copied to the back, where a weak object is linked, and the forwarding pointer is
stored in the old one; `copy` is `ob`, or the stack when it has been shrunk. -/
def copyToBack (s : State w) (p : ℕ) (ob copy : Obj w) : State w :=
  let t := splitHeader e.tables ob.header
  let new := s.back + headerBytes e ob
  let isLinked := decide (t.tag = .weak) && decide (t.numObjptrs = 1) &&
    linksForwarded s ob.weakObjptr
  { (s.store p (.forwarded new { copy with reserved := ob.reserved })).store new
      (.object (if isLinked then { copy with weakLink := s.weaks } else copy)) with
    weaks := if isLinked then new else s.weaks
    back := s.back + objSize e.tables copy
    objects := s.objects ++ [new] }

/-- `forwardObjptr` on an object that is not lifted.  The new place is not in from-space: the nursery
has been set to `toLimit` and `oldGenSize` is still that of before. -/
def forwardObjptr (s : State w) (p : ℕ) : Option (State w) :=
  match s.memory p with
  | .object ob =>
    let copy :=
      if (splitHeader e.tables ob.header).tag = .stack then shrinkStack e s p ob else ob
    -- Out of memory while lifting objects to the shared heap.
    if s.toLimit < s.back + objSize e.tables copy then none
    else some (copyToBack e s p ob copy)
  | _ => none

/-- The loop over `s->reachable`, which returns `numReclaimed`.  The difference
`(size_t) (s->forwardState.toLimit - s->forwardState.back)` is not negative, or it is large. -/
def reclaimLoop : List ℕ → State w → Option (State w × ℕ)
  | [], s => some (s, 0)
  | p :: reachable, s =>
    (sizeofObject e fuel s.memory p).bind fun size =>
      if s.back ≤ s.toLimit ∧ s.toLimit - s.back ≤ size then some (s, 0)
      else (forwardObjptr e (s.modify p fun ob => { ob with header := ob.header &&& ~~~LIFT_MASK })
          p).bind fun s =>
        (reclaimLoop reachable s).map fun r => (r.1, r.2 + 1)

/-! ### Forwarding pointers -/

/-- `fixFwdObjptr` on a slot of an object. -/
def fixSlot (s : State w) (p off : ℕ) : Option (State w) :=
  match s.memory p with
  | .object ob => (fixFwdObjptr s.memory fuel (ob.objptr off)).map fun op =>
      s.store p (.object { ob with objptr := Function.update ob.objptr off op })
  | _ => some s

/-- `fixFwdObjptr` on `stack->thread`. -/
def fixThread (s : State w) (stk : ℕ) : Option (State w) :=
  match s.memory stk with
  | .object ob => (fixFwdObjptr s.memory fuel ob.thread).map fun op =>
      s.store stk (.object { ob with thread := op })
  | _ => some s

/-- `fixFwdObjptr` on the target of a weak object. -/
def fixWeak (s : State w) (p : ℕ) : Option (State w) :=
  match s.memory p with
  | .object ob => (fixFwdObjptr s.memory fuel ob.weakObjptr).map fun op =>
      s.store p (.object { ob with weakObjptr := op })
  | _ => some s

/-- The loop of `foreachGlobalObjptrInScope` over the dangling stacks. -/
def fixDanglingStacks : List ℕ → State w → Option (State w × List ℕ)
  | [], s => some (s, [])
  | stk :: stks, s =>
    let thread := match s.memory stk with
      | .object ob => ob.thread
      | .forwarded _ old => old.thread
      | .filler => 0
    (fixFwdObjptr s.memory fuel stk).bind fun stk =>
      (fixSlot fuel s thread e.offsetofStack).bind fun s =>
        (fixDanglingStacks stks s).map fun r => (r.1, stk :: r.2)

/-- The fields of the processor other than its dangling stacks. -/
def fixProc (fix : ℕ → Option ℕ) (r : Proc) : Option Proc := do
  return { r with
    callFromCHandlerThread := ← fix r.callFromCHandlerThread
    currentThread := ← fix r.currentThread
    savedThread := ← fix r.savedThread
    signalHandlerThread := ← fix r.signalHandlerThread
    savedClosure := ← fix r.savedClosure
    pacmlThreadId := ← fix r.pacmlThreadId
    roots := ← r.roots.mapM fix
    moveOnWBA := ← r.moveOnWBA.mapM fix
    preemptOnWBA := ← r.preemptOnWBA.mapM fix
    spawnOnWBA := ← r.spawnOnWBA.mapM fix
    schedulerQueue := ← r.schedulerQueue.mapM fix
    liftingObject := ← fix r.liftingObject }

/-- `foreachGlobalObjptrInScope (s, fixFwdObjptr)` -/
def fixRoots (s : State w) : Option (State w) :=
  (s.globals.mapM (fixFwdObjptr s.memory fuel)).bind fun globals =>
    (fixProc (fixFwdObjptr s.memory fuel) s.proc).bind fun proc =>
      (fixDanglingStacks e fuel s.proc.danglingStackList s).map fun r =>
        { r.1 with globals := globals, proc := { proc with danglingStackList := r.2 } }

/-- `isPointerInHeap (s, s->heap, p)` -/
def isPointerInLocalHeap (s : State w) (p : ℕ) : Bool :=
  !isPointer p || (decide (s.heapStart ≤ p) && decide (p < s.heapStart + s.heapSize))

/-- The loop of `refreshDanglingStackList`. -/
def refreshLoop : List ℕ → State w → Option (State w × List ℕ)
  | [], s => some (s, [])
  | stk :: stks, s => (fixThread fuel s stk).bind fun s =>
    (refreshLoop stks s).map fun r => match s.memory stk with
      | .object ob => (r.1, if isPointerInLocalHeap s ob.thread then r.2 else stk :: r.2)
      | _ => r

def refreshDanglingStackList (s : State w) : Option (State w) :=
  (refreshLoop fuel s.proc.danglingStackList s).map fun r =>
    { r.1 with proc := { r.1.proc with danglingStackList := r.2 } }

/-- What `foreachObjptrInRange (s, front, back, fixFwdObjptr, FALSE)` does at an object. -/
def fixObject (s : State w) (p : ℕ) : Option (State w) :=
  match s.memory p with
  | .object ob =>
    let t := splitHeader e.tables ob.header
    match t.tag with
    | .stack => (fixThread fuel s p).bind fun s =>
        (slots e.tables ob).foldlM (fun s off => fixSlot fuel s p off) s
    | .weak => if t.numObjptrs = 1 then fixWeak fuel s p else some s
    | _ => (slots e.tables ob).foldlM (fun s off => fixSlot fuel s p off) s
  | .forwarded _ old => (fixFwdObjptr s.memory fuel p).map fun new => s.store p (.forwarded new old)
  | .filler => some s

/-! ### The whole -/

/-- The state in which objects are forwarded. -/
def setupForwarding (s : State w) : State w :=
  let toLimit := s.heapStart + s.heapSize - GC_HEAP_LIMIT_SLOP
  { s with
    toStart := s.heapStart + s.oldGenSize
    toLimit := toLimit
    back := s.heapStart + s.oldGenSize
    nursery := toLimit }

/-- What comes after the loop; `fillGap` writes a filler where a reclaimed object has been. -/
def finishReclaiming (reachable : List ℕ) (numReclaimed : ℕ) (s : State w) : Option (State w) :=
  (fixRoots e fuel { s with oldGenSize := s.oldGenSize + (s.back - s.toStart) }).bind fun s =>
    (refreshDanglingStackList fuel s).bind fun s =>
      (s.objects.foldlM (fixObject e fuel) s).map fun s =>
        { (reachable.take numReclaimed).foldl (fun s p => s.store p .filler) s with
          reachable := if numReclaimed = reachable.length then none
            else some (reachable.drop numReclaimed) }

def reclaimObjects (s : State w) : Option (State w) :=
  let s := enter_local e s
  match s.reachable with
  | none => none
  | some reachable =>
    (reachable.mapM (sizeofObject e fuel s.memory)).bind fun sizes =>
      if sizes.sum = 0 then some (enter_local e s)
      else (reclaimLoop e fuel reachable (setupForwarding s)).bind fun r =>
        (finishReclaiming e fuel reachable r.2 r.1).map (enter_local e)

/-! ### What is asked of it -/

/-- The objects on the list. -/
def State.members (s : State w) : List ℕ := s.reachable.getD []

/-- An object that has been taken off the list. -/
def Taken (s s' : State w) (p : ℕ) : Prop := p ∈ s.members ∧ p ∉ s'.members

/-- The pointers of an object, those of weak objects too. -/
def pointers (ob : Obj w) : List ℕ :=
  strongPointers e.tables ob ++
    if (splitHeader e.tables ob.header).tag = .weak ∧ (splitHeader e.tables ob.header).numObjptrs = 1
    then [ob.weakObjptr] else []

/-- The roots of the processor, other than its dangling stacks. -/
def roots (s : State w) : List ℕ :=
  s.globals ++ [s.proc.callFromCHandlerThread, s.proc.currentThread, s.proc.savedThread,
    s.proc.signalHandlerThread, s.proc.savedClosure, s.proc.pacmlThreadId] ++ s.proc.roots
    ++ objptrsInWBAs s.proc ++ s.proc.schedulerQueue ++ [s.proc.liftingObject]

/-- A pointer to an object that has been taken is now one to its copy. -/
def Follows (s s' : State w) (copy : ℕ → ℕ) (op op' : ℕ) : Prop := Taken s s' op → op' = copy op

/-- An object of the shared heap that is still there. -/
def StaysShared (s s' : State w) (p : ℕ) (ob : Obj w) : Prop :=
  isPointer p = true ∧ isPointerInSharedHeap e.tables p = true ∧ ¬ Taken s s' p ∧
    s'.memory p = .object ob

/-- No dangling pointer is left, the list has the objects that have not been moved, and what has been
entered has been left. -/
structure Reclaimed (s s' : State w) (copy : ℕ → ℕ) : Prop where
  locals : ∀ p ∈ s.objects, ∀ ob, s.memory p = .object ob → ∃ ob', s'.memory p = .object ob' ∧
    List.Forall₂ (Follows s s' copy) (pointers e ob) (pointers e ob')
  copies : ∀ p, Taken s s' p → copy p ∈ s'.objects ∧ copy p ∉ s.objects ∧
    ∃ ob ob', s.memory p = .object ob ∧ s'.memory (copy p) = .object ob' ∧
      List.Forall₂ (Follows s s' copy) (pointers e ob) (pointers e ob')
  roots : List.Forall₂ (Follows s s' copy) (roots s) (roots s')
  shared : ∀ p ob, StaysShared e s s' p ob → ∀ q ∈ pointers e ob, ¬ Taken s s' q
  isolated : ∀ p ob, StaysShared e s s' p ob → isThreadHeader ob.header = false →
    ∀ q ∈ pointers e ob, isPointer q = true → isPointerInLocalHeap s' q = false
  unreclaimed : ∀ p ∈ s.members, p ∈ s'.members ↔ ∃ ob, s'.memory p = .object ob
  depth : s'.atomicState = s.atomicState

variable {e fuel} {s s' : State w}

/-! ### What the functions leave alone -/

/-- Only the memory and the roots change. -/
def OnlyPointers (s s' : State w) : Prop :=
  s' = { s with memory := s'.memory, globals := s'.globals, proc := s'.proc }

theorem OnlyPointers.trans {s'' : State w} (h : OnlyPointers s s') (h' : OnlyPointers s' s'') :
    OnlyPointers s s'' := by
  rw [OnlyPointers, h', h]

theorem onlyPointers_store (s : State w) (p : ℕ) (cell : Cell w) : OnlyPointers s (s.store p cell) := rfl

theorem onlyPointers_modify (s : State w) (p : ℕ) (f : Obj w → Obj w) :
    OnlyPointers s (s.modify p f) := by
  unfold State.modify
  split <;> rfl

@[simp]
theorem State.modify_toLimit (s : State w) (p : ℕ) (f : Obj w → Obj w) :
    (s.modify p f).toLimit = s.toLimit := by
  rw [onlyPointers_modify]

@[simp]
theorem State.modify_back (s : State w) (p : ℕ) (f : Obj w → Obj w) :
    (s.modify p f).back = s.back := by
  rw [onlyPointers_modify]

/-- The bounds of the heap and of the old generation before, and the depth. -/
def State.bounds (s : State w) : ℕ × ℕ × ℕ × ℕ × BitVec 32 :=
  (s.heapStart, s.heapSize, s.oldGenSize, s.toStart, s.atomicState)

theorem enter_local_bounds (s : State w) : (enter_local e s).bounds = (beginAtomic s).bounds := by
  rw [enter_local, beginAtomic, onlyPointers_modify]
  rfl

theorem forwardObjptr_bounds {p : ℕ} (h : forwardObjptr e s p = some s') : s'.bounds = s.bounds := by
  unfold forwardObjptr at h
  split at h
  case h_1 ob _ =>
    dsimp only at h
    generalize (if (splitHeader e.tables ob.header).tag = .stack then shrinkStack e s p ob else ob) =
      copy at h
    split_ifs at h
    cases h
    rfl
  case h_2 => cases h

theorem reclaimLoop_bounds {reachable : List ℕ} {numReclaimed : ℕ}
    (h : reclaimLoop e fuel reachable s = some (s', numReclaimed)) : s'.bounds = s.bounds := by
  induction reachable generalizing s s' numReclaimed with
  | nil =>
    cases h
    rfl
  | cons p reachable ih =>
    rw [reclaimLoop] at h
    obtain ⟨size, -, h⟩ := bind_eq_some_iff.1 h
    split at h
    · cases h
      rfl
    · obtain ⟨t, ht, h⟩ := bind_eq_some_iff.1 h
      obtain ⟨⟨t', n⟩, ht', heq⟩ := map_eq_some_iff.1 h
      cases heq
      rw [ih ht', forwardObjptr_bounds ht, onlyPointers_modify]
      rfl

theorem fixSlot_onlyPointers {p off : ℕ} (h : fixSlot fuel s p off = some s') : OnlyPointers s s' := by
  unfold fixSlot at h
  split at h
  · obtain ⟨op, -, rfl⟩ := map_eq_some_iff.1 h
    rfl
  · cases h
    rfl

theorem fixThread_onlyPointers {p : ℕ} (h : fixThread fuel s p = some s') : OnlyPointers s s' := by
  unfold fixThread at h
  split at h
  · obtain ⟨op, -, rfl⟩ := map_eq_some_iff.1 h
    rfl
  · cases h
    rfl

theorem fixWeak_onlyPointers {p : ℕ} (h : fixWeak fuel s p = some s') : OnlyPointers s s' := by
  unfold fixWeak at h
  split at h
  · obtain ⟨op, -, rfl⟩ := map_eq_some_iff.1 h
    rfl
  · cases h
    rfl

theorem foldlM_onlyPointers {f : State w → ℕ → Option (State w)}
    (hf : ∀ {s s' : State w} {x : ℕ}, f s x = some s' → OnlyPointers s s') {l : List ℕ}
    (h : l.foldlM f s = some s') : OnlyPointers s s' := by
  induction l generalizing s with
  | nil =>
    cases h
    rfl
  | cons x l ih =>
    rw [List.foldlM_cons] at h
    obtain ⟨t, ht, h⟩ := bind_eq_some_iff.1 h
    exact (hf ht).trans (ih h)

theorem fixObject_onlyPointers {p : ℕ} (h : fixObject e fuel s p = some s') : OnlyPointers s s' := by
  have hslots {s s' : State w} {l : List ℕ}
      (h : l.foldlM (fun s off => fixSlot fuel s p off) s = some s') : OnlyPointers s s' :=
    foldlM_onlyPointers fixSlot_onlyPointers h
  unfold fixObject at h
  split at h
  · dsimp only at h
    split at h
    · obtain ⟨t, ht, h⟩ := bind_eq_some_iff.1 h
      exact (fixThread_onlyPointers ht).trans (hslots h)
    · split at h
      · exact fixWeak_onlyPointers h
      · cases h
        rfl
    · exact hslots h
  · obtain ⟨op, -, rfl⟩ := map_eq_some_iff.1 h
    rfl
  · cases h
    rfl

theorem fixDanglingStacks_onlyPointers {stks stks' : List ℕ}
    (h : fixDanglingStacks e fuel stks s = some (s', stks')) : OnlyPointers s s' := by
  induction stks generalizing s stks' with
  | nil =>
    cases h
    rfl
  | cons stk stks ih =>
    rw [fixDanglingStacks] at h
    obtain ⟨stk', -, h⟩ := bind_eq_some_iff.1 h
    obtain ⟨t, ht, h⟩ := bind_eq_some_iff.1 h
    obtain ⟨⟨t', l⟩, ht', heq⟩ := map_eq_some_iff.1 h
    cases heq
    exact (fixSlot_onlyPointers ht).trans (ih ht')

theorem refreshLoop_onlyPointers {stks stks' : List ℕ}
    (h : refreshLoop fuel stks s = some (s', stks')) : OnlyPointers s s' := by
  induction stks generalizing s stks' with
  | nil =>
    cases h
    rfl
  | cons stk stks ih =>
    rw [refreshLoop] at h
    obtain ⟨t, ht, h⟩ := bind_eq_some_iff.1 h
    obtain ⟨⟨t', l⟩, ht', heq⟩ := map_eq_some_iff.1 h
    refine (fixThread_onlyPointers ht).trans ?_
    split at heq
    all_goals
      cases heq
      exact ih ht'

theorem fixRoots_onlyPointers (h : fixRoots e fuel s = some s') : OnlyPointers s s' := by
  obtain ⟨globals, -, h⟩ := bind_eq_some_iff.1 h
  obtain ⟨proc, -, h⟩ := bind_eq_some_iff.1 h
  obtain ⟨⟨t, stks⟩, ht, rfl⟩ := map_eq_some_iff.1 h
  have hdangling : OnlyPointers s t := fixDanglingStacks_onlyPointers ht
  rw [OnlyPointers, hdangling]

theorem refreshDanglingStackList_onlyPointers (h : refreshDanglingStackList fuel s = some s') :
    OnlyPointers s s' := by
  obtain ⟨⟨t, stks⟩, ht, rfl⟩ := map_eq_some_iff.1 h
  have hrefresh : OnlyPointers s t := refreshLoop_onlyPointers ht
  rw [OnlyPointers, hrefresh]

theorem fill_onlyPointers (l : List ℕ) (s : State w) :
    OnlyPointers s (l.foldl (fun s p => s.store p .filler) s) := by
  induction l generalizing s with
  | nil => rfl
  | cons p l ih => exact (onlyPointers_store s p .filler).trans (ih _)

theorem finishReclaiming_bounds {reachable : List ℕ} {numReclaimed : ℕ}
    (h : finishReclaiming e fuel reachable numReclaimed s = some s') :
    s'.bounds = { s with oldGenSize := s.oldGenSize + (s.back - s.toStart) }.bounds := by
  obtain ⟨s₁, h₁, h⟩ := bind_eq_some_iff.1 h
  obtain ⟨s₂, h₂, h⟩ := bind_eq_some_iff.1 h
  obtain ⟨s₃, h₃, rfl⟩ := map_eq_some_iff.1 h
  have hfix := (fixRoots_onlyPointers h₁).trans
    ((refreshDanglingStackList_onlyPointers h₂).trans
      (foldlM_onlyPointers fixObject_onlyPointers h₃))
  rw [State.bounds, fill_onlyPointers, hfix]
  rfl

/-! ### The loop -/

theorem headerBytes_le_objSize (ob : Obj w) : headerBytes e ob ≤ objSize e.tables ob := by
  cases ht : (splitHeader e.tables ob.header).tag <;>
    simp [headerBytes, objSize, ht, GC.sizeofObject, GC.headerBytes]

theorem modify_of_ne (s : State w) (f : Obj w → Obj w) {p q : ℕ} (hne : q ≠ p) :
    (s.modify p f).memory q = s.memory q := by
  unfold State.modify
  split
  · exact update_of_ne hne _ _
  · rfl

theorem modify_self {s : State w} {f : Obj w → Obj w} {p : ℕ} {ob : Obj w}
    (h : (s.modify p f).memory p = .object ob) : ∃ ob₀, s.memory p = .object ob₀ ∧ f ob₀ = ob := by
  unfold State.modify at h
  split at h
  case h_1 ob₀ hob =>
    exact ⟨ob₀, hob, Cell.object.inj ((Function.update_self p _ s.memory).symm.trans h)⟩
  case h_2 hne => exact absurd h (hne ob)

theorem headerBytes_pos (ob : Obj w) : 0 < headerBytes e ob := by
  have hsize := e.tables.model.objptrSize_eq
  unfold headerBytes Model.arrayHeaderSize Model.headerSize
  split_ifs <;> omega

/-- A copy has the contents of the object; a stack may have been shrunk and its thread moved, and a
weak object may have been linked. -/
def Copies (ob copy : Obj w) : Prop :=
  copy = { ob with reserved := copy.reserved, thread := copy.thread, weakLink := copy.weakLink }

/-- What one turn of the loop does. -/
theorem forwardObjptr_spec {p : ℕ} (h : forwardObjptr e s p = some s') :
    s'.toLimit = s.toLimit ∧ s'.back ≤ s.toLimit ∧ ∃ ob copy new old,
      s.memory p = .object ob ∧ Copies ob copy ∧ s'.objects = s.objects ++ [new] ∧
        s.back < new ∧ new ≤ s'.back ∧ s'.memory new = .object copy ∧
        (p ≠ new → s'.memory p = .forwarded new old) ∧
        ∀ q, q ≠ p → q ≠ new → s'.memory q = s.memory q := by
  unfold forwardObjptr at h
  split at h
  case h_1 ob hob =>
    dsimp only at h
    have hcopy : Copies ob (if (splitHeader e.tables ob.header).tag = .stack then shrinkStack e s p ob
        else ob) := by
      split_ifs <;> rfl
    generalize (if (splitHeader e.tables ob.header).tag = .stack then shrinkStack e s p ob else ob) =
      copy at h hcopy
    split_ifs at h with hlimit
    cases h
    have hsize : headerBytes e ob ≤ objSize e.tables copy := by
      have hheader : copy.header = ob.header := by rw [hcopy]
      have hle := headerBytes_le_objSize (e := e) copy
      rwa [headerBytes, hheader, ← headerBytes] at hle
    have hpos := headerBytes_pos (e := e) ob
    refine ⟨rfl, not_lt.1 hlimit, ob, _, s.back + headerBytes e ob,
      { copy with reserved := ob.reserved }, hob, ?_, rfl, Nat.lt_add_of_pos_right hpos,
      Nat.add_le_add_left hsize _, Function.update_self .., fun hne => ?_, fun q hqp hqn => ?_⟩
    · split_ifs
      · exact congrArg (fun c : Obj w => { c with weakLink := s.weaks }) hcopy
      · exact hcopy
    · rw [copyToBack, State.store, State.store]
      dsimp only
      rw [update_of_ne hne, Function.update_self]
    · rw [copyToBack, State.store, State.store]
      dsimp only
      rw [update_of_ne hqn, update_of_ne hqp]
  case h_2 => cases h

/-- The object at `p` has been copied to `new`, without its lift bit. -/
def Moved (s s' : State w) (p new : ℕ) : Prop :=
  ∃ ob copy old, s.memory p = .object ob ∧ s'.memory p = .forwarded new old ∧
    s'.memory new = .object copy ∧ Copies { ob with header := ob.header &&& ~~~LIFT_MASK } copy

/-- `reclaimObjects` has entered twice when it is done. -/
theorem reclaimObjects_atomicState (h : reclaimObjects e fuel s = some s') :
    s'.atomicState = s.atomicState + 1 + 1 := by
  have hdepth (s : State w) : (enter_local e s).atomicState = s.atomicState + 1 :=
    congrArg (·.2.2.2.2) (enter_local_bounds s)
  unfold reclaimObjects at h
  dsimp only at h
  split at h
  case h_1 => cases h
  case h_2 reachable _ =>
    obtain ⟨sizes, -, h⟩ := bind_eq_some_iff.1 h
    split_ifs at h
    · cases h
      rw [hdepth, hdepth]
    · obtain ⟨⟨t, n⟩, ht, h⟩ := bind_eq_some_iff.1 h
      obtain ⟨t', ht', rfl⟩ := map_eq_some_iff.1 h
      have hloop := congrArg (·.2.2.2.2) (reclaimLoop_bounds ht)
      have hfinish := congrArg (·.2.2.2.2) (finishReclaiming_bounds ht')
      rw [hdepth, ← hdepth s]
      exact congrArg (· + 1) (hfinish.trans hloop)

/-- No list is reclaimed as it should be: what has been entered is not left. -/
theorem reclaimObjects_not_reclaimed (e : Env w) (s : State w) :
    ¬ ∃ (fuel₀ : ℕ) (s' : State w) (copy : ℕ → ℕ),
      (∀ fuel, fuel₀ ≤ fuel → reclaimObjects e fuel s = some s') ∧ Reclaimed e s s' copy := by
  rintro ⟨fuel₀, s', copy, hrun, hreclaimed⟩
  have hentered := reclaimObjects_atomicState (hrun fuel₀ le_rfl)
  rw [hreclaimed.depth] at hentered
  bv_omega

/-- The list has objects of the shared heap, none of them a thread, and what points to one of them is
on the list or not in the shared heap. -/
structure ExclusiveList (e : Env w) (s : State w) : Prop where
  present : s.reachable ≠ none
  nodup : s.members.Nodup
  shared : ∀ p ∈ s.members, isPointer p = true ∧ isPointerInSharedHeap e.tables p = true ∧
    ∃ ob, s.memory p = .object ob ∧ isThreadHeader ob.header = false
  closed : ∀ p ob, s.memory p = .object ob → isPointerInSharedHeap e.tables p = true →
    ∀ q ∈ pointers e ob, q ∈ s.members → p ∈ s.members

/-- The tables of the example before, and stacks that do not shrink. -/
def exampleEnv : Env 64 where
  tables := exampleTables
  offsetofStack := 16
  sizeofStackShrinkReserved stack _ := stack.reserved

/-- A core whose objects 24 and 8 in the shared heap, of 16 bytes each, point to each other, and which
has space for one of them in its heap. -/
def exampleState : State 64 where
  memory p := if p = 8 ∨ p = 24 then .object
      { exampleHeap p with header := 0x80009#64, objptr := fun _ => if p = 8 then 24 else 8 }
    else .filler
  heapStart := 1024
  heapSize := 544
  oldGenSize := 0
  nursery := 1056
  frontier := 1056
  objects := []
  toStart := 0
  toLimit := 0
  back := 0
  amInMinorGC := false
  weaks := 0
  reachable := some [24, 8]
  globals := []
  proc := exampleProc 1 24
  stackTop := 0
  stackBottom := 0
  atomicState := 1
  limit := 1056
  limitPlusSlop := 1568

theorem exampleState_exclusive : ExclusiveList exampleEnv exampleState where
  present := nofun
  nodup := by decide
  shared p hp := by
    have hp : p = 24 ∨ p = 8 := by simpa [State.members, exampleState] using hp
    rcases hp with rfl | rfl
    · exact ⟨by decide, by decide, _, rfl, by decide⟩
    · exact ⟨by decide, by decide, _, rfl, by decide⟩
  closed p ob hob _ q _ _ := by
    by_cases hp : p = 8 ∨ p = 24
    · rcases hp with rfl | rfl <;> decide
    · have hfiller : exampleState.memory p = .filler := if_neg hp
      rw [hfiller] at hob
      cases hob

/-- The object that stays points to the filler of the one that has been taken. -/
example : ∃ s' ob, reclaimObjects exampleEnv 3 exampleState = some s' ∧ s'.members = [8] ∧
    s'.memory 8 = .object ob ∧ ob.objptr 0 = 24 ∧ s'.memory 24 = .filler :=
  ⟨_, _, rfl, rfl, rfl, rfl, rfl⟩

theorem reclaimObjects_entered : ¬ ∀ (e : Env 64) (s : State 64), ExclusiveList e s →
    ∃ (fuel₀ : ℕ) (s' : State 64) (copy : ℕ → ℕ),
      (∀ fuel, fuel₀ ≤ fuel → reclaimObjects e fuel s = some s') ∧ Reclaimed e s s' copy := by
  intro hclaim
  obtain ⟨fuel₀, s', copy, hrun, hreclaimed⟩ :=
    hclaim exampleEnv exampleState exampleState_exclusive
  have hentered := reclaimObjects_atomicState (hrun fuel₀ le_rfl)
  rw [hreclaimed.depth] at hentered
  exact absurd hentered (by decide)

end Reclaim

end MultiMLton.GC
