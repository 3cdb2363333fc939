import MultiMLton.Runtime.Header
import MultiMLton.Runtime.Object

/-!
# Depth-first marking

`dfsMarkByMode` of `gc/dfs-mark.c`, label by label.  A label has the local variables that are live
there as arguments; pointers into an object (`todo`, `top`) are offsets from the object.
-/

namespace MultiMLton.GC

universe u

variable {w : ℕ} {σ : Type u}

/-- `GC_objectTypeTag`, without the tags that fill gaps. -/
inductive ObjectTypeTag
  | array
  | normal
  | stack
  | weak
  deriving DecidableEq

/-- `GC_objectType` -/
structure ObjectType where
  tag : ObjectTypeTag
  hasIdentity : Bool
  bytesNonObjptrs : ℕ
  numObjptrs : ℕ

/-- What the words of an object say: those before it, the fields of a stack and of a weak object, and
the object pointers and return addresses by their offsets. -/
structure Obj (w : ℕ) where
  header : Header w
  arrayCounter : ℕ
  arrayLength : ℕ
  objptr : ℕ → ℕ
  returnAddress : ℕ → ℕ
  markTop : ℕ
  markIndex : ℕ
  reserved : ℕ
  used : ℕ
  thread : ℕ
  isParasitic : Bool
  weakLink : ℕ
  weakObjptr : ℕ

/-- Objects by their addresses. -/
abbrev Heap (w : ℕ) : Type := ℕ → Obj w

/-- The fields of `GC_state` that marking reads: the tables of the compiler and the extent of the
shared heap. -/
structure Tables where
  model : Model
  objectTypes : ℕ → ObjectType
  getFrameLayoutFromReturnAddress : ℕ → FrameLayout
  sharedHeapStart : ℕ
  sharedHeapSize : ℕ

/-- `splitHeader` -/
def splitHeader (g : Tables) (header : Header w) : ObjectType := g.objectTypes (typeIndex header)

/-- `isPointer`, with `GC_MODEL_MINALIGN_SHIFT = 2`. -/
def isPointer (p : ℕ) : Bool := p % 4 == 0

/-- `isPointerInHeap (s, s->sharedHeap, p)` -/
def isPointerInSharedHeap (g : Tables) (p : ℕ) : Bool :=
  !isPointer p || (decide (g.sharedHeapStart ≤ p) && decide (p < g.sharedHeapStart + g.sharedHeapSize))

/-- `GC_RETURNADDRESS_SIZE` -/
def Model.returnAddressSize (m : Model) : ℕ := m.objptrSize

namespace Heap

def modify (h : Heap w) (p : ℕ) (f : Obj w → Obj w) : Heap w := Function.update h p (f (h p))

/-- `*headerp = header` -/
def setHeader (h : Heap w) (p : ℕ) (header : Header w) : Heap w :=
  h.modify p fun o => { o with header := header }

/-- `storeObjptrFromPointer (todo, p)` -/
def storeObjptr (h : Heap w) (cur todo p : ℕ) : Heap w :=
  h.modify cur fun o => { o with objptr := Function.update o.objptr todo p }

end Heap

/-- `GC_markMode` -/
inductive MarkMode
  | MARK_MODE
  | UNMARK_MODE
  deriving DecidableEq

/-- `(MARK_MODE == mode) ? MARK_MASK : 0` -/
def MarkMode.mark : MarkMode → Header w
  | .MARK_MODE => MARK_MASK
  | .UNMARK_MODE => 0#w

def isPointerMarkedByMode (header : Header w) : MarkMode → Bool
  | .MARK_MODE => isMarked header
  | .UNMARK_MODE => !isMarked header

/-- The arguments of `dfsMarkByMode`.  The visitor gets what it reads, its own variables and the
header of the object; `onStack` is what the test of `f` against the visitors for cleanliness does for
them; `shouldHashCons` comes with `hashConsPointer`. -/
structure DfsOptions (w : ℕ) (σ : Type u) where
  f : σ → Header w → (current prev : ℕ) → σ × Bool
  onStack : Option (σ → σ)
  mode : MarkMode
  shouldHashCons : Option (σ → Heap w → ℕ → Bool → σ × ℕ)
  shouldLinkWeaks : Bool
  ignoreSharedHeap : Bool
  sizeEstimationForLifting : Bool

/-- `emptyForeachObjectFun` -/
def emptyForeachObjectFun (s : σ) (_header : Header w) (_current _prev : ℕ) : σ × Bool := (s, true)

namespace DfsMark

inductive Label (w : ℕ)
  | markNext (cur prev next : ℕ) (nextHeader : Header w) (todo : ℕ)
  | mark (cur prev : ℕ) (header : Header w)
  | markInNormal (cur prev : ℕ) (header : Header w) (objptrIndex todo : ℕ)
  | markNextInNormal (cur prev : ℕ) (header : Header w) (objptrIndex todo : ℕ)
  | normalDone (cur prev : ℕ)
  | markArrayElt (cur prev : ℕ) (header : Header w) (arrayIndex todo : ℕ)
  | markInArray (cur prev : ℕ) (header : Header w) (arrayIndex objptrIndex todo : ℕ)
  | markNextInArray (cur prev : ℕ) (header : Header w) (arrayIndex objptrIndex todo : ℕ)
  | arrayDone (cur prev : ℕ)
  | markInStack (cur prev top : ℕ)
  | markInFrame (cur prev top : ℕ) (frameLayout : FrameLayout) (objptrIndex : ℕ)
  | ret (cur prev : ℕ)
  | return

/-- `weaks` is `s->weaks`; `toContinue` keeps what the visitor has said last. -/
structure State (w : ℕ) (σ : Type u) where
  heap : Heap w
  weaks : ℕ
  aux : σ
  size : ℕ
  toContinue : Bool
  label : Label w

variable (g : Tables) (o : DfsOptions w σ)

/-- The pointers that are not followed. -/
def notFollowed (next : ℕ) : Bool :=
  !isPointer next || (o.ignoreSharedHeap && isPointerInSharedHeap g next)

/-- `shareObjptr (s, todo)` if `shouldHashCons`. -/
def shareObjptr (s : State w σ) (cur todo : ℕ) : State w σ :=
  match o.shouldHashCons with
  | none => s
  | some hashConsPointer =>
    { s with
      aux := (hashConsPointer s.aux s.heap ((s.heap cur).objptr todo) false).1
      heap := s.heap.storeObjptr cur todo
        (hashConsPointer s.aux s.heap ((s.heap cur).objptr todo) false).2 }

/-- `normalDone` and `arrayDone`: `hashConsPointer (s, cur, TRUE)` if `shouldHashCons`, and
`goto ret`. -/
def done (s : State w σ) (cur prev : ℕ) : State w σ :=
  match o.shouldHashCons with
  | none => { s with label := .ret cur prev }
  | some hashConsPointer =>
    { s with
      aux := (hashConsPointer s.aux s.heap cur true).1
      label := .ret (hashConsPointer s.aux s.heap cur true).2 prev }

/-- What is added to `size` when an object is marked. -/
def bytesMarked (ob : Obj w) (p : ℕ) (t : ObjectType) : ℕ :=
  match t.tag with
  | .normal =>
    if !o.sizeEstimationForLifting || !isPointerInSharedHeap g p then
      sizeofObject g.model (.normal t.bytesNonObjptrs t.numObjptrs)
    else 0
  | .weak => 0
  | .array =>
    if !o.sizeEstimationForLifting || !isPointerInSharedHeap g p then
      sizeofObject g.model (.array ob.arrayLength t.bytesNonObjptrs t.numObjptrs)
    else 0
  | .stack =>
    if !o.sizeEstimationForLifting || (!isPointerInSharedHeap g p && ob.isParasitic) then
      sizeofObject g.model (.stack ob.reserved [])
    else 0

/-- `w->link = s->weaks; s->weaks = w` for a weak object that has a target. -/
def linkWeak (s : State w σ) (cur : ℕ) : State w σ :=
  if o.shouldLinkWeaks && isPointer (s.heap cur).weakObjptr then
    { s with
      heap := s.heap.modify cur fun ob => { ob with weakLink := s.weaks }
      weaks := cur }
  else s

/-- The label after an object has been marked. -/
def afterMark (ob : Obj w) (cur prev : ℕ) (header : Header w) (toContinue : Bool) : Label w :=
  match (splitHeader g header).tag with
  | .normal =>
    if !toContinue then .ret cur prev
    else if (splitHeader g header).numObjptrs = 0 then .normalDone cur prev
    else .markInNormal cur prev header 0 (splitHeader g header).bytesNonObjptrs
  | .weak => .ret cur prev
  | .array =>
    if !toContinue then .ret cur prev
    else if (splitHeader g header).numObjptrs = 0 ∨ ob.arrayLength = 0 then .arrayDone cur prev
    else .markArrayElt cur prev header 0 0
  | .stack => .markInStack cur prev (g.model.stackStructSize + ob.used)

/-- What `ret` does when the stack is not empty: the slot through which `cur` was left is found
again, the stack is taken from it and the pointer put back. -/
def resume (s : State w σ) (next cur : ℕ) : State w σ :=
  let ob := s.heap cur
  let t := splitHeader g ob.header
  match t.tag with
  | .normal =>
    let objptrIndex := getCounter ob.header
    let todo := t.bytesNonObjptrs + objptrIndex * g.model.objptrSize
    { s with
      heap := s.heap.storeObjptr cur todo next
      label := .markNextInNormal cur (ob.objptr todo) ob.header objptrIndex todo }
  | .array =>
    let objptrIndex := getCounter ob.header
    let todo := ob.arrayCounter * (t.bytesNonObjptrs + t.numObjptrs * g.model.objptrSize)
      + (t.bytesNonObjptrs + objptrIndex * g.model.objptrSize)
    { s with
      heap := s.heap.storeObjptr cur todo next
      label := .markNextInArray cur (ob.objptr todo) ob.header ob.arrayCounter objptrIndex todo }
  | _ =>
    let top := ob.markTop
    let frameLayout := g.getFrameLayoutFromReturnAddress
      (ob.returnAddress (top - g.model.returnAddressSize))
    let todo := top - frameLayout.size + frameLayout.offsets.getD ob.markIndex 0
    { s with
      heap := s.heap.storeObjptr cur todo next
      label := .markInFrame cur (ob.objptr todo) top frameLayout (ob.markIndex + 1) }

def step (s : State w σ) : Option (State w σ) :=
  match s.label with
  | .markNext cur prev next nextHeader todo =>
    some { s with
      heap := s.heap.storeObjptr cur todo prev
      label := .mark next cur nextHeader }
  | .mark cur prev header =>
    -- f is applied before marking
    let visit := o.f s.aux (s.heap cur).header cur prev
    let header := header ^^^ MARK_MASK
    let s := { s with
      aux := visit.1
      toContinue := visit.2
      heap := s.heap.setHeader cur header
      size := s.size + bytesMarked g o (s.heap cur) cur (splitHeader g header)
      label := afterMark g (s.heap cur) cur prev header visit.2 }
    some (if (splitHeader g header).tag = .weak then linkWeak o s cur else s)
  | .markInNormal cur prev header objptrIndex todo =>
    let next := (s.heap cur).objptr todo
    if notFollowed g o next then
      some { s with label := .markNextInNormal cur prev header objptrIndex todo }
    else if o.mode.mark = (s.heap next).header &&& MARK_MASK then
      some { shareObjptr o s cur todo with
        label := .markNextInNormal cur prev header objptrIndex todo }
    else some { s with
      heap := s.heap.setHeader cur (setCounter header objptrIndex)
      label := .markNext cur prev next (s.heap next).header todo }
  | .markNextInNormal cur prev header objptrIndex todo =>
    if objptrIndex + 1 = (splitHeader g header).numObjptrs then
      -- Clear out the counters and return.
      some { s with
        heap := s.heap.setHeader cur (clearCounter header)
        label := .normalDone cur prev }
    else some { s with
      label := .markInNormal cur prev header (objptrIndex + 1) (todo + g.model.objptrSize) }
  | .normalDone cur prev => some (done o s cur prev)
  | .markArrayElt cur prev header arrayIndex todo =>
    -- Skip to the first pointer.
    some { s with
      label := .markInArray cur prev header arrayIndex 0
        (todo + (splitHeader g header).bytesNonObjptrs) }
  | .markInArray cur prev header arrayIndex objptrIndex todo =>
    let next := (s.heap cur).objptr todo
    if notFollowed g o next then
      some { s with label := .markNextInArray cur prev header arrayIndex objptrIndex todo }
    else if o.mode.mark = (s.heap next).header &&& MARK_MASK then
      some { shareObjptr o s cur todo with
        label := .markNextInArray cur prev header arrayIndex objptrIndex todo }
    else some { s with
      heap := (s.heap.modify cur fun ob => { ob with arrayCounter := arrayIndex }).setHeader cur
        (setCounter header objptrIndex)
      label := .markNext cur prev next (s.heap next).header todo }
  | .markNextInArray cur prev header arrayIndex objptrIndex todo =>
    if objptrIndex + 1 < (splitHeader g header).numObjptrs then
      some { s with
        label := .markInArray cur prev header arrayIndex (objptrIndex + 1)
          (todo + g.model.objptrSize) }
    else if arrayIndex + 1 < (s.heap cur).arrayLength then
      some { s with
        label := .markArrayElt cur prev header (arrayIndex + 1) (todo + g.model.objptrSize) }
    else some { s with
      heap := (s.heap.modify cur fun ob => { ob with arrayCounter := 0 }).setHeader cur
        (clearCounter header)
      label := .arrayDone cur prev }
  | .arrayDone cur prev => some (done o s cur prev)
  | .markInStack cur prev top =>
    if !s.toContinue then some { s with label := .ret cur prev }
    else if top = g.model.stackStructSize then some { s with label := .ret cur prev }
    else match o.onStack with
      | some onStack => some { s with aux := onStack s.aux, label := .ret cur prev }
      | none => some { s with
          heap := s.heap.modify cur fun ob => { ob with markTop := top }
          label := .markInFrame cur prev top (g.getFrameLayoutFromReturnAddress
            ((s.heap cur).returnAddress (top - g.model.returnAddressSize))) 0 }
  | .markInFrame cur prev top frameLayout objptrIndex =>
    if objptrIndex = frameLayout.offsets.length then
      some { s with label := .markInStack cur prev (top - frameLayout.size) }
    else
      let todo := top - frameLayout.size + frameLayout.offsets.getD objptrIndex 0
      let next := (s.heap cur).objptr todo
      if notFollowed g o next
          || (o.sizeEstimationForLifting && !(s.heap cur).isParasitic) then
        some { s with label := .markInFrame cur prev top frameLayout (objptrIndex + 1) }
      else if o.mode.mark = (s.heap next).header &&& MARK_MASK then
        some { shareObjptr o s cur todo with
          label := .markInFrame cur prev top frameLayout (objptrIndex + 1) }
      else some { s with
        heap := s.heap.modify cur fun ob => { ob with markIndex := objptrIndex }
        label := .markNext cur prev next (s.heap next).header todo }
  | .ret cur prev =>
    -- `NULL` is the empty stack.
    if prev = 0 then some { s with label := .return } else some (resume g s cur prev)
  | .return => none

/-- The steps until `return`, of which there are at most `fuel`. -/
def run : ℕ → State w σ → Option (State w σ)
  | 0, _ => none
  | fuel + 1, s => match step g o s with
    | none => some s
    | some s' => run fuel s'

end DfsMark

/-- What `dfsMarkByMode` leaves and returns. -/
structure DfsResult (w : ℕ) (σ : Type u) where
  heap : Heap w
  weaks : ℕ
  aux : σ
  size : ℕ

/-- `dfsMarkByMode`, in a heap without forwarded objects. -/
def dfsMarkByMode (g : Tables) (o : DfsOptions w σ) (fuel : ℕ) (h : Heap w) (weaks : ℕ) (x : σ)
    (root : ℕ) : Option (DfsResult w σ) :=
  if isPointerMarkedByMode (h root).header o.mode then some ⟨h, weaks, x, 0⟩
  else if o.ignoreSharedHeap && isPointerInSharedHeap g root then some ⟨h, weaks, x, 0⟩
  else (DfsMark.run g o fuel ⟨h, weaks, x, 0, true, .mark root 0 (h root).header⟩).map
    fun s => ⟨s.heap, s.weaks, s.aux, s.size⟩

end MultiMLton.GC
