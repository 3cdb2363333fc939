import Mathlib
import MultiMLton.Lib.PointerReversal
import MultiMLton.Runtime.DfsMark

/-!
# Marking as a search

`dfsMarkByMode` does what the search with the stack in the nodes does.  A node is an object, its slots
are the object pointers in the order in which the code comes to them, and the number of the slot
through which a node has been left is what the counters or the stack fields say.
-/

namespace MultiMLton.GC

open List BitVec Function Finset Nat

universe u

variable {w : ℕ} {σ : Type u}

/-! ### Slots -/

/-- The frames of a stack below `top`, by the return addresses. -/
def framesBelow (g : Tables) (ob : Obj w) : ℕ → ℕ → List FrameLayout
  | 0, _ => []
  | fuel + 1, top =>
    if top = g.model.stackStructSize then []
    else
      let frameLayout := g.getFrameLayoutFromReturnAddress
        (ob.returnAddress (top - g.model.returnAddressSize))
      frameLayout :: framesBelow g ob fuel (top - frameLayout.size)

/-- The frames of a stack reach its bottom, and their pointers lie in them. -/
inductive Frames (g : Tables) (ob : Obj w) : ℕ → List FrameLayout → Prop
  | bottom : Frames g ob g.model.stackStructSize []
  | frame {top : ℕ} {frameLayout : FrameLayout} {frames : List FrameLayout}
      (layout : g.getFrameLayoutFromReturnAddress
        (ob.returnAddress (top - g.model.returnAddressSize)) = frameLayout)
      (pos : 0 < frameLayout.size) (le : g.model.stackStructSize + frameLayout.size ≤ top)
      (lt : ∀ x ∈ frameLayout.offsets, x < frameLayout.size) (nodup : frameLayout.offsets.Nodup)
      (below : Frames g ob (top - frameLayout.size) frames) :
      Frames g ob top (frameLayout :: frames)

/-- The offset of the `j`-th object pointer of an array. -/
def arrayOffset (m : Model) (t : ObjectType) (j : ℕ) : ℕ :=
  j / t.numObjptrs * (t.bytesNonObjptrs + t.numObjptrs * m.objptrSize)
    + (t.bytesNonObjptrs + j % t.numObjptrs * m.objptrSize)

/-- The offsets of the object pointers of an object, as marking comes to them. -/
def slots (g : Tables) (ob : Obj w) : List ℕ :=
  let t := splitHeader g ob.header
  match t.tag with
  | .normal => objptrRange g.model t.bytesNonObjptrs t.numObjptrs
  | .array => (List.range (ob.arrayLength * t.numObjptrs)).map (arrayOffset g.model t)
  | .stack => frameSlots (g.model.stackStructSize + ob.used)
      (framesBelow g ob ob.used (g.model.stackStructSize + ob.used))
  | .weak => []

theorem Model.objptrSize_pos (m : Model) : 0 < m.objptrSize := by
  rcases m.objptrSize_eq with h | h <;> omega

variable {frames : List FrameLayout} {ob : Obj w} {g : Tables}

theorem Frames.eq_framesBelow {top : ℕ}
    (h : Frames g ob top frames) {fuel : ℕ} (hfuel : top ≤ g.model.stackStructSize + fuel) :
    framesBelow g ob fuel top = frames := by
  induction h generalizing fuel with
  | bottom => cases fuel <;> simp [framesBelow]
  | @frame top frameLayout frames layout pos le lt nodup below ih =>
    cases fuel with
    | zero => omega
    | succ fuel =>
      have hne : top ≠ g.model.stackStructSize := by omega
      have hrest : framesBelow g ob fuel (top - frameLayout.size) = frames := ih (by omega)
      simp only [framesBelow, if_neg hne, layout, hrest]

theorem Frames.slots_lt {top : ℕ}
    (h : Frames g ob top frames) : ∀ x ∈ frameSlots top frames, x < top := by
  induction h with
  | bottom => simp [frameSlots]
  | frame layout pos le lt nodup below ih =>
    intro x hx
    rcases mem_append.1 hx with hx | hx
    · obtain ⟨y, hy, rfl⟩ := mem_map.1 hx
      have := lt y hy
      omega
    · have := ih x hx
      omega

theorem Frames.nodup_slots {top : ℕ}
    (h : Frames g ob top frames) : (frameSlots top frames).Nodup := by
  induction h with
  | bottom => simp [frameSlots]
  | frame layout pos le lt nodup below ih =>
    refine nodup_append.2 ⟨nodup.map fun x y hxy => by simpa using hxy, ih, ?_⟩
    intro x hx y hy hxy
    obtain ⟨z, hz, rfl⟩ := mem_map.1 hx
    have := below.slots_lt y hy
    omega

variable {ob₀ ob : Obj w}

theorem framesBelow_congr (hreturn : ob.returnAddress = ob₀.returnAddress)
    (fuel top : ℕ) : framesBelow g ob fuel top = framesBelow g ob₀ fuel top := by
  induction fuel generalizing top with
  | zero => rfl
  | succ fuel ih => simp only [framesBelow, hreturn, ih]

theorem Frames.congr (hreturn : ob.returnAddress = ob₀.returnAddress) {top : ℕ}
    (hframes : Frames g ob₀ top frames) : Frames g ob top frames := by
  induction hframes with
  | bottom => exact .bottom
  | frame layout pos le lt nodup _ ih => exact .frame (by rwa [hreturn]) pos le lt nodup ih

/-- What marking assumes of an object: no counter is set and they are large enough, and a stack is a
sequence of frames. -/
structure Obj.WellFormed (g : Tables) (ob : Obj w) : Prop where
  counter : getCounter ob.header = 0
  arrayCounter : (splitHeader g ob.header).tag = .array → ob.arrayCounter = 0
  numObjptrs : (splitHeader g ob.header).tag = .normal ∨ (splitHeader g ob.header).tag = .array →
    (splitHeader g ob.header).numObjptrs ≤ 2 ^ 11
  frames : (splitHeader g ob.header).tag = .stack →
    ∃ frames, Frames g ob (g.model.stackStructSize + ob.used) frames

/-- Two objects with the same layout: the same type, length and frames. -/
structure SameLayout (g : Tables) (ob₀ ob : Obj w) : Prop where
  splitHeader : splitHeader g ob.header = splitHeader g ob₀.header
  arrayLength : ob.arrayLength = ob₀.arrayLength
  used : ob.used = ob₀.used
  returnAddress : ob.returnAddress = ob₀.returnAddress

theorem SameLayout.slots (h : SameLayout g ob₀ ob) : slots g ob = slots g ob₀ := by
  simp only [GC.slots, h.splitHeader, h.arrayLength, h.used, framesBelow_congr h.returnAddress]

theorem SameLayout.wellFormed (h : SameLayout g ob₀ ob)
    (hcounter : getCounter ob.header = 0) (harray : ob.arrayCounter = ob₀.arrayCounter)
    (hwf : ob₀.WellFormed g) : ob.WellFormed g := by
  refine ⟨hcounter, fun ht => ?_, fun ht => ?_, fun ht => ?_⟩
  · rw [h.splitHeader] at ht
    rw [harray, hwf.arrayCounter ht]
  · rw [h.splitHeader] at ht ⊢
    exact hwf.numObjptrs ht
  · rw [h.splitHeader] at ht
    obtain ⟨frames, hframes⟩ := hwf.frames ht
    refine ⟨frames, ?_⟩
    rw [h.used]
    exact hframes.congr h.returnAddress

section

variable {g : Tables} {ob : Obj w}

theorem slots_normal (ht : (splitHeader g ob.header).tag = .normal) : slots g ob =
    (List.range (splitHeader g ob.header).numObjptrs).map fun j =>
      (splitHeader g ob.header).bytesNonObjptrs + j * g.model.objptrSize := by
  simp only [slots, ht, objptrRange]

theorem slots_array (ht : (splitHeader g ob.header).tag = .array) : slots g ob =
    (List.range (ob.arrayLength * (splitHeader g ob.header).numObjptrs)).map
      (arrayOffset g.model (splitHeader g ob.header)) := by
  simp only [slots, ht]

theorem slots_stack (ht : (splitHeader g ob.header).tag = .stack)
    (h : Frames g ob (g.model.stackStructSize + ob.used) frames) :
    slots g ob = frameSlots (g.model.stackStructSize + ob.used) frames := by
  simp only [slots, ht, h.eq_framesBelow le_rfl]

theorem slots_weak (ht : (splitHeader g ob.header).tag = .weak) : slots g ob = [] := by
  simp only [slots, ht]

/-- A number has one quotient and one remainder. -/
theorem div_mod_unique {e a a' r r' : ℕ} (hr : r < e) (hr' : r' < e)
    (h : a * e + r = a' * e + r') : a = a' ∧ r = r' := by
  have he : 0 < e := by omega
  have hdiv := congrArg (· / e) h
  have hmod := congrArg (· % e) h
  simp only [mul_comm _ e, mul_add_div he, div_eq_of_lt hr, div_eq_of_lt hr',
    add_zero] at hdiv
  simp only [mul_comm _ e, mul_add_mod, mod_eq_of_lt hr, mod_eq_of_lt hr'] at hmod
  exact ⟨hdiv, hmod⟩

theorem arrayOffset_injective (m : Model) {t : ObjectType} (hn : 0 < t.numObjptrs) :
    Function.Injective (arrayOffset m t) := by
  intro i j hij
  have hsize := m.objptrSize_pos
  have helt (k : ℕ) : k % t.numObjptrs * m.objptrSize <
      t.bytesNonObjptrs + t.numObjptrs * m.objptrSize :=
    Nat.lt_add_left _ (Nat.mul_lt_mul_of_pos_right (Nat.mod_lt k hn) hsize)
  have heq : i / t.numObjptrs * (t.bytesNonObjptrs + t.numObjptrs * m.objptrSize)
        + i % t.numObjptrs * m.objptrSize =
      j / t.numObjptrs * (t.bytesNonObjptrs + t.numObjptrs * m.objptrSize)
        + j % t.numObjptrs * m.objptrSize := by
    simp only [arrayOffset] at hij
    omega
  obtain ⟨hdiv, hmod⟩ := div_mod_unique (helt i) (helt j) heq
  have hmod := eq_of_mul_eq_mul_right hsize hmod
  rw [← div_add_mod i t.numObjptrs, ← div_add_mod j t.numObjptrs, hdiv, hmod]

/-- Quotient and remainder of the successor. -/
theorem succ_div_mod {n j : ℕ} (hn : 0 < n) :
    (j % n + 1 < n → (j + 1) / n = j / n ∧ (j + 1) % n = j % n + 1) ∧
      (j % n + 1 = n → (j + 1) / n = j / n + 1 ∧ (j + 1) % n = 0) := by
  have hj := div_add_mod j n
  constructor
  · intro hlt
    exact (Nat.div_mod_unique hn).2 ⟨by omega, hlt⟩
  · intro heq
    refine (Nat.div_mod_unique hn).2 ⟨?_, hn⟩
    rw [Nat.mul_add]
    omega

/-- The next object pointer of the same element. -/
theorem arrayOffset_succ (m : Model) {t : ObjectType} {j : ℕ}
    (hj : j % t.numObjptrs + 1 < t.numObjptrs) :
    arrayOffset m t (j + 1) = arrayOffset m t j + m.objptrSize := by
  obtain ⟨hdiv, hmod⟩ := (succ_div_mod (by omega : 0 < t.numObjptrs)).1 hj
  rw [arrayOffset, arrayOffset, hdiv, hmod]
  ring

/-- The first object pointer of the next element. -/
theorem arrayOffset_succ_of_eq (m : Model) {t : ObjectType} {j : ℕ}
    (hj : j % t.numObjptrs + 1 = t.numObjptrs) :
    arrayOffset m t (j + 1) = arrayOffset m t j + m.objptrSize + t.bytesNonObjptrs := by
  obtain ⟨hdiv, hmod⟩ := (succ_div_mod (by omega : 0 < t.numObjptrs)).2 hj
  have hlast : t.numObjptrs * m.objptrSize =
      j % t.numObjptrs * m.objptrSize + m.objptrSize := by
    rw [← Nat.succ_mul, Nat.succ_eq_add_one, hj]
  rw [arrayOffset, arrayOffset, hdiv, hmod, Nat.add_mul, hlast]
  ring

theorem nodup_slots (h : ob.WellFormed g) : (slots g ob).Nodup := by
  have hsize := g.model.objptrSize_pos
  cases ht : (splitHeader g ob.header).tag with
  | normal =>
    rw [slots_normal ht]
    refine nodup_range.map fun i j hij => ?_
    simpa [hsize.ne'] using hij
  | array =>
    rw [slots_array ht]
    rcases Nat.eq_zero_or_pos (splitHeader g ob.header).numObjptrs with hn | hn
    · simp [hn]
    · exact nodup_range.map (arrayOffset_injective g.model hn)
  | stack =>
    obtain ⟨frames, hframes⟩ := h.frames ht
    rw [slots_stack ht hframes]
    exact hframes.nodup_slots
  | weak =>
    rw [slots_weak ht]
    exact nodup_nil

end

namespace DfsMark

/-! ### The search -/

/-- Addresses of objects.  `NULL` is the empty stack. -/
abbrev Node : Type := {p : ℕ // p ≠ 0}

variable (g : Tables) (o : DfsOptions w σ) (h₀ : Heap w)

/-- The contents of slots that are followed. -/
def follows (ob : Obj w) (v : ℕ) : Bool :=
  !(notFollowed g o v || (o.sizeEstimationForLifting
    && decide ((splitHeader g ob.header).tag = .stack) && !ob.isParasitic))

/-- The heap `h₀` as a graph. -/
def graph : PointerReversal.Graph Node ℕ where
  arity n := (slots g (h₀ n)).length
  follow n v := if hv : v ≠ 0 then if follows g o (h₀ n) v then some ⟨v, hv⟩ else none else none
  link p := p.elim 0 Subtype.val
  unlink v := if hv : v ≠ 0 then some ⟨v, hv⟩ else none
  unlink_link p := by
    cases p with
    | none => rfl
    | some p => exact dif_pos p.2
  eq_link n v p h := by
    split_ifs at h
    cases h
    rfl

/-- The visitor of an object, and the test of `f` at a stack that is not empty. -/
def visitor (x : σ) (n : Node) : σ × Bool :=
  let visit := o.f x (h₀ n).header n 0
  match o.onStack with
  | none => visit
  | some onStack =>
    if visit.2 && decide ((splitHeader g (h₀ n).header).tag = .stack) && (h₀ n).used != 0 then
      (onStack visit.1, false)
    else visit

/-- The mark bit of an object that is marked in the sense of the mode, or not. -/
def markBit (mode : MarkMode) (marked : Bool) : Bool :=
  match mode with
  | .MARK_MODE => marked
  | .UNMARK_MODE => !marked

/-! ### Heaps -/

/-- The heap in which the search begins. -/
def heapOf : PointerReversal.Heap Node ℕ where
  slot n j := (slots g (h₀ n))[j]?.elim 0 (h₀ n).objptr
  marked n := isPointerMarkedByMode (h₀ n).header o.mode
  pos _ := none

/-- The fields that marking does not write. -/
structure SameFields (ob₀ ob : Obj w) : Prop where
  arrayLength : ob.arrayLength = ob₀.arrayLength
  returnAddress : ob.returnAddress = ob₀.returnAddress
  reserved : ob.reserved = ob₀.reserved
  used : ob.used = ob₀.used
  thread : ob.thread = ob₀.thread
  isParasitic : ob.isParasitic = ob₀.isParasitic
  weakObjptr : ob.weakObjptr = ob₀.weakObjptr

theorem SameFields.refl (ob : Obj w) : SameFields ob ob := ⟨rfl, rfl, rfl, rfl, rfl, rfl, rfl⟩

theorem SameFields.trans {ob ob' ob'' : Obj w} (h : SameFields ob ob') (h' : SameFields ob' ob'') :
    SameFields ob ob'' where
  arrayLength := h'.arrayLength.trans h.arrayLength
  returnAddress := h'.returnAddress.trans h.returnAddress
  reserved := h'.reserved.trans h.reserved
  used := h'.used.trans h.used
  thread := h'.thread.trans h.thread
  isParasitic := h'.isParasitic.trans h.isParasitic
  weakObjptr := h'.weakObjptr.trans h.weakObjptr

/-- An object during the search, up to the counters. -/
structure ObjRel (mode : MarkMode) (ob₀ : Obj w) (slot : ℕ → ℕ) (marked : Bool) (ob : Obj w) :
    Prop where
  same : SameFields ob₀ ob
  header : ∃ c < 2 ^ 11, ob.header = setMark ob₀.header (markBit mode marked) c
  objptr : ∀ j off, (slots g ob₀)[j]? = some off → ob.objptr off = slot j
  others : ∀ off, off ∉ slots g ob₀ → ob.objptr off = ob₀.objptr off
  arrayCounter : (splitHeader g ob₀.header).tag ≠ .array → ob.arrayCounter = ob₀.arrayCounter

/-- The `j`-th pointer of a stack is the pointer `objptrIndex` of the frame below `top`. -/
def InFrame (ob₀ : Obj w) (top : ℕ) (frameLayout : FrameLayout) (objptrIndex j : ℕ) : Prop :=
  ∃ frames before, Frames g ob₀ top (frameLayout :: frames) ∧
    slots g ob₀ = before ++ frameSlots top (frameLayout :: frames) ∧
    objptrIndex ≤ frameLayout.offsets.length ∧ j = before.length + objptrIndex

/-- The `j`-th pointer of a stack is the first one below `top`. -/
def AtFrame (ob₀ : Obj w) (top j : ℕ) : Prop :=
  ∃ frames before, Frames g ob₀ top frames ∧ slots g ob₀ = before ++ frameSlots top frames ∧
    j = before.length

/-- The counters and the stack fields say through which slot an object has been left. -/
def Parked (ob₀ ob : Obj w) : Option ℕ → Prop
  | none => getCounter ob.header = 0 ∧ ob.arrayCounter = ob₀.arrayCounter
  | some j => match (splitHeader g ob₀.header).tag with
    | .normal => getCounter ob.header = j ∧ ob.arrayCounter = ob₀.arrayCounter
    | .array => getCounter ob.header = j % (splitHeader g ob₀.header).numObjptrs ∧
        ob.arrayCounter = j / (splitHeader g ob₀.header).numObjptrs
    | .stack => getCounter ob.header = 0 ∧ ob.arrayCounter = ob₀.arrayCounter ∧
        ∃ frameLayout, InFrame g ob₀ ob.markTop frameLayout ob.markIndex j ∧
          ob.markIndex < frameLayout.offsets.length
    | .weak => False

/-- The heap of the code and the heap of the search.  The counters of the object that is being
scanned may be those of an earlier slot. -/
structure HeapRel (mode : MarkMode) (S : Finset ℕ) (a : PointerReversal.Heap Node ℕ) (h : Heap w)
    (scanned : Option Node) : Prop where
  obj : ∀ n : Node, n.1 ∈ S → ObjRel g mode (h₀ n) (a.slot n) (a.marked n) (h n)
  parked : ∀ n : Node, n.1 ∈ S → scanned ≠ some n → Parked g (h₀ n) (h n) (a.pos n)
  outside : ∀ p, p ∉ S → h p = h₀ p

/-! ### States -/

/-- Where the code is when the search is at the `j`-th slot of `cur`. -/
inductive Visiting (S : Finset ℕ) (a : PointerReversal.Heap Node ℕ) (cur : Node)
    (prev : Option Node) (j : ℕ) (s : State w σ) : Prop
  | inNormal (header : Header w) (tag : (splitHeader g (h₀ cur).header).tag = .normal)
      (lt : j < (splitHeader g (h₀ cur).header).numObjptrs)
      (heap : HeapRel g h₀ o.mode S a s.heap (some cur))
      (marked : ∃ c < 2 ^ 11, header = setMark (h₀ cur).header (markBit o.mode true) c)
      (label : s.label = .markInNormal cur ((graph g o h₀).link prev) header j
        ((splitHeader g (h₀ cur).header).bytesNonObjptrs + j * g.model.objptrSize))
  | normalDone (tag : (splitHeader g (h₀ cur).header).tag = .normal)
      (eq : j = (splitHeader g (h₀ cur).header).numObjptrs)
      (heap : HeapRel g h₀ o.mode S a s.heap none)
      (label : s.label = .normalDone cur ((graph g o h₀).link prev))
  | inArray (header : Header w) (tag : (splitHeader g (h₀ cur).header).tag = .array)
      (off : ℕ) (slot : (slots g (h₀ cur))[j]? = some off)
      (heap : HeapRel g h₀ o.mode S a s.heap (some cur))
      (marked : ∃ c < 2 ^ 11, header = setMark (h₀ cur).header (markBit o.mode true) c)
      (label : s.label = .markInArray cur ((graph g o h₀).link prev) header
        (j / (splitHeader g (h₀ cur).header).numObjptrs)
        (j % (splitHeader g (h₀ cur).header).numObjptrs) off)
  | arrayDone (tag : (splitHeader g (h₀ cur).header).tag = .array)
      (eq : j = (slots g (h₀ cur)).length)
      (heap : HeapRel g h₀ o.mode S a s.heap none)
      (label : s.label = .arrayDone cur ((graph g o h₀).link prev))
  | weak (tag : (splitHeader g (h₀ cur).header).tag = .weak)
      (heap : HeapRel g h₀ o.mode S a s.heap none)
      (label : s.label = .ret cur ((graph g o h₀).link prev))
  | inFrame (top : ℕ) (frameLayout : FrameLayout) (objptrIndex : ℕ)
      (tag : (splitHeader g (h₀ cur).header).tag = .stack)
      (heap : HeapRel g h₀ o.mode S a s.heap none) (markTop : (s.heap cur).markTop = top)
      (onStack : o.onStack = none)
      (frame : InFrame g (h₀ cur) top frameLayout objptrIndex j)
      (label : s.label = .markInFrame cur ((graph g o h₀).link prev) top frameLayout objptrIndex)
  | inStack (top : ℕ) (tag : (splitHeader g (h₀ cur).header).tag = .stack)
      (heap : HeapRel g h₀ o.mode S a s.heap none) (toContinue : s.toContinue = true)
      (onStack : o.onStack = none ∨ top = g.model.stackStructSize)
      (frame : AtFrame g (h₀ cur) top j)
      (label : s.label = .markInStack cur ((graph g o h₀).link prev) top)

/-- The labels of the search and of the code. -/
def LabelRel (S : Finset ℕ) (a : PointerReversal.State Node ℕ σ) (s : State w σ) : Prop :=
  match a.label with
  | .mark cur prev => HeapRel g h₀ o.mode S a.heap s.heap none ∧
      s.label = .mark cur ((graph g o h₀).link prev) (s.heap cur).header
  | .visit cur prev j => Visiting g o h₀ S a.heap cur prev j s
  | .ret cur prev => HeapRel g h₀ o.mode S a.heap s.heap none ∧
      s.label = .ret cur ((graph g o h₀).link prev)

/-- The bytes counted for the objects of a list. -/
def bytesOf (l : List (Node × Bool)) : ℕ :=
  (l.map fun n => bytesMarked g o (h₀ n.1) n.1 (splitHeader g (h₀ n.1).header)).sum

structure StateRel (S : Finset ℕ) (a : PointerReversal.State Node ℕ σ) (s : State w σ) : Prop where
  aux : s.aux = a.aux
  size : s.size = bytesOf g o h₀ a.log
  toContinue : o.onStack = none → s.toContinue = true
  entered : ∀ n j, a.heap.pos n = some j → (splitHeader g (h₀ n).header).tag = .stack →
    o.onStack = none
  label : LabelRel g o h₀ S a s

/-- Steps of the code. -/
def Steps : State w σ → State w σ → Prop := Relation.ReflTransGen fun s s' => step g o s = some s'

/-- What the caller of `dfsMarkByMode` provides: a finite set of objects that is closed under the
pointers that are followed, well-formed objects, and a visitor that does not look at the stack and
goes on into frames. -/
structure Setting (S : Finset ℕ) : Prop where
  width : 32 ≤ w
  nonzero : 0 ∉ S
  closed : ∀ p ∈ S, ∀ off ∈ slots g (h₀ p), follows g o (h₀ p) ((h₀ p).objptr off) = true →
    (h₀ p).objptr off ∈ S
  wellFormed : ∀ p ∈ S, (h₀ p).WellFormed g
  visitor : ∀ x header p prev prev', o.f x header p prev = o.f x header p prev'
  continues : o.onStack = none → ∀ x header p prev, (o.f x header p prev).2 = true
  noHashCons : o.shouldHashCons = none

/-- What the search needs of the objects it goes into.  Their pointers may lead to other objects. -/
structure Scope (S : Finset ℕ) : Prop where
  width : 32 ≤ w
  nonnull : ∀ p ∈ S, ∀ off ∈ slots g (h₀ p), follows g o (h₀ p) ((h₀ p).objptr off) = true →
    (h₀ p).objptr off ≠ 0
  wellFormed : ∀ p ∈ S, (h₀ p).WellFormed g
  visitor : ∀ x header p prev prev', o.f x header p prev = o.f x header p prev'
  continues : o.onStack = none → ∀ x header p prev, (o.f x header p prev).2 = true
  noHashCons : o.shouldHashCons = none

variable {g o h₀} {S : Finset ℕ} {a a' : PointerReversal.Heap Node ℕ} {h : Heap w}
  {scanned scanned' : Option Node} {cur : Node}

/-! ### Headers -/

theorem mark_eq_iff (hw : 32 ≤ w) (mode : MarkMode) (header : Header w) :
    mode.mark = header &&& MARK_MASK ↔ isPointerMarkedByMode header mode = true := by
  have hzero : MARK_MASK &&& header = 0#w ↔ isMarked header = false := by simp [isMarked]
  have hmask : (MARK_MASK : Header w) ≠ 0#w := by
    have hmarked : isMarked (MARK_MASK : Header w) = true := by
      have hlt : 31 < w := hw
      rw [isMarked_eq, getLsbD_MARK_MASK]
      simp [hlt]
    intro hmask
    rw [isMarked, hmask] at hmarked
    simp at hmarked
  cases mode with
  | UNMARK_MODE =>
    rw [BitVec.and_comm, MarkMode.mark, eq_comm, hzero]
    simp [isPointerMarkedByMode]
  | MARK_MODE =>
    rw [BitVec.and_comm, MarkMode.mark]
    show _ ↔ isMarked header = true
    constructor
    · intro heq
      cases hm : isMarked header with
      | true => rfl
      | false => exact absurd (heq.trans (hzero.2 hm)) hmask
    · intro hm
      refine eq_of_getLsbD_eq fun i _ => ?_
      rw [getLsbD_and, getLsbD_MARK_MASK]
      by_cases hi : i = 31
      · subst hi
        rw [← isMarked_eq, hm, Bool.and_true]
      · simp [hi]

theorem isPointerMarkedByMode_setMark (hw : 32 ≤ w) (header : Header w) (mode : MarkMode) (m : Bool)
    {c : ℕ} (hc : c < 2 ^ 11) :
    isPointerMarkedByMode (setMark header (markBit mode m) c) mode = m := by
  cases mode with
  | MARK_MODE => exact isMarked_setMark header m hw hc
  | UNMARK_MODE =>
    show (!isMarked (setMark header (!m) c)) = m
    rw [isMarked_setMark header _ hw hc, Bool.not_not]

theorem splitHeader_setMark (header : Header w) (m : Bool) {c : ℕ} (hc : c < 2 ^ 11) :
    splitHeader g (setMark header m c) = splitHeader g header := by
  rw [splitHeader, typeIndex_setMark header m hc, splitHeader]

/-! ### Updates of one object -/

variable {mode : MarkMode}

theorem HeapRel.update (hrel : HeapRel g h₀ mode S a h scanned) (hcur : cur.1 ∈ S)
    (hagree : ∀ n, n ≠ cur → a'.slot n = a.slot n ∧ a'.marked n = a.marked n ∧ a'.pos n = a.pos n)
    (hscan : ∀ n, n ≠ cur → scanned' ≠ some n → scanned ≠ some n)
    (hobj : ObjRel g mode (h₀ cur) (a'.slot cur) (a'.marked cur) ob)
    (hparked : scanned' ≠ some cur → Parked g (h₀ cur) ob (a'.pos cur)) :
    HeapRel g h₀ mode S a' (Function.update h cur.1 ob) scanned' := by
  have hne {n : Node} (hn : n ≠ cur) : Function.update h cur.1 ob n.1 = h n.1 :=
    update_of_ne (fun heq => hn (Subtype.ext heq)) _ _
  constructor
  · intro n hn
    by_cases hnc : n = cur
    · subst hnc
      rwa [update_self]
    · obtain ⟨hslot, hmarked, -⟩ := hagree n hnc
      rw [hne hnc, hslot, hmarked]
      exact hrel.obj n hn
  · intro n hn hscanned
    by_cases hnc : n = cur
    · subst hnc
      rw [update_self]
      exact hparked hscanned
    · rw [hne hnc, (hagree n hnc).2.2]
      exact hrel.parked n hn (hscan n hnc hscanned)
  · intro p hp
    have hpc : p ≠ cur.1 := fun heq => hp (heq ▸ hcur)
    rw [update_of_ne hpc]
    exact hrel.outside p hp

/-- The counters of an object may be forgotten while it is scanned. -/
theorem HeapRel.scan (hrel : HeapRel g h₀ mode S a h none) (n : Node) :
    HeapRel g h₀ mode S a h (some n) :=
  { hrel with parked := fun k hk _ => hrel.parked k hk nofun }

variable {j off : ℕ}

theorem heapOf_slot {n : Node} (hoff : (slots g (h₀ n))[j]? = some off) :
    (heapOf g o h₀).slot n j = (h₀ n).objptr off := by
  simp [heapOf, hoff]

theorem Setting.scope (hset : Setting g o h₀ S) : Scope g o h₀ S where
  width := hset.width
  nonnull p hp off hoff hfollows heq :=
    hset.nonzero (heq ▸ hset.closed p hp off hoff hfollows)
  wellFormed := hset.wellFormed
  visitor := hset.visitor
  continues := hset.continues
  noHashCons := hset.noHashCons

/-- The objects of a setting are closed under the edges of the search. -/
theorem Setting.edge (hset : Setting g o h₀ S) (n : Node) (hn : n.1 ∈ S) (b : Node)
    (hedge : PointerReversal.Edge (graph g o h₀) (heapOf g o h₀) n b) : b.1 ∈ S := by
  obtain ⟨j, -, hj, hfollow⟩ := hedge
  have hoff : (slots g (h₀ n))[j]? = some (slots g (h₀ n))[j] := List.getElem?_eq_getElem hj
  rw [heapOf_slot hoff] at hfollow
  simp only [graph] at hfollow
  split_ifs at hfollow with hne hfollows
  cases hfollow
  exact hset.closed n hn _ (getElem_mem hj) hfollows

/-- The mark of an object.  Outside `S` it is what it was. -/
theorem HeapRel.marked (hset : Scope g o h₀ S) (hrel : HeapRel g h₀ o.mode S a h scanned)
    (houtside : ∀ n : Node, n.1 ∉ S → a.marked n = (heapOf g o h₀).marked n) (n : Node) :
    o.mode.mark = (h n).header &&& MARK_MASK ↔ a.marked n = true := by
  by_cases hn : n.1 ∈ S
  · obtain ⟨c, hc, hheader⟩ := (hrel.obj n hn).header
    rw [mark_eq_iff hset.width, hheader, isPointerMarkedByMode_setMark hset.width _ _ _ hc]
  · rw [mark_eq_iff hset.width, hrel.outside n hn, houtside n hn]
    exact Iff.rfl

/-! ### Marking an object -/

theorem isMarked_of_unmarked
    (hmono : (heapOf g o h₀).marked cur = true → a.marked cur = true) (hm : a.marked cur = false) :
    isMarked (h₀ cur).header = markBit o.mode false := by
  have hunmarked : isPointerMarkedByMode (h₀ cur).header o.mode = false := by
    cases hmark : isPointerMarkedByMode (h₀ cur).header o.mode with
    | false => rfl
    | true => simp [hmono hmark] at hm
  cases hmode : o.mode <;> simpa [hmode, markBit, isPointerMarkedByMode] using hunmarked

/-- An unmarked object still has its header. -/
theorem HeapRel.header_unmarked (hset : Scope g o h₀ S)
    (hrel : HeapRel g h₀ o.mode S a h none) (hcur : cur.1 ∈ S) (hpos : a.pos cur = none)
    (hmono : (heapOf g o h₀).marked cur = true → a.marked cur = true) (hm : a.marked cur = false) :
    (h cur).header = (h₀ cur).header := by
  obtain ⟨c, hc, hheader⟩ := (hrel.obj cur hcur).header
  have hparked := hrel.parked cur hcur nofun
  rw [hpos] at hparked
  have hzero : c = 0 := by
    rw [← getCounter_setMark (h₀ cur).header (markBit o.mode (a.marked cur)) hset.width hc,
      ← hheader]
    exact hparked.1
  rw [hheader, hzero, hm, ← isMarked_of_unmarked hmono hm,
    setMark_self _ (hset.wellFormed cur hcur).counter]

theorem xor_MARK_MASK (hset : Scope g o h₀ S) (hcur : cur.1 ∈ S)
    (hmono : (heapOf g o h₀).marked cur = true → a.marked cur = true) (hm : a.marked cur = false) :
    (h₀ cur).header ^^^ MARK_MASK = GC.setMark (h₀ cur).header (markBit o.mode true) 0 := by
  have hself := setMark_self _ (hset.wellFormed cur hcur).counter
  conv_lhs => rw [← hself]
  rw [xor_setMark _ _ (by decide), isMarked_of_unmarked hmono hm]
  cases o.mode <;> rfl

theorem HeapRel.setMark (hset : Scope g o h₀ S)
    (hrel : HeapRel g h₀ o.mode S a h none) (hcur : cur.1 ∈ S) (hpos : a.pos cur = none)
    {header : Header w} (hheader : header = GC.setMark (h₀ cur).header (markBit o.mode true) 0) :
    HeapRel g h₀ o.mode S (a.setMark cur) (h.setHeader cur header) none := by
  have hob := hrel.obj cur hcur
  have hparked := hrel.parked cur hcur nofun
  rw [hpos] at hparked
  subst hheader
  refine hrel.update hcur (fun n hn => ?_) (fun _ _ _ => nofun) ?_ (fun _ => ?_)
  · simp [PointerReversal.Heap.setMark, hn]
  · exact ⟨⟨hob.same.1, hob.same.2, hob.same.3, hob.same.4, hob.same.5, hob.same.6, hob.same.7⟩,
      ⟨0, by decide, by rw [a.setMark_self]⟩, hob.objptr, hob.others, hob.arrayCounter⟩
  · show Parked g (h₀ cur) _ (a.pos cur)
    rw [hpos]
    exact ⟨getCounter_setMark _ _ hset.width (by decide), hparked.2⟩

/-- The link of a weak object is not looked at. -/
theorem HeapRel.weakLink (hrel : HeapRel g h₀ mode S a h none) (hcur : cur.1 ∈ S) (link : ℕ) :
    HeapRel g h₀ mode S a (h.modify cur fun ob => { ob with weakLink := link }) none := by
  have hob := hrel.obj cur hcur
  refine hrel.update hcur (fun n _ => ⟨rfl, rfl, rfl⟩) (fun _ _ _ => nofun) ?_ (fun _ => ?_)
  · exact ⟨⟨hob.same.1, hob.same.2, hob.same.3, hob.same.4, hob.same.5, hob.same.6, hob.same.7⟩,
      hob.header, hob.objptr, hob.others, hob.arrayCounter⟩
  · exact hrel.parked cur hcur nofun

theorem bytesMarked_congr (hsame : SameFields ob₀ ob) (p : ℕ) (t : ObjectType) :
    bytesMarked g o ob p t = bytesMarked g o ob₀ p t := by
  simp only [bytesMarked, hsame.arrayLength, hsame.reserved, hsame.isParasitic]

theorem bytesOf_snoc (l : List (Node × Bool)) (n : Node) (b : Bool) :
    bytesOf g o h₀ (l ++ [(n, b)]) =
      bytesOf g o h₀ l + bytesMarked g o (h₀ n) n (splitHeader g (h₀ n).header) := by
  simp [bytesOf]

variable {s : State w σ} {prev : Option Node}

/-- The heap after the object of the label `mark` has been marked, and the label that follows. -/
theorem step_mark (hset : Scope g o h₀ S)
    (hrel : HeapRel g h₀ o.mode S a s.heap none) (hcur : cur.1 ∈ S) (hpos : a.pos cur = none)
    (hmono : (heapOf g o h₀).marked cur = true → a.marked cur = true) (hm : a.marked cur = false)
    (hlabel : s.label = .mark cur ((graph g o h₀).link prev) (s.heap cur).header) :
    ∃ s', step g o s = some s' ∧ HeapRel g h₀ o.mode S (a.setMark cur) s'.heap none ∧
      s'.aux = (o.f s.aux (h₀ cur).header cur 0).1 ∧
      s'.toContinue = (o.f s.aux (h₀ cur).header cur 0).2 ∧
      s'.size = s.size + bytesMarked g o (h₀ cur) cur (splitHeader g (h₀ cur).header) ∧
      s'.label = afterMark g (h₀ cur) cur ((graph g o h₀).link prev)
        ((h₀ cur).header ^^^ MARK_MASK) (o.f s.aux (h₀ cur).header cur 0).2 := by
  have hheader := hrel.header_unmarked hset hcur hpos hmono hm
  have hflip := xor_MARK_MASK hset hcur hmono hm
  have hheap := hrel.setMark hset hcur hpos hflip
  have hsame := (hrel.obj cur hcur).same
  have hsplit : splitHeader g ((h₀ cur).header ^^^ MARK_MASK) = splitHeader g (h₀ cur).header := by
    rw [hflip, splitHeader_setMark _ _ (by decide)]
  have hafter (header : Header w) (b : Bool) : afterMark g (s.heap cur) cur
      ((graph g o h₀).link prev) header b =
        afterMark g (h₀ cur) cur ((graph g o h₀).link prev) header b := by
    simp only [afterMark, hsame.arrayLength, hsame.used]
  have hvisit (p : ℕ) : o.f s.aux (h₀ cur).header cur p = o.f s.aux (h₀ cur).header cur 0 :=
    hset.visitor _ _ _ _ _
  simp only [step, hlabel, hheader, hvisit, bytesMarked_congr hsame, hsplit, hafter]
  refine ⟨_, rfl, ?_⟩
  by_cases hweak : (splitHeader g (h₀ cur).header).tag = .weak
  · rw [if_pos hweak, linkWeak]
    split_ifs with hlink
    · exact ⟨hheap.weakLink hcur _, rfl, rfl, rfl, rfl⟩
    · exact ⟨hheap, rfl, rfl, rfl, rfl⟩
  · rw [if_neg hweak]
    exact ⟨hheap, rfl, rfl, rfl, rfl⟩

theorem visitor_of_tag_ne (x : σ) (n : Node) (ht : (splitHeader g (h₀ n).header).tag ≠ .stack) :
    visitor g o h₀ x n = o.f x (h₀ n).header n 0 := by
  cases hstack : o.onStack <;> simp [visitor, hstack, ht]

theorem visitor_of_none (x : σ) (n : Node) (hstack : o.onStack = none) :
    visitor g o h₀ x n = o.f x (h₀ n).header n 0 := by
  simp [visitor, hstack]

/-- A stack without frames is empty. -/
theorem AtFrame.top (hset : Scope g o h₀ S) (hcur : cur.1 ∈ S)
    (ht : (splitHeader g (h₀ cur).header).tag = .stack) :
    AtFrame g (h₀ cur) (g.model.stackStructSize + (h₀ cur).used) 0 := by
  obtain ⟨frames, hframes⟩ := (hset.wellFormed cur hcur).frames ht
  exact ⟨frames, [], hframes, slots_stack ht hframes, rfl⟩

/-- The label `mark`. -/
theorem sim_mark (hset : Scope g o h₀ S) {x : σ}
    {log : List (Node × Bool)} (hrev : PointerReversal.Reversed (graph g o h₀) (fun n => n.1 ∈ S)
      (heapOf g o h₀) ⟨a, .mark cur prev, x, log⟩)
    (hrel : StateRel g o h₀ S ⟨a, .mark cur prev, x, log⟩ s) :
    ∃ s', Steps g o s s' ∧ StateRel g o h₀ S ⟨a.setMark cur,
      if (visitor g o h₀ x cur).2 then .visit cur prev 0 else .ret cur prev,
      (visitor g o h₀ x cur).1, log ++ [(cur, (visitor g o h₀ x cur).2)]⟩ s' := by
  obtain ⟨hheap, hlabel⟩ := hrel.label
  obtain ⟨hcur, hpos⟩ : cur.1 ∈ S ∧ a.pos cur = none := hrev.cur
  have hm : a.marked cur = false := hrev.mark cur prev rfl
  have hflip := xor_MARK_MASK hset hcur (hrev.mono cur) hm
  obtain ⟨s₁, hstep, hheap₁, haux, hcont, hsize, hlabel₁⟩ :=
    step_mark hset hheap hcur hpos (hrev.mono cur) hm hlabel
  have hx : s.aux = x := hrel.aux
  rw [hx] at haux hcont hlabel₁
  have hbytes (b : Bool) : s₁.size = bytesOf g o h₀ (log ++ [(cur, b)]) := by
    rw [bytesOf_snoc, hsize, hrel.size]
  have hcontinues (hstack : o.onStack = none) : s₁.toContinue = true := by
    rw [hcont]
    exact hset.continues hstack _ _ _ _
  have hsplit : splitHeader g ((h₀ cur).header ^^^ MARK_MASK) = splitHeader g (h₀ cur).header := by
    rw [hflip, splitHeader_setMark _ _ (by decide)]
  simp only [afterMark, hsplit] at hlabel₁
  -- one step suffices unless the object is an array, or a stack that is not entered
  have hone (b : Bool) (haux' : s₁.aux = (visitor g o h₀ x cur).1)
      (hrest : LabelRel g o h₀ S ⟨a.setMark cur, if b then .visit cur prev 0 else .ret cur prev,
        (visitor g o h₀ x cur).1, log ++ [(cur, b)]⟩ s₁) :
      ∃ s', Steps g o s s' ∧ StateRel g o h₀ S ⟨a.setMark cur,
        if b then .visit cur prev 0 else .ret cur prev, (visitor g o h₀ x cur).1,
        log ++ [(cur, b)]⟩ s' :=
    ⟨s₁, .single hstep, haux', hbytes b, hcontinues, hrel.entered, hrest⟩
  cases ht : (splitHeader g (h₀ cur).header).tag with
  | weak =>
    have hvisit := visitor_of_tag_ne (o := o) x cur (by rw [ht]; decide)
    simp only [ht] at hlabel₁
    rw [← hvisit] at haux
    cases hb : (visitor g o h₀ x cur).2 with
    | false => exact hone false haux ⟨hheap₁, hlabel₁⟩
    | true => exact hone true haux (.weak ht hheap₁ hlabel₁)
  | normal =>
    have hvisit := visitor_of_tag_ne (o := o) x cur (by rw [ht]; decide)
    rw [← hvisit] at hlabel₁ haux
    simp only [ht] at hlabel₁
    cases hb : (visitor g o h₀ x cur).2 with
    | false =>
      simp only [hb, Bool.not_false, if_true] at hlabel₁
      exact hone false haux ⟨hheap₁, hlabel₁⟩
    | true =>
      simp only [hb, Bool.not_true, Bool.false_eq_true, if_false] at hlabel₁
      refine hone true haux ?_
      split_ifs at hlabel₁ with hzero
      · exact .normalDone ht hzero.symm hheap₁ hlabel₁
      · refine .inNormal _ ht (Nat.pos_of_ne_zero hzero) (hheap₁.scan cur) ⟨0, by decide, hflip⟩ ?_
        simpa using hlabel₁
  | array =>
    have hvisit := visitor_of_tag_ne (o := o) x cur (by rw [ht]; decide)
    rw [← hvisit] at hlabel₁ haux
    simp only [ht] at hlabel₁
    cases hb : (visitor g o h₀ x cur).2 with
    | false =>
      simp only [hb, Bool.not_false, if_true] at hlabel₁
      exact hone false haux ⟨hheap₁, hlabel₁⟩
    | true =>
      simp only [hb, Bool.not_true, Bool.false_eq_true, if_false] at hlabel₁
      split_ifs at hlabel₁ with hzero
      · refine hone true haux (.arrayDone ht ?_ hheap₁ hlabel₁)
        rw [slots_array ht, List.length_map, List.length_range]
        rcases hzero with hzero | hzero <;> simp [hzero]
      · obtain ⟨hn, hlen⟩ := not_or.1 hzero
        have hstep₂ : step g o s₁ = some { s₁ with
            label := .markInArray cur ((graph g o h₀).link prev) ((h₀ cur).header ^^^ MARK_MASK) 0 0
              (0 + (splitHeader g ((h₀ cur).header ^^^ MARK_MASK)).bytesNonObjptrs) } := by
          simp only [step, hlabel₁]
        refine ⟨_, .head hstep (.single hstep₂), haux, hbytes true, hcontinues,
          hrel.entered, .inArray _ ht (0 + (splitHeader g ((h₀ cur).header ^^^ MARK_MASK)).bytesNonObjptrs) ?_
            (hheap₁.scan cur) ⟨0, by decide, hflip⟩ ?_⟩
        · have hlt : 0 < (h₀ cur).arrayLength * (splitHeader g (h₀ cur).header).numObjptrs := by
            positivity
          rw [slots_array ht, List.getElem?_map, List.getElem?_range hlt, hsplit]
          simp [arrayOffset]
        · simp
  | stack =>
    simp only [ht] at hlabel₁
    have htop := AtFrame.top hset hcur ht
    cases hstack : o.onStack with
    | none =>
      have hvisit : visitor g o h₀ x cur = o.f x (h₀ cur).header cur 0 :=
        visitor_of_none x cur hstack
      have hb : (visitor g o h₀ x cur).2 = true := by
        rw [hvisit]
        exact hset.continues hstack _ _ _ _
      rw [← hvisit] at haux
      rw [hb]
      exact hone true haux
        (.inStack _ ht hheap₁ (hcontinues hstack) (.inl hstack) htop hlabel₁)
    | some onStack =>
      have hleave (aux : σ) (hstep₂ : step g o s₁ =
          some { s₁ with aux := aux, label := .ret cur ((graph g o h₀).link prev) }) :
          ∃ s', Steps g o s s' ∧ StateRel g o h₀ S
            ⟨a.setMark cur, .ret cur prev, aux, log ++ [(cur, false)]⟩ s' :=
        ⟨_, .head hstep (.single hstep₂), rfl, hbytes false,
          fun hnone => by simp [hstack] at hnone, hrel.entered, hheap₁, rfl⟩
      cases hb : (o.f x (h₀ cur).header cur 0).2 with
      | false =>
        have hvisit : visitor g o h₀ x cur = o.f x (h₀ cur).header cur 0 := by
          simp [visitor, hstack, hb]
        rw [hvisit, hb, ← haux]
        refine hleave s₁.aux ?_
        simp [step, hlabel₁, hcont, hb]
      | true =>
        by_cases hused : (h₀ cur).used = 0
        · have hvisit : visitor g o h₀ x cur = o.f x (h₀ cur).header cur 0 := by
            simp [visitor, hstack, hused]
          rw [hvisit, hb, ← hvisit]
          exact hone true (by rw [hvisit, haux])
            (.inStack _ ht hheap₁ (hcont.trans hb) (.inr (by simp [hused])) htop hlabel₁)
        · have hvisit : visitor g o h₀ x cur =
              (onStack (o.f x (h₀ cur).header cur 0).1, false) := by
            simp [visitor, hstack, hb, ht, hused]
          rw [hvisit, ← haux]
          refine hleave (onStack s₁.aux) ?_
          simp [step, hlabel₁, hcont, hb, hused, hstack]

/-! ### From one slot to the next -/

/-- What scanning does not change. -/
structure Kept (s s' : State w σ) : Prop where
  aux : s'.aux = s.aux
  size : s'.size = s.size
  toContinue : s'.toContinue = s.toContinue

theorem Kept.refl (s : State w σ) : Kept s s := ⟨rfl, rfl, rfl⟩

theorem Kept.trans {s s' s'' : State w σ} (h : Kept s s') (h' : Kept s' s'') : Kept s s'' :=
  ⟨h'.aux.trans h.aux, h'.size.trans h.size, h'.toContinue.trans h.toContinue⟩

/-- The counters are cleared when the last slot has been scanned. -/
theorem HeapRel.clear (hset : Scope g o h₀ S)
    (hrel : HeapRel g h₀ mode S a h (some cur)) (hcur : cur.1 ∈ S) (hm : a.marked cur = true)
    (hpos : a.pos cur = none) (ob : Obj w) (hob : ob = { h cur with
      header := GC.setMark (h₀ cur).header (markBit mode true) 0, arrayCounter := ob.arrayCounter })
    (hcounter : ob.arrayCounter = (h₀ cur).arrayCounter) :
    HeapRel g h₀ mode S a (Function.update h cur.1 ob) none := by
  have hrelOb := hrel.obj cur hcur
  have hsame := hrelOb.same
  refine hrel.update hcur (fun n _ => ⟨rfl, rfl, rfl⟩) (fun n hn _ heq => ?_) ?_ (fun _ => ?_)
  · exact hn (Option.some.inj heq).symm
  · rw [hob]
    exact ⟨⟨hsame.1, hsame.2, hsame.3, hsame.4, hsame.5, hsame.6, hsame.7⟩,
      ⟨0, by decide, by rw [hm]⟩, hrelOb.objptr, hrelOb.others, fun _ => hcounter⟩
  · rw [hpos, hob]
    exact ⟨getCounter_setMark _ _ hset.width (by decide), hcounter⟩

theorem next_normal (hset : Scope g o h₀ S) {j c : ℕ}
    (hcur : cur.1 ∈ S) (hm : a.marked cur = true) (hpos : a.pos cur = none)
    (ht : (splitHeader g (h₀ cur).header).tag = .normal)
    (hj : j < (splitHeader g (h₀ cur).header).numObjptrs)
    (hheap : HeapRel g h₀ o.mode S a s.heap (some cur)) (hc : c < 2 ^ 11)
    (hlabel : s.label = .markNextInNormal cur ((graph g o h₀).link prev)
      (GC.setMark (h₀ cur).header (markBit o.mode true) c) j
      ((splitHeader g (h₀ cur).header).bytesNonObjptrs + j * g.model.objptrSize)) :
    ∃ s', Steps g o s s' ∧ Kept s s' ∧ Visiting g o h₀ S a cur prev (j + 1) s' := by
  by_cases hlast : j + 1 = (splitHeader g (h₀ cur).header).numObjptrs
  · refine ⟨{ s with
      heap := s.heap.setHeader cur (GC.setMark (h₀ cur).header (markBit o.mode true) 0)
      label := .normalDone cur ((graph g o h₀).link prev) }, .single ?_, ⟨rfl, rfl, rfl⟩,
      .normalDone ht hlast ?_ rfl⟩
    · simp only [step, hlabel, splitHeader_setMark _ _ hc, if_pos hlast,
        clearCounter_setMark _ _ hc]
    · refine hheap.clear hset hcur hm hpos _ rfl ?_
      exact (hheap.obj cur hcur).arrayCounter (by rw [ht]; decide)
  · refine ⟨{ s with
      label := .markInNormal cur ((graph g o h₀).link prev)
        (GC.setMark (h₀ cur).header (markBit o.mode true) c) (j + 1)
        ((splitHeader g (h₀ cur).header).bytesNonObjptrs + j * g.model.objptrSize
          + g.model.objptrSize) }, .single ?_, ⟨rfl, rfl, rfl⟩,
      .inNormal _ ht (by omega) hheap ⟨c, hc, rfl⟩ ?_⟩
    · simp only [step, hlabel, splitHeader_setMark _ _ hc, if_neg hlast]
    · simp only [Nat.add_mul, Nat.one_mul, Nat.add_assoc]

theorem next_array (hset : Scope g o h₀ S) {j c off : ℕ}
    (hcur : cur.1 ∈ S) (hm : a.marked cur = true) (hpos : a.pos cur = none)
    (ht : (splitHeader g (h₀ cur).header).tag = .array) (hoff : (slots g (h₀ cur))[j]? = some off)
    (hheap : HeapRel g h₀ o.mode S a s.heap (some cur)) (hc : c < 2 ^ 11)
    (hlabel : s.label = .markNextInArray cur ((graph g o h₀).link prev)
      (GC.setMark (h₀ cur).header (markBit o.mode true) c)
      (j / (splitHeader g (h₀ cur).header).numObjptrs)
      (j % (splitHeader g (h₀ cur).header).numObjptrs) off) :
    ∃ s', Steps g o s s' ∧ Kept s s' ∧ Visiting g o h₀ S a cur prev (j + 1) s' := by
  have hsame := ((hheap.obj cur hcur).same).arrayLength
  have hsplit := splitHeader_setMark (g := g) (h₀ cur).header (markBit o.mode true) hc
  have hlength : (slots g (h₀ cur)).length =
      (h₀ cur).arrayLength * (splitHeader g (h₀ cur).header).numObjptrs := by
    rw [slots_array ht, List.length_map, List.length_range]
  have hslot {k : ℕ} (hk : k < (slots g (h₀ cur)).length) : (slots g (h₀ cur))[k]? =
      some (arrayOffset g.model (splitHeader g (h₀ cur).header) k) := by
    rw [hlength] at hk
    rw [slots_array ht, List.getElem?_map, List.getElem?_range hk, Option.map_some]
  have hlt := (List.getElem?_eq_some_iff.1 hoff).1
  cases hoff.symm.trans (hslot hlt)
  rw [hlength] at hlt
  set t := splitHeader g (h₀ cur).header with htype
  have hn : 0 < t.numObjptrs := Nat.pos_of_ne_zero fun h0 => by simp [h0] at hlt
  have hmod := Nat.mod_lt j hn
  by_cases hin : j % t.numObjptrs + 1 < t.numObjptrs
  · obtain ⟨hdiv, hmod'⟩ := (succ_div_mod hn).1 hin
    have hnext : j + 1 < (slots g (h₀ cur)).length := by
      rw [hlength]
      refine lt_of_le_of_ne hlt fun heq => ?_
      have heq : j + 1 = (h₀ cur).arrayLength * t.numObjptrs := heq
      rw [heq, mul_mod_left] at hmod'
      omega
    refine ⟨{ s with
      label := .markInArray cur ((graph g o h₀).link prev)
        (GC.setMark (h₀ cur).header (markBit o.mode true) c) (j / t.numObjptrs)
        (j % t.numObjptrs + 1) (arrayOffset g.model t j + g.model.objptrSize) },
      .single ?_, ⟨rfl, rfl, rfl⟩, .inArray _ ht _ (hslot hnext) hheap ⟨c, hc, rfl⟩ ?_⟩
    · simp only [step, hlabel, hsplit, if_pos hin]
    · rw [hdiv, hmod', arrayOffset_succ g.model hin]
  · have hfull : j % t.numObjptrs + 1 = t.numObjptrs := by omega
    obtain ⟨hdiv, hmod'⟩ := (succ_div_mod hn).2 hfull
    by_cases hlast : j / t.numObjptrs + 1 < (h₀ cur).arrayLength
    · have hnext : j + 1 < (slots g (h₀ cur)).length := by
        rw [hlength, ← div_lt_iff_lt_mul hn, hdiv]
        exact hlast
      have hstep : step g o s = some { s with
          label := .markArrayElt cur ((graph g o h₀).link prev)
            (GC.setMark (h₀ cur).header (markBit o.mode true) c) (j / t.numObjptrs + 1)
            (arrayOffset g.model t j + g.model.objptrSize) } := by
        simp only [step, hlabel, hsplit, if_neg hin, hsame, if_pos hlast]
      refine ⟨{ s with
        label := .markInArray cur ((graph g o h₀).link prev)
          (GC.setMark (h₀ cur).header (markBit o.mode true) c) (j / t.numObjptrs + 1) 0
          (arrayOffset g.model t j + g.model.objptrSize + t.bytesNonObjptrs) },
        .head hstep (.single ?_), ⟨rfl, rfl, rfl⟩,
        .inArray _ ht _ (hslot hnext) hheap ⟨c, hc, rfl⟩ ?_⟩
      · simp only [step, hsplit]
      · rw [hdiv, hmod', arrayOffset_succ_of_eq g.model hfull]
    · refine ⟨{ s with
        heap := (s.heap.modify cur fun ob => { ob with arrayCounter := 0 }).setHeader cur
          (GC.setMark (h₀ cur).header (markBit o.mode true) 0)
        label := .arrayDone cur ((graph g o h₀).link prev) }, .single ?_, ⟨rfl, rfl, rfl⟩,
        .arrayDone ht ?_ ?_ rfl⟩
      · simp only [step, hlabel, hsplit, if_neg hin, hsame, if_neg hlast,
          clearCounter_setMark _ _ hc]
      · rw [hlength]
        refine le_antisymm hlt ((le_div_iff_mul_le hn).1 ?_)
        rw [hdiv]
        omega
      · have hzero := (hset.wellFormed cur hcur).arrayCounter ht
        have hclear := hheap.clear hset hcur hm hpos { s.heap cur with
          header := GC.setMark (h₀ cur).header (markBit o.mode true) 0, arrayCounter := 0 } rfl
          hzero.symm
        simpa [Heap.setHeader, Heap.modify] using hclear

/-! ### Looking at a slot -/

variable (g o h₀) in
/-- The code is about to read the `j`-th slot of `cur`. -/
inductive Looking (S : Finset ℕ) (a : PointerReversal.Heap Node ℕ) (cur : Node)
    (prev : Option Node) (j off : ℕ) (s : State w σ) : Prop
  | normal (c : ℕ) (tag : (splitHeader g (h₀ cur).header).tag = .normal)
      (lt : j < (splitHeader g (h₀ cur).header).numObjptrs)
      (eq : off = (splitHeader g (h₀ cur).header).bytesNonObjptrs + j * g.model.objptrSize)
      (heap : HeapRel g h₀ o.mode S a s.heap (some cur)) (counter : c < 2 ^ 11)
      (label : s.label = .markInNormal cur ((graph g o h₀).link prev)
        (GC.setMark (h₀ cur).header (markBit o.mode true) c) j off)
  | array (c : ℕ) (tag : (splitHeader g (h₀ cur).header).tag = .array)
      (heap : HeapRel g h₀ o.mode S a s.heap (some cur)) (counter : c < 2 ^ 11)
      (label : s.label = .markInArray cur ((graph g o h₀).link prev)
        (GC.setMark (h₀ cur).header (markBit o.mode true) c)
        (j / (splitHeader g (h₀ cur).header).numObjptrs)
        (j % (splitHeader g (h₀ cur).header).numObjptrs) off)
  | frame (top : ℕ) (frameLayout : FrameLayout) (objptrIndex : ℕ)
      (tag : (splitHeader g (h₀ cur).header).tag = .stack)
      (lt : objptrIndex < frameLayout.offsets.length)
      (eq : off = top - frameLayout.size + frameLayout.offsets.getD objptrIndex 0)
      (frame : InFrame g (h₀ cur) top frameLayout objptrIndex j) (onStack : o.onStack = none)
      (heap : HeapRel g h₀ o.mode S a s.heap none) (markTop : (s.heap cur).markTop = top)
      (label : s.label = .markInFrame cur ((graph g o h₀).link prev) top frameLayout objptrIndex)

variable (g o h₀) in
/-- All slots of `cur` have been scanned. -/
def Finished (S : Finset ℕ) (a : PointerReversal.Heap Node ℕ) (cur : Node) (prev : Option Node)
    (s : State w σ) : Prop :=
  HeapRel g h₀ o.mode S a s.heap none ∧ s.label = .ret cur ((graph g o h₀).link prev)

/-- The pointers of the frames are slots. -/
theorem InFrame.slot {top objptrIndex j : ℕ} {frameLayout : FrameLayout}
    (h : InFrame g ob top frameLayout objptrIndex j)
    (hlt : objptrIndex < frameLayout.offsets.length) : (slots g ob)[j]? =
      some (top - frameLayout.size + frameLayout.offsets.getD objptrIndex 0) := by
  obtain ⟨frames, before, -, hslots, -, rfl⟩ := h
  have hin : objptrIndex < (frameLayout.offsets.map (top - frameLayout.size + ·)).length := by
    simpa using hlt
  rw [hslots, List.getElem?_append_right (by omega), Nat.add_sub_cancel_left, frameSlots,
    List.getElem?_append_left hin, List.getElem?_map, List.getElem?_eq_getElem hlt]
  simp [getD_eq_getElem?_getD, hlt]

/-- The layout of a frame is found again by its return address. -/
theorem InFrame.layout {top objptrIndex j : ℕ} {frameLayout : FrameLayout}
    (h : InFrame g ob top frameLayout objptrIndex j) : g.getFrameLayoutFromReturnAddress
      (ob.returnAddress (top - g.model.returnAddressSize)) = frameLayout := by
  obtain ⟨frames, before, hframes, -, -, -⟩ := h
  cases hframes with
  | frame layout pos le lt nodup below => exact layout

theorem InFrame.succ {top objptrIndex j : ℕ} {frameLayout : FrameLayout}
    (h : InFrame g ob top frameLayout objptrIndex j)
    (hlt : objptrIndex < frameLayout.offsets.length) :
    InFrame g ob top frameLayout (objptrIndex + 1) (j + 1) := by
  obtain ⟨frames, before, hframes, hslots, -, hj⟩ := h
  exact ⟨frames, before, hframes, hslots, hlt, by omega⟩

/-- `markTop` is not looked at while the stack is scanned. -/
theorem HeapRel.markTop (hrel : HeapRel g h₀ mode S a h none) (hcur : cur.1 ∈ S)
    (hpos : a.pos cur = none) (top : ℕ) :
    HeapRel g h₀ mode S a (h.modify cur fun ob => { ob with markTop := top }) none := by
  have hob := hrel.obj cur hcur
  have hparked := hrel.parked cur hcur nofun
  rw [hpos] at hparked
  refine hrel.update hcur (fun n _ => ⟨rfl, rfl, rfl⟩) (fun _ _ _ => nofun) ?_ (fun _ => ?_)
  · exact ⟨⟨hob.same.1, hob.same.2, hob.same.3, hob.same.4, hob.same.5, hob.same.6, hob.same.7⟩,
      hob.header, hob.objptr, hob.others, hob.arrayCounter⟩
  · rw [hpos]
    exact hparked

/-- From the label `markInStack`, frames without pointers are skipped. -/
theorem settle_stack {top j : ℕ} {before : List ℕ} (hcur : cur.1 ∈ S) (hpos : a.pos cur = none)
    (ht : (splitHeader g (h₀ cur).header).tag = .stack) (hframes : Frames g (h₀ cur) top frames)
    (hslots : slots g (h₀ cur) = before ++ frameSlots top frames) (hj : j = before.length)
    (hheap : HeapRel g h₀ o.mode S a s.heap none) (hcont : s.toContinue = true)
    (hstack : o.onStack = none ∨ top = g.model.stackStructSize)
    (hlabel : s.label = .markInStack cur ((graph g o h₀).link prev) top) :
    ∃ s', Steps g o s s' ∧ Kept s s' ∧
      ((∃ off, (slots g (h₀ cur))[j]? = some off ∧ Looking g o h₀ S a cur prev j off s') ∨
        (slots g (h₀ cur)).length ≤ j ∧ Finished g o h₀ S a cur prev s') := by
  induction hframes generalizing s before with
  | bottom =>
    refine ⟨{ s with label := .ret cur ((graph g o h₀).link prev) }, .single ?_, ⟨rfl, rfl, rfl⟩,
      .inr ⟨?_, hheap, rfl⟩⟩
    · simp [step, hlabel, hcont]
    · rw [hslots, hj]
      simp [frameSlots]
  | @frame top frameLayout frames layout pos le lt nodup below ih =>
    have htop : top ≠ g.model.stackStructSize := by omega
    have hstack : o.onStack = none := hstack.resolve_right htop
    have hreturn := ((hheap.obj cur hcur).same).returnAddress
    have hstep : step g o s = some { s with
        heap := s.heap.modify cur fun ob => { ob with markTop := top }
        label := .markInFrame cur ((graph g o h₀).link prev) top frameLayout 0 } := by
      simp only [step, hlabel, hcont, hstack, hreturn, layout, if_neg htop, Bool.not_true,
        Bool.false_eq_true, if_false]
    have hheap' := hheap.markTop hcur hpos top
    have hin : InFrame g (h₀ cur) top frameLayout 0 j :=
      ⟨frames, before, .frame layout pos le lt nodup below, hslots, Nat.zero_le _, hj⟩
    by_cases hlength : 0 < frameLayout.offsets.length
    · refine ⟨_, .single hstep, ⟨rfl, rfl, rfl⟩, .inl ⟨_, hin.slot hlength, ?_⟩⟩
      refine .frame top frameLayout 0 ht hlength rfl hin hstack hheap' ?_ rfl
      simp [Heap.modify]
    · have hnil : frameLayout.offsets = [] := eq_nil_of_length_eq_zero (by omega)
      have hstep' : step g o { s with
          heap := s.heap.modify cur fun ob => { ob with markTop := top }
          label := .markInFrame cur ((graph g o h₀).link prev) top frameLayout 0 } = some { s with
            heap := s.heap.modify cur fun ob => { ob with markTop := top }
            label := .markInStack cur ((graph g o h₀).link prev) (top - frameLayout.size) } := by
        simp [step, hnil]
      have hslots' : slots g (h₀ cur) = before ++ frameSlots (top - frameLayout.size) frames := by
        rw [hslots, frameSlots, hnil]
        rfl
      obtain ⟨s', hsteps, hkept, hs'⟩ := ih (s := { s with heap := _, label := _ })
        hslots' hj hheap' hcont (.inl hstack) rfl
      exact ⟨s', .head hstep (.head hstep' hsteps), ⟨hkept.aux, hkept.size, hkept.toContinue⟩, hs'⟩

/-- Either there is a slot to look at, or the object has been scanned. -/
theorem settle (hset : Scope g o h₀ S) {j : ℕ} (hcur : cur.1 ∈ S) (hpos : a.pos cur = none)
    (hcont : o.onStack = none → s.toContinue = true)
    (hvisiting : Visiting g o h₀ S a cur prev j s) : ∃ s', Steps g o s s' ∧ Kept s s' ∧
      ((∃ off, (slots g (h₀ cur))[j]? = some off ∧ Looking g o h₀ S a cur prev j off s') ∨
        (slots g (h₀ cur)).length ≤ j ∧ Finished g o h₀ S a cur prev s') := by
  have hdone {s' : State w σ} (hheap : HeapRel g h₀ o.mode S a s'.heap none) :
      HeapRel g h₀ o.mode S a (done o s' cur ((graph g o h₀).link prev)).heap none ∧
        Kept s' (done o s' cur ((graph g o h₀).link prev)) ∧
        (done o s' cur ((graph g o h₀).link prev)).label = .ret cur ((graph g o h₀).link prev) := by
    simp only [done, hset.noHashCons]
    exact ⟨hheap, ⟨rfl, rfl, rfl⟩, trivial⟩
  cases hvisiting with
  | inNormal header ht hlt hheap hmarked hlabel =>
    obtain ⟨c, hc, rfl⟩ := hmarked
    refine ⟨s, .refl, .refl s, .inl ⟨_, ?_, .normal c ht hlt rfl hheap hc hlabel⟩⟩
    rw [slots_normal ht, List.getElem?_map, List.getElem?_range hlt, Option.map_some]
  | normalDone ht heq hheap hlabel =>
    obtain ⟨hheap', hkept, hlabel'⟩ := hdone hheap
    refine ⟨_, .single ?_, hkept, .inr ⟨?_, hheap', hlabel'⟩⟩
    · simp only [step, hlabel]
    · rw [slots_normal ht, List.length_map, List.length_range, heq]
  | inArray header ht off hoff hheap hmarked hlabel =>
    obtain ⟨c, hc, rfl⟩ := hmarked
    exact ⟨s, .refl, .refl s, .inl ⟨off, hoff, .array c ht hheap hc hlabel⟩⟩
  | arrayDone ht heq hheap hlabel =>
    obtain ⟨hheap', hkept, hlabel'⟩ := hdone hheap
    refine ⟨_, .single ?_, hkept, .inr ⟨heq.ge, hheap', hlabel'⟩⟩
    simp only [step, hlabel]
  | weak ht hheap hlabel =>
    refine ⟨s, .refl, .refl s, .inr ⟨?_, hheap, hlabel⟩⟩
    rw [slots_weak ht]
    exact Nat.zero_le j
  | inFrame top frameLayout objptrIndex ht hheap hmarkTop hstack hframe hlabel =>
    by_cases hlt : objptrIndex < frameLayout.offsets.length
    · exact ⟨s, .refl, .refl s, .inl ⟨_, hframe.slot hlt,
        .frame top frameLayout objptrIndex ht hlt rfl hframe hstack hheap hmarkTop hlabel⟩⟩
    · obtain ⟨frames, before, hframes, hslots, hle, hj⟩ := hframe
      have hlast : objptrIndex = frameLayout.offsets.length := by omega
      cases hframes with
      | frame layout pos le lt nodup below =>
        have hstep : step g o s = some { s with
            label := .markInStack cur ((graph g o h₀).link prev) (top - frameLayout.size) } := by
          simp only [step, hlabel, hlast, if_true]
        have hslots' : slots g (h₀ cur) = (before ++ frameLayout.offsets.map
            (top - frameLayout.size + ·)) ++ frameSlots (top - frameLayout.size) frames := by
          rw [hslots, frameSlots, List.append_assoc]
        have hj' : j = (before ++ frameLayout.offsets.map (top - frameLayout.size + ·)).length := by
          rw [hj, hlast, length_append, List.length_map]
        obtain ⟨s', hsteps, hkept, hs'⟩ := settle_stack
          (s := { s with label := .markInStack cur ((graph g o h₀).link prev) _ })
          hcur hpos ht below hslots' hj' hheap (hcont hstack) (.inl hstack) rfl
        exact ⟨s', .head hstep hsteps, ⟨hkept.aux, hkept.size, hkept.toContinue⟩, hs'⟩
  | inStack top ht hheap hcont' hstack hframe hlabel =>
    obtain ⟨frames, before, hframes, hslots, hj⟩ := hframe
    exact settle_stack hcur hpos ht hframes hslots hj hheap hcont' hstack hlabel

theorem follows_of_tag_ne (ht : (splitHeader g ob.header).tag ≠ .stack) (v : ℕ) :
    follows g o ob v = !notFollowed g o v := by
  simp [follows, ht]

theorem follows_of_stack (ht : (splitHeader g ob.header).tag = .stack) (v : ℕ) :
    follows g o ob v = !(notFollowed g o v || (o.sizeEstimationForLifting && !ob.isParasitic)) := by
  simp [follows, ht]

section

variable (hset : Scope g o h₀ S) (hcur : cur.1 ∈ S) (hm : a.marked cur = true)
  (hpos : a.pos cur = none) (hoff : (slots g (h₀ cur))[j]? = some off)
  (hlook : Looking g o h₀ S a cur prev j off s)

include hset hcur hm hpos hoff hlook

/-- A slot that is not followed, or leads to an object that is marked. -/
theorem look_skip (hskip : follows g o (h₀ cur) ((s.heap cur).objptr off) = true →
      o.mode.mark = (s.heap ((s.heap cur).objptr off)).header &&& MARK_MASK) :
    ∃ s', Steps g o s s' ∧ Kept s s' ∧ Visiting g o h₀ S a cur prev (j + 1) s' := by
  have hshare (off : ℕ) : shareObjptr o s cur off = s := by
    simp only [shareObjptr, hset.noHashCons]
  cases hlook with
  | normal c ht hlt heq hheap hc hlabel =>
    rw [follows_of_tag_ne (by rw [ht]; decide)] at hskip
    have hstep : step g o s = some { s with
        label := .markNextInNormal cur ((graph g o h₀).link prev)
          (GC.setMark (h₀ cur).header (markBit o.mode true) c) j off } := by
      simp only [step, hlabel, hshare]
      cases hfollow : notFollowed g o ((s.heap cur).objptr off) with
      | true => simp
      | false =>
        rw [hfollow] at hskip
        simp [hskip rfl]
    subst heq
    obtain ⟨s', hsteps, hkept, hs'⟩ := next_normal
      (s := { s with label := .markNextInNormal cur ((graph g o h₀).link prev) _ _ _ })
      hset hcur hm hpos ht hlt hheap hc rfl
    exact ⟨s', .head hstep hsteps, ⟨hkept.aux, hkept.size, hkept.toContinue⟩, hs'⟩
  | array c ht hheap hc hlabel =>
    rw [follows_of_tag_ne (by rw [ht]; decide)] at hskip
    have hstep : step g o s = some { s with
        label := .markNextInArray cur ((graph g o h₀).link prev)
          (GC.setMark (h₀ cur).header (markBit o.mode true) c)
          (j / (splitHeader g (h₀ cur).header).numObjptrs)
          (j % (splitHeader g (h₀ cur).header).numObjptrs) off } := by
      simp only [step, hlabel, hshare]
      cases hfollow : notFollowed g o ((s.heap cur).objptr off) with
      | true => simp
      | false =>
        rw [hfollow] at hskip
        simp [hskip rfl]
    obtain ⟨s', hsteps, hkept, hs'⟩ := next_array
      (s := { s with label := .markNextInArray cur ((graph g o h₀).link prev) _ _ _ _ })
      hset hcur hm hpos ht hoff hheap hc rfl
    exact ⟨s', .head hstep hsteps, ⟨hkept.aux, hkept.size, hkept.toContinue⟩, hs'⟩
  | frame top frameLayout objptrIndex ht hlt heq hframe hstack hheap hmarkTop hlabel =>
    rw [follows_of_stack ht] at hskip
    have hparasitic := ((hheap.obj cur hcur).same).isParasitic
    have hstep : step g o s = some { s with
        label := .markInFrame cur ((graph g o h₀).link prev) top frameLayout (objptrIndex + 1) } := by
      simp only [step, hlabel, hshare, if_neg hlt.ne, ← heq, hparasitic]
      cases hfollow : notFollowed g o ((s.heap cur).objptr off)
          || (o.sizeEstimationForLifting && !(h₀ cur).isParasitic) with
      | true => simp
      | false =>
        rw [hfollow] at hskip
        simp [hskip rfl]
    exact ⟨_, .single hstep, ⟨rfl, rfl, rfl⟩, .inFrame top frameLayout (objptrIndex + 1) ht hheap
      hmarkTop hstack (hframe.succ hlt) rfl⟩

/-- What an object is when it is left through its `j`-th slot. -/
structure Leaving (mode : MarkMode) (ob₀ ob ob' : Obj w) (j : ℕ) : Prop where
  same : SameFields ob₀ ob'
  header : ∃ c < 2 ^ 11, ob'.header = GC.setMark ob₀.header (markBit mode true) c
  objptr : ob'.objptr = ob.objptr
  arrayCounter : (splitHeader g ob₀.header).tag ≠ .array → ob'.arrayCounter = ob₀.arrayCounter
  parked : Parked g ob₀ ob' (some j)

/-- A slot that leads to an unmarked object. -/
theorem look_leave (hfollows : follows g o (h₀ cur) ((s.heap cur).objptr off) = true)
    (hmark : o.mode.mark ≠ (s.heap ((s.heap cur).objptr off)).header &&& MARK_MASK) :
    (∃ scanned, (scanned = none ∨ scanned = some cur) ∧ HeapRel g h₀ o.mode S a s.heap scanned) ∧
    ((splitHeader g (h₀ cur).header).tag = .stack → o.onStack = none) ∧
    ∃ ob, Leaving (g := g) o.mode (h₀ cur) (s.heap cur) ob j ∧
      step g o s = some { s with
        heap := Function.update s.heap cur.1 ob
        label := .markNext cur ((graph g o h₀).link prev) ((s.heap cur).objptr off)
          (s.heap ((s.heap cur).objptr off)).header off } := by
  cases hlook with
  | normal c ht hlt heq hheap hc hlabel =>
    have hob := hheap.obj cur hcur
    have hj : j < 2 ^ 11 := hlt.trans_le ((hset.wellFormed cur hcur).numObjptrs (.inl ht))
    rw [follows_of_tag_ne (by rw [ht]; decide)] at hfollows
    have hfollow : notFollowed g o ((s.heap cur).objptr off) = false := by simpa using hfollows
    refine ⟨⟨some cur, .inr rfl, hheap⟩, fun hstack => by simp [ht] at hstack, { s.heap cur with
      header := GC.setMark (h₀ cur).header (markBit o.mode true) j }, ⟨?_, ⟨j, hj, rfl⟩, rfl,
        hob.arrayCounter, ?_⟩, ?_⟩
    · exact ⟨hob.same.1, hob.same.2, hob.same.3, hob.same.4, hob.same.5, hob.same.6, hob.same.7⟩
    · simp only [Parked, ht]
      exact ⟨getCounter_setMark _ _ hset.width hj, hob.arrayCounter (by rw [ht]; decide)⟩
    · simp only [step, hlabel, hfollow, if_neg hmark, setCounter_setMark _ _ hc hj]
      rfl
  | array c ht hheap hc hlabel =>
    have hob := hheap.obj cur hcur
    have hn : 0 < (splitHeader g (h₀ cur).header).numObjptrs := by
      have hlt := (List.getElem?_eq_some_iff.1 hoff).1
      rw [slots_array ht, List.length_map, List.length_range] at hlt
      exact Nat.pos_of_ne_zero fun h0 => by simp [h0] at hlt
    have hj : j % (splitHeader g (h₀ cur).header).numObjptrs < 2 ^ 11 :=
      (Nat.mod_lt j hn).trans_le ((hset.wellFormed cur hcur).numObjptrs (.inr ht))
    rw [follows_of_tag_ne (by rw [ht]; decide)] at hfollows
    have hfollow : notFollowed g o ((s.heap cur).objptr off) = false := by simpa using hfollows
    refine ⟨⟨some cur, .inr rfl, hheap⟩, fun hstack => by simp [ht] at hstack, { s.heap cur with
      header := GC.setMark (h₀ cur).header (markBit o.mode true)
        (j % (splitHeader g (h₀ cur).header).numObjptrs)
      arrayCounter := j / (splitHeader g (h₀ cur).header).numObjptrs }, ⟨?_, ⟨_, hj, rfl⟩, rfl,
        fun hne => absurd ht hne, ?_⟩, ?_⟩
    · exact ⟨hob.same.1, hob.same.2, hob.same.3, hob.same.4, hob.same.5, hob.same.6, hob.same.7⟩
    · simp only [Parked, ht]
      exact ⟨getCounter_setMark _ _ hset.width hj, trivial⟩
    · simp only [step, hlabel, hfollow, if_neg hmark, setCounter_setMark _ _ hc hj, Heap.setHeader,
        Heap.modify, update_self, update_idem]
      rfl
  | frame top frameLayout objptrIndex ht hlt heq hframe hstack hheap hmarkTop hlabel =>
    have hob := hheap.obj cur hcur
    have hparked := hheap.parked cur hcur (by simp)
    rw [hpos] at hparked
    rw [follows_of_stack ht] at hfollows
    have hfollow : (notFollowed g o ((s.heap cur).objptr off)
        || (o.sizeEstimationForLifting && !(s.heap cur).isParasitic)) = false := by
      rw [hob.same.isParasitic]
      simpa only [Bool.not_eq_true'] using hfollows
    obtain ⟨c, hc, hheader⟩ := hob.header
    refine ⟨⟨none, .inl rfl, hheap⟩, fun _ => hstack, { s.heap cur with markIndex := objptrIndex },
      ⟨?_, ⟨c, hc, by rw [hheader, hm]⟩, rfl, hob.arrayCounter, ?_⟩, ?_⟩
    · exact ⟨hob.same.1, hob.same.2, hob.same.3, hob.same.4, hob.same.5, hob.same.6, hob.same.7⟩
    · simp only [Parked, ht]
      exact ⟨hparked.1, hparked.2, frameLayout, hmarkTop ▸ hframe, hlt⟩
    · simp only [step, hlabel, if_neg hlt.ne, ← heq, hfollow, if_neg hmark]
      rfl

end

/-! ### Down and up -/

/-- Another value in the `j`-th slot. -/
theorem ObjRel.store {slot : ℕ → ℕ} {m : Bool} {j off v : ℕ}
    (hwf : ob₀.WellFormed g) (hoff : (slots g ob₀)[j]? = some off)
    (hob : ObjRel g mode ob₀ slot m ob) : ObjRel g mode ob₀ (Function.update slot j v) m
      { ob with objptr := Function.update ob.objptr off v } := by
  have hsame := hob.same
  refine ⟨⟨hsame.1, hsame.2, hsame.3, hsame.4, hsame.5, hsame.6, hsame.7⟩, hob.header,
    fun i off' hi => ?_, fun off' hoff' => ?_, hob.arrayCounter⟩
  · by_cases hij : i = j
    · subst hij
      cases hoff.symm.trans hi
      simp
    · have hne : off' ≠ off := by
        rintro rfl
        have hlt := (List.getElem?_eq_some_iff.1 hi).1
        exact hij ((List.getElem?_inj hlt (nodup_slots hwf)).1 (hi.trans hoff.symm))
      rw [update_of_ne hij]
      show Function.update ob.objptr off v off' = slot i
      rw [update_of_ne hne]
      exact hob.objptr i off' hi
  · have hne : off' ≠ off := by
      rintro rfl
      exact hoff' (mem_of_getElem? hoff)
    show Function.update ob.objptr off v off' = ob₀.objptr off'
    rw [update_of_ne hne]
    exact hob.others off' hoff'

theorem HeapRel.leave (hset : Scope g o h₀ S)
    (hrel : HeapRel g h₀ mode S a h scanned) (hscanned : scanned = none ∨ scanned = some cur)
    (hcur : cur.1 ∈ S) (hm : a.marked cur = true) (hoff : (slots g (h₀ cur))[j]? = some off)
    (hleaving : Leaving (g := g) mode (h₀ cur) (h cur) ob j) (v : ℕ) :
    HeapRel g h₀ mode S ((a.setPos cur (some j)).setSlot cur j v)
      (Heap.storeObjptr (Function.update h cur.1 ob) cur off v) none := by
  have hob : ObjRel g mode (h₀ cur) (a.slot cur) (a.marked cur) ob := by
    obtain ⟨c, hc, hheader⟩ := hleaving.header
    refine ⟨hleaving.same, ⟨c, hc, by rw [hheader, hm]⟩, ?_, ?_, hleaving.arrayCounter⟩
    · rw [hleaving.objptr]
      exact (hrel.obj cur hcur).objptr
    · rw [hleaving.objptr]
      exact (hrel.obj cur hcur).others
  have hstore : Heap.storeObjptr (Function.update h cur.1 ob) cur off v =
      Function.update h cur.1 { ob with objptr := Function.update ob.objptr off v } := by
    simp [Heap.storeObjptr, Heap.modify]
  rw [hstore]
  refine hrel.update hcur (fun n hn => ?_) (fun n hn _ heq => ?_) ?_ (fun _ => ?_)
  · simp [PointerReversal.Heap.setSlot, PointerReversal.Heap.setPos, hn]
  · rcases hscanned with rfl | rfl
    · cases heq
    · exact hn (Option.some.inj heq).symm
  · have hslot : ((a.setPos cur (some j)).setSlot cur j v).slot cur =
        Function.update (a.slot cur) j v := by
      simp [PointerReversal.Heap.setSlot]
    rw [hslot]
    exact hob.store (hset.wellFormed cur hcur) hoff
  · have hpos : ((a.setPos cur (some j)).setSlot cur j v).pos cur = some j := by
      simp [PointerReversal.Heap.setPos]
    rw [hpos]
    exact hleaving.parked

theorem HeapRel.back (hset : Scope g o h₀ S)
    (hrel : HeapRel g h₀ mode S a h none) (hcur : cur.1 ∈ S)
    (hoff : (slots g (h₀ cur))[j]? = some off) (v : ℕ) (n : Option Node)
    (hparked : n ≠ some cur → Parked g (h₀ cur) (h cur) none) :
    HeapRel g h₀ mode S ((a.setPos cur none).setSlot cur j v) (h.storeObjptr cur off v) n := by
  refine hrel.update hcur (fun n hn => ?_) (fun _ _ _ => nofun) ?_ (fun hscanned => ?_)
  · simp [PointerReversal.Heap.setSlot, PointerReversal.Heap.setPos, hn]
  · have hslot : ((a.setPos cur none).setSlot cur j v).slot cur =
        Function.update (a.slot cur) j v := by
      simp [PointerReversal.Heap.setSlot]
    rw [hslot]
    exact (hrel.obj cur hcur).store (hset.wellFormed cur hcur) hoff
  · have hpos : ((a.setPos cur none).setSlot cur j v).pos cur = none := by
      simp [PointerReversal.Heap.setPos]
    rw [hpos]
    exact hparked hscanned

theorem link_unlink (v : ℕ) : (graph g o h₀).link ((graph g o h₀).unlink v) = v := by
  by_cases hv : v = 0
  · subst hv
    rfl
  · show Option.elim (if hv : v ≠ 0 then some (⟨v, hv⟩ : Node) else none) 0 Subtype.val = v
    rw [dif_pos hv]
    rfl

/-- The label `ret`, when the stack is not empty. -/
theorem sim_resume (hset : Scope g o h₀ S) {next : Node} {j : ℕ}
    (hheap : HeapRel g h₀ o.mode S a s.heap none) (hcur : cur.1 ∈ S) (hm : a.marked cur = true)
    (hj : a.pos cur = some j) (hlt : j < (slots g (h₀ cur)).length)
    (hentered : (splitHeader g (h₀ cur).header).tag = .stack → o.onStack = none)
    (hlabel : s.label = .ret next cur) : ∃ s', Steps g o s s' ∧ Kept s s' ∧
      Visiting g o h₀ S ((a.setPos cur none).setSlot cur j next) cur
        ((graph g o h₀).unlink (a.slot cur j)) (j + 1) s' := by
  have hoff : (slots g (h₀ cur))[j]? = some (slots g (h₀ cur))[j] := List.getElem?_eq_getElem hlt
  generalize (slots g (h₀ cur))[j] = off at hoff
  have hob := hheap.obj cur hcur
  have hslot : (s.heap cur).objptr off = a.slot cur j := hob.objptr j off hoff
  obtain ⟨c, hc, hheader⟩ := hob.header
  rw [hm] at hheader
  have hsplit : splitHeader g (s.heap cur).header = splitHeader g (h₀ cur).header := by
    rw [hheader, splitHeader_setMark _ _ hc]
  have hparked := hheap.parked cur hcur nofun
  rw [hj] at hparked
  have hstep : step g o s = some (resume g s next cur) := by
    simp only [step, hlabel, if_neg cur.2]
  have hm' : ((a.setPos cur none).setSlot cur j next).marked cur = true := hm
  have hpos' : ((a.setPos cur none).setSlot cur j next).pos cur = none := by
    simp [PointerReversal.Heap.setPos]
  cases ht : (splitHeader g (h₀ cur).header).tag with
  | normal =>
    simp only [Parked, ht] at hparked
    have hlt' : j < (splitHeader g (h₀ cur).header).numObjptrs := by
      rwa [slots_normal ht, List.length_map, List.length_range] at hlt
    obtain rfl : (splitHeader g (h₀ cur).header).bytesNonObjptrs + j * g.model.objptrSize = off := by
      rw [slots_normal ht, List.getElem?_map, List.getElem?_range hlt', Option.map_some] at hoff
      exact Option.some.inj hoff
    have hresume : resume g s next cur = { s with
        heap := s.heap.storeObjptr cur
          ((splitHeader g (h₀ cur).header).bytesNonObjptrs + j * g.model.objptrSize) next
        label := .markNextInNormal cur
          ((graph g o h₀).link ((graph g o h₀).unlink (a.slot cur j)))
          (GC.setMark (h₀ cur).header (markBit o.mode true) c) j
          ((splitHeader g (h₀ cur).header).bytesNonObjptrs + j * g.model.objptrSize) } := by
      simp only [resume, hsplit, ht, hparked.1, hslot, link_unlink]
      rw [hheader]
    rw [hresume] at hstep
    have hback := hheap.back hset hcur hoff next (some cur) (fun hne => absurd rfl hne)
    obtain ⟨s', hsteps, hkept, hs'⟩ := next_normal (s := { s with heap := _, label := _ })
      hset hcur hm' hpos' ht hlt' hback hc rfl
    exact ⟨s', .head hstep hsteps, ⟨hkept.aux, hkept.size, hkept.toContinue⟩, hs'⟩
  | array =>
    simp only [Parked, ht] at hparked
    obtain rfl : arrayOffset g.model (splitHeader g (h₀ cur).header) j = off := by
      have hlt' := hlt
      rw [slots_array ht, List.length_map, List.length_range] at hlt'
      rw [slots_array ht, List.getElem?_map, List.getElem?_range hlt', Option.map_some] at hoff
      exact Option.some.inj hoff
    have hresume : resume g s next cur = { s with
        heap := s.heap.storeObjptr cur (arrayOffset g.model (splitHeader g (h₀ cur).header) j) next
        label := .markNextInArray cur
          ((graph g o h₀).link ((graph g o h₀).unlink (a.slot cur j)))
          (GC.setMark (h₀ cur).header (markBit o.mode true) c)
          (j / (splitHeader g (h₀ cur).header).numObjptrs)
          (j % (splitHeader g (h₀ cur).header).numObjptrs)
          (arrayOffset g.model (splitHeader g (h₀ cur).header) j) } := by
      have htodo : j / (splitHeader g (h₀ cur).header).numObjptrs *
          ((splitHeader g (h₀ cur).header).bytesNonObjptrs
            + (splitHeader g (h₀ cur).header).numObjptrs * g.model.objptrSize)
          + ((splitHeader g (h₀ cur).header).bytesNonObjptrs
            + j % (splitHeader g (h₀ cur).header).numObjptrs * g.model.objptrSize) =
          arrayOffset g.model (splitHeader g (h₀ cur).header) j := rfl
      simp only [resume, hsplit, ht, hparked.1, hparked.2, htodo, hslot, link_unlink]
      rw [hheader]
    rw [hresume] at hstep
    have hback := hheap.back hset hcur hoff next (some cur) (fun hne => absurd rfl hne)
    obtain ⟨s', hsteps, hkept, hs'⟩ := next_array (s := { s with heap := _, label := _ })
      hset hcur hm' hpos' ht hoff hback hc rfl
    exact ⟨s', .head hstep hsteps, ⟨hkept.aux, hkept.size, hkept.toContinue⟩, hs'⟩
  | stack =>
    simp only [Parked, ht] at hparked
    obtain ⟨hcounter, harray, frameLayout, hframe, hindex⟩ := hparked
    have hlayout := hframe.layout
    rw [← hob.same.returnAddress] at hlayout
    cases (hframe.slot hindex).symm.trans hoff
    have hback := hheap.back hset hcur hoff next none (fun _ => ⟨hcounter, harray⟩)
    refine ⟨_, .single hstep, ?_, .inFrame (s.heap cur).markTop frameLayout
      ((s.heap cur).markIndex + 1) ht ?_ ?_ (hentered ht) (hframe.succ hindex) ?_⟩
    · simp only [resume, hsplit, ht]
      exact ⟨rfl, rfl, rfl⟩
    · simpa only [resume, hsplit, ht, hlayout] using hback
    · simp [resume, hsplit, ht, Heap.storeObjptr, Heap.modify]
    · simp only [resume, hsplit, ht, hlayout, hslot, link_unlink]
  | weak => simp only [Parked, ht] at hparked

/-! ### The simulation -/

/-- A slot that is followed leads to an object. -/
theorem follow_of_follows (hset : Scope g o h₀ S) (hcur : cur.1 ∈ S)
    (hoff : (slots g (h₀ cur))[j]? = some off)
    (hfollows : follows g o (h₀ cur) ((h₀ cur).objptr off) = true) :
    ∃ hne : (h₀ cur).objptr off ≠ 0,
      (graph g o h₀).follow cur ((h₀ cur).objptr off) = some ⟨(h₀ cur).objptr off, hne⟩ := by
  have hne := hset.nonnull cur hcur off (mem_of_getElem? hoff) hfollows
  refine ⟨hne, ?_⟩
  simp only [graph, dif_pos hne, if_pos hfollows]

theorem follows_of_follow {v : ℕ} {next : Node} (h : (graph g o h₀).follow cur v = some next) :
    v = next.1 ∧ follows g o (h₀ cur) v = true := by
  simp only [graph] at h
  split_ifs at h with hne hfollows
  cases h
  exact ⟨rfl, hfollows⟩

/-- The label `mark` is reached again through `markNext`. -/
theorem sim_leave (hset : Scope g o h₀ S)
    {next : Node} (hcur : cur.1 ∈ S) (hm : a.marked cur = true) (hpos : a.pos cur = none)
    (hoff : (slots g (h₀ cur))[j]? = some off) (hlook : Looking g o h₀ S a cur prev j off s)
    (hnext : (s.heap cur).objptr off = next)
    (hfollows : follows g o (h₀ cur) ((s.heap cur).objptr off) = true)
    (hmark : o.mode.mark ≠ (s.heap ((s.heap cur).objptr off)).header &&& MARK_MASK)
    (hne : next ≠ cur) : ((splitHeader g (h₀ cur).header).tag = .stack → o.onStack = none) ∧
    ∃ s', Steps g o s s' ∧ Kept s s' ∧
      HeapRel g h₀ o.mode S
        ((a.setPos cur (some j)).setSlot cur j ((graph g o h₀).link prev)) s'.heap none ∧
      s'.label = .mark next cur (s'.heap next).header := by
  obtain ⟨⟨scanned, hscanned, hheap⟩, hentered, ob, hleaving, hstep⟩ :=
    look_leave hset hcur hm hpos hoff hlook hfollows hmark
  refine ⟨hentered, _, .head hstep (.single rfl), ⟨rfl, rfl, rfl⟩,
    hheap.leave hset hscanned hcur hm hoff hleaving _, ?_⟩
  have hne' : next.1 ≠ cur.1 := fun heq => hne (Subtype.ext heq)
  simp [hnext, Heap.storeObjptr, Heap.modify, hne']

theorem sim (hset : Scope g o h₀ S) {a a' : PointerReversal.State Node ℕ σ}
    (hrev : PointerReversal.Reversed (graph g o h₀) (fun n => n.1 ∈ S) (heapOf g o h₀) a)
    (houtside : ∀ n : Node, n.1 ∉ S → a.heap.marked n = (heapOf g o h₀).marked n)
    (hrel : StateRel g o h₀ S a s)
    (hstep : PointerReversal.step (graph g o h₀) (visitor g o h₀) a = some a') :
    ∃ s', Steps g o s s' ∧ StateRel g o h₀ S a' s' := by
  obtain ⟨a, label, x, log⟩ := a
  cases label with
  | mark cur prev =>
    cases hstep
    exact sim_mark hset hrev hrel
  | visit cur prev j =>
    obtain ⟨hcur, hpos⟩ : cur.1 ∈ S ∧ a.pos cur = none := hrev.cur
    have hm : a.marked cur = true := hrev.visit cur prev j rfl
    obtain ⟨s₁, hsteps, hkept, hs₁⟩ := settle hset hcur hpos hrel.toContinue hrel.label
    rcases hs₁ with ⟨off, hoff, hlook⟩ | ⟨hlength, hfinished⟩
    · have hlt : j < (graph g o h₀).arity cur := (List.getElem?_eq_some_iff.1 hoff).1
      have hslot₀ : a.slot cur j = (h₀ cur).objptr off := by
        have horiginal : a.slot cur j = (heapOf g o h₀).slot cur j :=
          hrev.original cur j (by simp [hpos])
        rw [horiginal, heapOf_slot hoff]
      have hheap : ∃ scanned, HeapRel g h₀ o.mode S a s₁.heap scanned := by
        cases hlook with
        | normal _ _ _ _ hheap _ _ | array _ _ hheap _ _ | frame _ _ _ _ _ _ _ _ hheap _ _ =>
          exact ⟨_, hheap⟩
      obtain ⟨scanned, hheap⟩ := hheap
      have hslot : (s₁.heap cur).objptr off = a.slot cur j := (hheap.obj cur hcur).objptr j off hoff
      have hnext (hskip : follows g o (h₀ cur) ((s₁.heap cur).objptr off) = true →
          o.mode.mark = (s₁.heap ((s₁.heap cur).objptr off)).header &&& MARK_MASK) :
          ∃ s', Steps g o s s' ∧ StateRel g o h₀ S ⟨a, .visit cur prev (j + 1), x, log⟩ s' := by
        obtain ⟨s₂, hsteps₂, hkept₂, hs₂⟩ := look_skip hset hcur hm hpos hoff hlook hskip
        have hkept := hkept.trans hkept₂
        exact ⟨s₂, hsteps.trans hsteps₂, hkept.aux.trans hrel.aux, hkept.size.trans hrel.size,
          fun hstack => hkept.toContinue.trans (hrel.toContinue hstack), hrel.entered, hs₂⟩
      simp only [PointerReversal.step, if_pos hlt] at hstep
      cases hfollow : (graph g o h₀).follow cur (a.slot cur j) with
      | none =>
        rw [hfollow] at hstep
        cases hstep
        refine hnext fun hfollows => ?_
        rw [hslot, hslot₀] at hfollows
        obtain ⟨hne, hsome⟩ := follow_of_follows hset hcur hoff hfollows
        rw [hslot₀, hsome] at hfollow
        exact absurd hfollow (by simp)
      | some next =>
        rw [hfollow] at hstep
        obtain ⟨hv, hfollows⟩ := follows_of_follow hfollow
        have htarget : (s₁.heap cur).objptr off = next := by rw [hslot, hv]
        have hmarked := hheap.marked hset houtside next
        cases hmark : a.marked next with
        | true =>
          simp only [hmark, if_true] at hstep
          cases hstep
          refine hnext fun _ => ?_
          rw [htarget]
          exact hmarked.2 hmark
        | false =>
          simp only [hmark, Bool.false_eq_true, if_false] at hstep
          cases hstep
          have hunmarked : o.mode.mark ≠
              (s₁.heap ((s₁.heap cur).objptr off)).header &&& MARK_MASK := by
            rw [htarget]
            intro heq
            rw [hmarked.1 heq] at hmark
            exact Bool.noConfusion hmark
          have hne : next ≠ cur := by
            rintro rfl
            rw [hm] at hmark
            exact Bool.noConfusion hmark
          rw [← hslot] at hfollows
          obtain ⟨hentered, s₂, hsteps₂, hkept₂, hheap₂, hlabel₂⟩ :=
            sim_leave hset hcur hm hpos hoff hlook htarget hfollows hunmarked hne
          have hkept := hkept.trans hkept₂
          refine ⟨s₂, hsteps.trans hsteps₂, hkept.aux.trans hrel.aux, hkept.size.trans hrel.size,
            fun hstack => hkept.toContinue.trans (hrel.toContinue hstack), fun n i hi ht => ?_,
            hheap₂, hlabel₂⟩
          by_cases hn : n = cur
          · subst hn
            exact hentered ht
          · exact hrel.entered n i (by simpa [PointerReversal.Heap.setPos, hn] using hi) ht
    · have hge : ¬ j < (graph g o h₀).arity cur := not_lt.2 hlength
      simp only [PointerReversal.step, if_neg hge] at hstep
      cases hstep
      exact ⟨s₁, hsteps, hkept.aux.trans hrel.aux, hkept.size.trans hrel.size,
        fun hstack => hkept.toContinue.trans (hrel.toContinue hstack), hrel.entered, hfinished⟩
  | ret next prev =>
    cases prev with
    | none => simp [PointerReversal.step] at hstep
    | some cur =>
      cases hj : a.pos cur with
      | none => simp [PointerReversal.step, hj] at hstep
      | some j =>
        simp only [PointerReversal.step, hj] at hstep
        cases hstep
        obtain ⟨hcur, hm, hlt⟩ := hrev.left cur j hj
        obtain ⟨hheap, hlabel⟩ := hrel.label
        obtain ⟨s', hsteps, hkept, hs'⟩ := sim_resume hset hheap hcur hm hj hlt
          (hrel.entered cur j hj) hlabel
        refine ⟨s', hsteps, hkept.aux.trans hrel.aux, hkept.size.trans hrel.size,
          fun hstack => hkept.toContinue.trans (hrel.toContinue hstack), fun n i hi => ?_, hs'⟩
        have hn : n ≠ cur := fun heq => by simp [heq, PointerReversal.Heap.setPos] at hi
        exact hrel.entered n i (by simpa [PointerReversal.Heap.setPos, hn] using hi)

/-! ### Whole runs -/

/-- The machine stays inside `S`. -/
theorem sim_run (hset : Scope g o h₀ S) {a a' : PointerReversal.State Node ℕ σ}
    (hsteps : PointerReversal.StepsIn (graph g o h₀) (fun n => n.1 ∈ S) (visitor g o h₀) a a')
    (hrev : PointerReversal.Reversed (graph g o h₀) (fun n => n.1 ∈ S) (heapOf g o h₀) a)
    (houtside : ∀ n : Node, n.1 ∉ S → a.heap.marked n = (heapOf g o h₀).marked n)
    (hrel : StateRel g o h₀ S a s) : ∃ s', Steps g o s s' ∧ StateRel g o h₀ S a' s' ∧
      PointerReversal.Reversed (graph g o h₀) (fun n => n.1 ∈ S) (heapOf g o h₀) a' ∧
      ∀ n : Node, n.1 ∉ S → a'.heap.marked n = (heapOf g o h₀).marked n := by
  induction hsteps with
  | refl => exact ⟨s, .refl, hrel, hrev, houtside⟩
  | tail _ hstep ih =>
    obtain ⟨s₁, hsteps₁, hrel₁, hrev₁, houtside₁⟩ := ih
    obtain ⟨s₂, hsteps₂, hrel₂⟩ := sim hset hrev₁ houtside₁ hrel₁ hstep.1
    refine ⟨s₂, hsteps₁.trans hsteps₂, hrel₂, hrev₁.step hstep.1 hstep.2, fun n hn => ?_⟩
    rw [hrev₁.marked_eq hstep.1 hn, houtside₁ n hn]

/-- A run that ends needs a certain number of steps, and more do not change it. -/
theorem run_of_steps {s s' : State w σ} (hsteps : Steps g o s s') (hend : step g o s' = none) :
    ∃ fuel₀, ∀ fuel, fuel₀ ≤ fuel → run g o fuel s = some s' := by
  induction hsteps using Relation.ReflTransGen.head_induction_on with
  | refl =>
    refine ⟨1, fun fuel hfuel => ?_⟩
    obtain ⟨n, rfl⟩ : ∃ n, fuel = n + 1 := ⟨fuel - 1, by omega⟩
    simp only [run, hend]
  | head hstep _ ih =>
    obtain ⟨fuel₀, ih⟩ := ih
    refine ⟨fuel₀ + 1, fun fuel hfuel => ?_⟩
    obtain ⟨n, rfl⟩ : ∃ n, fuel = n + 1 := ⟨fuel - 1, by omega⟩
    simp only [run, hstep]
    exact ih n (by omega)

/-- What marking leaves of an object: its header with the mark, and the rest. -/
structure Marked (mode : MarkMode) (ob₀ ob : Obj w) (m : Bool) : Prop where
  same : SameFields ob₀ ob
  header : ob.header = GC.setMark ob₀.header (markBit mode m) 0
  objptr : ob.objptr = ob₀.objptr
  arrayCounter : ob.arrayCounter = ob₀.arrayCounter

variable (g o h₀) in
/-- What a run has done when its search has come to an end. -/
structure Ran (S : Finset ℕ) (weaks : ℕ) (x : σ) (root : ℕ) (l : List (Node × Bool)) (y : σ)
    (r : DfsResult w σ) : Prop where
  run : ∃ fuel₀, ∀ fuel, fuel₀ ≤ fuel → dfsMarkByMode g o fuel h₀ weaks x root = some r
  aux : r.aux = y
  size : r.size = bytesOf g o h₀ l
  outside : ∀ p, p ∉ S → r.heap p = h₀ p
  marked : ∀ n : Node, n.1 ∈ S → Marked o.mode (h₀ n) (r.heap n)
    (((heapOf g o h₀).markAll l).marked n)

/-- The heap in which a run begins. -/
theorem HeapRel.start (hset : Scope g o h₀ S) : HeapRel g h₀ o.mode S (heapOf g o h₀) h₀ none := by
  refine ⟨fun n hn => ⟨⟨rfl, rfl, rfl, rfl, rfl, rfl, rfl⟩, ⟨0, by decide, ?_⟩, ?_,
    fun _ _ => rfl, fun _ => rfl⟩, fun n hn _ => ⟨(hset.wellFormed n hn).counter, rfl⟩,
    fun _ _ => rfl⟩
  · have hbit : markBit o.mode ((heapOf g o h₀).marked n) = isMarked (h₀ n).header := by
      cases hmode : o.mode <;> simp [heapOf, hmode, markBit, isPointerMarkedByMode]
    rw [hbit, setMark_self _ (hset.wellFormed n hn).counter]
  · exact fun j off hoff => (heapOf_slot hoff).symm

/-- The heap in which a run ends. -/
theorem HeapRel.marked_of_markAll (hset : Scope g o h₀ S) {l : List (Node × Bool)}
    (hheap : HeapRel g h₀ o.mode S ((heapOf g o h₀).markAll l) h none) {n : Node} (hn : n.1 ∈ S) :
    Marked o.mode (h₀ n) (h n) (((heapOf g o h₀).markAll l).marked n) := by
  have hob := hheap.obj n hn
  have hparked : getCounter (h n).header = 0 ∧ (h n).arrayCounter = _ :=
    hheap.parked n hn (by simp)
  obtain ⟨c, hc, hheader⟩ := hob.header
  have hzero : c = 0 := by
    rw [← hparked.1, hheader, getCounter_setMark _ _ hset.width hc]
  refine ⟨hob.same, hzero ▸ hheader, funext fun off => ?_, hparked.2⟩
  by_cases hoff : off ∈ slots g (h₀ n)
  · obtain ⟨j, hj⟩ := getElem?_of_mem hoff
    rw [hob.objptr j off hj]
    exact heapOf_slot (o := o) hj
  · exact hob.others off hoff

/-- `dfsMarkByMode` on a root that is not marked, when the objects of `S` point into `T`: either the
search stays in `S`, and the run ends when it does, or the code comes to an object outside `S`. -/
theorem dfsMarkByMode_explores (hset : Scope g o h₀ S) {T : Finset ℕ} (hsub : S ⊆ T)
    (hedge : ∀ n : Node, n.1 ∈ S → ∀ b, PointerReversal.Edge (graph g o h₀) (heapOf g o h₀) n b →
      b.1 ∈ T)
    {root : Node} (hroot : root.1 ∈ S)
    (hunmarked : isPointerMarkedByMode (h₀ root).header o.mode = false)
    (hlocal : (o.ignoreSharedHeap && isPointerInSharedHeap g root) = false) (weaks : ℕ) (x : σ) :
    ∃ l y, PointerReversal.Search ((graph g o h₀).inside fun n => n.1 ∈ S) (visitor g o h₀)
        (heapOf g o h₀) [root] x l y ∧
      (∀ n ∈ l.map Prod.fst, n.1 ∈ T) ∧
      ((∀ n ∈ l.map Prod.fst, n.1 ∈ S) ∧ (∃ r, Ran g o h₀ S weaks x root l y r) ∨
        ∃ n ∈ l.map Prod.fst, n.1 ∉ S ∧ ∃ s prev,
          Steps g o ⟨h₀, weaks, x, 0, true, .mark root 0 (h₀ root).header⟩ s ∧
          s.label = .mark n prev (h₀ n).header ∧ s.heap n = h₀ n) := by
  have hclosed : PointerReversal.Closed ((graph g o h₀).inside fun n => n.1 ∈ S) (heapOf g o h₀)
      (T.subtype fun p => p ≠ 0) := by
    intro n _ _ b hb
    obtain ⟨hn, hb⟩ := PointerReversal.edge_inside.1 hb
    exact mem_subtype.2 (hedge n hn b hb)
  have hmem : ∀ n ∈ [root], n ∈ T.subtype fun p => p ≠ 0 :=
    forall_mem_singleton.2 (mem_subtype.2 (hsub hroot))
  obtain ⟨l, y, hs⟩ := PointerReversal.Search.total hclosed hmem (visitor g o h₀) x
  have hrev := PointerReversal.Reversed.start (G := graph g o h₀) (P := fun n => n.1 ∈ S)
    (heapOf g o h₀) (fun _ => rfl) hroot hunmarked x []
  have hrel : StateRel g o h₀ S ⟨heapOf g o h₀, .mark root none, x, []⟩
      ⟨h₀, weaks, x, 0, true, .mark root 0 (h₀ root).header⟩ :=
    ⟨rfl, rfl, fun _ => rfl, fun _ _ hpos => (by cases hpos), .start hset, rfl⟩
  refine ⟨l, y, hs, fun n hn => mem_subtype.1 (hs.searched.mem hclosed hmem n hn), ?_⟩
  rcases hs.run (G := graph g o h₀) (P := fun n => n.1 ∈ S)
    (fun a ha h => PointerReversal.childrenFrom_inside (P := fun n : Node => n.1 ∈ S) ha h 0)
    (fun _ _ => rfl) hroot hunmarked with
      ⟨hall, hsteps⟩ | ⟨n, hmem, hn, u, v, prev, hsteps, hstep, hlabel⟩
  · obtain ⟨s', hsteps', hrel', -, -⟩ := sim_run hset hsteps hrev (fun _ _ => rfl) hrel
    obtain ⟨hheap', hlabel'⟩ := hrel'.label
    have hreturn : step g o s' = some { s' with label := .return } := by
      rw [step, hlabel']
      exact if_pos rfl
    obtain ⟨fuel₀, hrun⟩ := run_of_steps (hsteps'.trans (.single hreturn)) rfl
    refine .inl ⟨hall, ⟨s'.heap, s'.weaks, s'.aux, s'.size⟩, ⟨fuel₀, fun fuel hfuel => ?_⟩,
      hrel'.aux, hrel'.size, hheap'.outside, fun n hn => hheap'.marked_of_markAll hset hn⟩
    simp only [dfsMarkByMode, hunmarked, hlocal, hrun fuel hfuel, Bool.false_eq_true, if_false,
      Option.map_some]
  · obtain ⟨s₁, hsteps₁, hrel₁, hrev₁, houtside₁⟩ := sim_run hset hsteps hrev (fun _ _ => rfl) hrel
    obtain ⟨s₂, hsteps₂, hrel₂⟩ := sim hset hrev₁ houtside₁ hrel₁ hstep
    have hlabel₂ := hrel₂.label
    rw [LabelRel, hlabel] at hlabel₂
    obtain ⟨hheap₂, hlabel₂⟩ := hlabel₂
    rw [hheap₂.outside n hn] at hlabel₂
    exact .inr ⟨n, hmem, hn, s₂, _, hsteps₁.trans hsteps₂, hlabel₂, hheap₂.outside n hn⟩

/-- `dfsMarkByMode` on a root that is not marked: it ends, the objects are as they were up to the
marks, and the visited objects are those of a search. -/
theorem dfsMarkByMode_search (hset : Setting g o h₀ S) {root : Node} (hroot : root.1 ∈ S)
    (hunmarked : isPointerMarkedByMode (h₀ root).header o.mode = false)
    (hlocal : (o.ignoreSharedHeap && isPointerInSharedHeap g root) = false) (weaks : ℕ) (x : σ) :
    ∃ l y r fuel₀, (∀ fuel, fuel₀ ≤ fuel → dfsMarkByMode g o fuel h₀ weaks x root = some r) ∧
      PointerReversal.Visits (visitor g o h₀) x l y ∧
      PointerReversal.Searched (graph g o h₀) (heapOf g o h₀) (· = root) l ∧
      r.aux = y ∧ r.size = bytesOf g o h₀ l ∧ (∀ p, p ∉ S → r.heap p = h₀ p) ∧
      ∀ n : Node, n.1 ∈ S → Marked o.mode (h₀ n) (r.heap n)
        (((heapOf g o h₀).markAll l).marked n) := by
  obtain ⟨l, y, hs, hall, ⟨-, r, ⟨fuel₀, hrun⟩, haux, hsize, hothers, hmarked⟩ | ⟨n, hn, hout, -⟩⟩ :=
    dfsMarkByMode_explores hset.scope subset_rfl hset.edge hroot hunmarked hlocal weaks x
  · have hs' : PointerReversal.Search (graph g o h₀) (visitor g o h₀) (heapOf g o h₀) [root] x l y :=
      hs.congr rfl (fun a ha => (PointerReversal.childrenFrom_inside (P := fun n : Node => n.1 ∈ S)
        (hall a ha) _ 0).symm) fun _ _ _ => rfl
    exact ⟨l, y, r, fuel₀, hrun, hs.visits, hs'.searched.mono fun a => List.mem_singleton, haux, hsize,
      hothers, hmarked⟩
  · exact absurd (hall n hn) hout

/-! ### Objects that differ by their marks -/

section

variable {mode : MarkMode} {ob₀ ob : Obj w} {m : Bool}

theorem Marked.layout (hob : Marked mode ob₀ ob m) : SameLayout g ob₀ ob where
  splitHeader := by rw [hob.header, splitHeader_setMark _ _ (by decide)]
  arrayLength := hob.same.arrayLength
  used := hob.same.used
  returnAddress := hob.same.returnAddress

theorem Marked.follows_eq (hob : Marked mode ob₀ ob m) (v : ℕ) :
    follows g o ob v = follows g o ob₀ v := by
  rw [follows, follows, hob.layout.splitHeader, hob.same.isParasitic]

theorem Marked.wellFormed (hob : Marked mode ob₀ ob m) (hw : 32 ≤ w)
    (hwf : ob₀.WellFormed g) : ob.WellFormed g := by
  refine hob.layout.wellFormed ?_ hob.arrayCounter hwf
  rw [hob.header, getCounter_setMark _ _ hw (by decide)]

end

/-! ### Paths -/

variable (g o) in
/-- Marking goes from an object to another one. -/
def Scans (h : Heap w) (p q : ℕ) : Prop :=
  ∃ off ∈ slots g (h p), (h p).objptr off = q ∧ follows g o (h p) q = true

theorem isPointer_of_follows {v : ℕ} (hfollows : follows g o ob v = true) : isPointer v = true := by
  simp only [follows, notFollowed, Bool.not_or, Bool.not_not, Bool.and_eq_true] at hfollows
  exact hfollows.1.1

/-- Edges of the search are pointers that marking goes through. -/
theorem scans_of_edge {n n' : Node}
    (hedge : PointerReversal.Edge (graph g o h₀) (heapOf g o h₀) n n') : Scans g o h₀ n n' := by
  obtain ⟨i, -, hi, hfollow⟩ := hedge
  have hoff : (slots g (h₀ n))[i]? = some (slots g (h₀ n))[i] := List.getElem?_eq_getElem hi
  rw [heapOf_slot hoff] at hfollow
  obtain ⟨hv, hfollows⟩ := follows_of_follow hfollow
  refine ⟨_, getElem_mem hi, hv, ?_⟩
  rwa [hv] at hfollows

theorem Scope.edge_of_scans (hset : Scope g o h₀ S) {n : Node} (hn : n.1 ∈ S) {q : ℕ}
    (hscans : Scans g o h₀ n q) :
    ∃ n' : Node, n'.1 = q ∧ PointerReversal.Edge (graph g o h₀) (heapOf g o h₀) n n' := by
  obtain ⟨off, hoff, rfl, hfollows⟩ := hscans
  obtain ⟨i, hi⟩ := getElem?_of_mem hoff
  obtain ⟨hne, hfollow⟩ := follow_of_follows hset hn hi hfollows
  refine ⟨⟨_, hne⟩, rfl, i, Nat.zero_le i, (List.getElem?_eq_some_iff.1 hi).1, ?_⟩
  rw [heapOf_slot hi]
  exact hfollow

theorem edge_of_scans (hset : Setting g o h₀ S) {n : Node} (hn : n.1 ∈ S) {q : ℕ}
    (hscans : Scans g o h₀ n q) :
    ∃ n' : Node, n'.1 = q ∧ n'.1 ∈ S ∧ PointerReversal.Edge (graph g o h₀) (heapOf g o h₀) n n' := by
  obtain ⟨n', hn', hedge⟩ := hset.scope.edge_of_scans hn hscans
  exact ⟨n', hn', hset.edge n hn n' hedge, hedge⟩

/-- Paths of the search, when everything that can be reached is unmarked. -/
theorem white_path_iff (hset : Setting g o h₀ S) {root : Node} (hroot : root.1 ∈ S)
    (hwhite : ∀ p ∈ S, Relation.ReflTransGen (Scans g o h₀) root p →
      isPointerMarkedByMode (h₀ p).header o.mode = false) {p : ℕ} :
    (∃ n : Node, n.1 = p ∧ Relation.ReflTransGen
      (PointerReversal.White (graph g o h₀) (heapOf g o h₀)) root n) ↔
      Relation.ReflTransGen (Scans g o h₀) root p := by
  constructor
  · rintro ⟨n, rfl, hpath⟩
    exact hpath.lift Subtype.val fun _ _ hab => scans_of_edge hab.2
  · intro hpath
    have hmem : ∃ n : Node, n.1 = p ∧ n.1 ∈ S ∧ Relation.ReflTransGen
        (PointerReversal.White (graph g o h₀) (heapOf g o h₀)) root n := by
      induction hpath with
      | refl => exact ⟨root, rfl, hroot, .refl⟩
      | tail hpath hscans ih =>
        obtain ⟨n, rfl, hn, hwhitePath⟩ := ih
        obtain ⟨n', hn', hmem, hedge⟩ := edge_of_scans hset hn hscans
        exact ⟨n', hn', hmem, hwhitePath.tail ⟨hwhite n hn hpath, hedge⟩⟩
    obtain ⟨n, hn, -, hwhitePath⟩ := hmem
    exact ⟨n, hn, hwhitePath⟩

theorem scans_eq {h' : Heap w} {marked : ℕ → Bool}
    (hothers : ∀ p, p ∉ S → h' p = h p) (hob : ∀ p ∈ S, Marked mode (h p) (h' p) (marked p)) :
    Scans g o h' = Scans g o h := by
  funext p q
  by_cases hp : p ∈ S
  · have hp' := hob p hp
    simp only [Scans, hp'.follows_eq, hp'.layout.slots, hp'.objptr]
  · simp only [Scans, hothers p hp]

end DfsMark

end MultiMLton.GC
