import Mathlib.Data.List.Range
import Mathlib.Tactic

/-!
# Objects in a heap of the runtime

The sizes of objects and the places of their object pointers, from `gc/object-size.c`,
`gc/align.c` and `gc/foreach.c`.  A `Shape` is what the header, the array length and the stack
fields of an object say; its data are not part of it.
-/

namespace MultiMLton.GC

open Nat

universe u

variable {σ : Type u}

/-- The native models: pointers, headers and array lengths have one size.  The compiler aligns
objects at 4 or 8 bytes. -/
structure Model where
  objptrSize : ℕ
  alignment : ℕ
  objptrSize_eq : objptrSize = 4 ∨ objptrSize = 8
  alignment_eq : alignment = 4 ∨ alignment = 8

namespace Model

/-- 8 bytes are allowed for both. -/
theorem eight_eq : 8 = 4 ∨ 8 = 8 := .inr rfl

variable (m : Model)

/-- `GC_HEADER_SIZE` -/
def headerSize : ℕ := m.objptrSize

/-- `GC_ARRAY_HEADER_SIZE`: counter, length and header. -/
def arrayHeaderSize : ℕ := 3 * m.objptrSize

/-- `sizeof (struct GC_stack)`: `markTop`, `markIndex`, `reserved`, `used`, `thread` and
`isParasitic`. -/
def stackStructSize : ℕ := 6 * m.objptrSize

/-- The offset of `thread` in `struct GC_stack`. -/
def threadOffset : ℕ := 4 * m.objptrSize

end Model

/-- `align`: `a += b - 1; a &= -b` for a power of two `b`. -/
def align (a b : ℕ) : ℕ := (a + (b - 1)) / b * b

/-- `alignWithExtra` -/
def alignWithExtra (m : Model) (bytes extra : ℕ) : ℕ := align (bytes + extra) m.alignment - extra

/-- `alignFrontier` -/
def alignFrontier (m : Model) (p : ℕ) : ℕ := alignWithExtra m p m.headerSize

/-- `GC_frameLayout` -/
structure FrameLayout where
  offsets : List ℕ
  size : ℕ

/-- What a header and the words that give an object its size say.  The frames of a stack are those
its return addresses give, from the top to the bottom. -/
inductive Shape
  | normal (bytesNonObjptrs numObjptrs : ℕ)
  | weak (bytesNonObjptrs numObjptrs : ℕ)
  | array (numElements bytesNonObjptrs numObjptrs : ℕ)
  | stack (reserved : ℕ) (frames : List FrameLayout)
  | headerOnly
  | fill (bytes : ℕ)

/-- The bytes before the data, that is `advanceToObjectData`. -/
def headerBytes (m : Model) : Shape → ℕ
  | .array .. => m.arrayHeaderSize
  | _ => m.headerSize

/-- `sizeofArrayNoHeader` -/
def sizeofArrayNoHeader (m : Model) (numElements bytesNonObjptrs numObjptrs : ℕ) : ℕ :=
  let result := numElements * (bytesNonObjptrs + numObjptrs * m.objptrSize)
  let result := if result < m.objptrSize then m.objptrSize else result
  alignWithExtra m result m.arrayHeaderSize

/-- `sizeofObjectNoHeader`; `GC_SMALL_GAP_SIZE_SIZE` is 4. -/
def sizeofObjectNoHeader (m : Model) : Shape → ℕ
  | .normal bytesNonObjptrs numObjptrs => bytesNonObjptrs + numObjptrs * m.objptrSize
  | .weak bytesNonObjptrs numObjptrs => bytesNonObjptrs + numObjptrs * m.objptrSize
  | .array numElements bytesNonObjptrs numObjptrs =>
    sizeofArrayNoHeader m numElements bytesNonObjptrs numObjptrs
  | .stack reserved _ => m.stackStructSize + reserved
  | .headerOnly => 0
  | .fill bytes => 4 + bytes

/-- `sizeofObject` -/
def sizeofObject (m : Model) (o : Shape) : ℕ := headerBytes m o + sizeofObjectNoHeader m o

/-- The pointers `p` of `for ( ; p < max; p += OBJPTR_SIZE)`, where `max` is `n` pointers away. -/
def objptrRange (m : Model) (p n : ℕ) : List ℕ := (List.range n).map fun i => p + i * m.objptrSize

/-- The slots of the frames below `top`. -/
def frameSlots : ℕ → List FrameLayout → List ℕ
  | _, [] => []
  | top, layout :: frames =>
    layout.offsets.map (top - layout.size + ·) ++ frameSlots (top - layout.size) frames

/-- `stack->used` -/
def stackUsed (frames : List FrameLayout) : ℕ := (frames.map FrameLayout.size).sum

/-- The slots that `foreachObjptrInObject` goes through, in its order, for an object with data at
`p`.  The thread of a stack is traced except in a collection of the shared heap. -/
def objptrSlots (m : Model) (skipWeaks : Bool) (p : ℕ) : Shape → List ℕ
  | .normal bytesNonObjptrs numObjptrs => objptrRange m (p + bytesNonObjptrs) numObjptrs
  | .weak bytesNonObjptrs numObjptrs =>
    if numObjptrs = 1 ∧ ¬ skipWeaks then [p + bytesNonObjptrs] else []
  | .array numElements bytesNonObjptrs numObjptrs =>
    let bytesPerElement := bytesNonObjptrs + numObjptrs * m.objptrSize
    if numElements * bytesPerElement < m.objptrSize then []
    else if numObjptrs = 0 then []
    else if bytesNonObjptrs = 0 then objptrRange m p (numElements * numObjptrs)
    else (List.range numElements).flatMap fun i =>
      objptrRange m (p + i * bytesPerElement + bytesNonObjptrs) numObjptrs
  | .stack _ frames =>
    (p + m.threadOffset) :: frameSlots (p + m.stackStructSize + stackUsed frames) frames
  | .headerOnly => []
  | .fill _ => []

/-- Where `foreachObjptrInObject` says that the object ends. -/
def objectEnd (m : Model) (p : ℕ) : Shape → ℕ
  | .normal bytesNonObjptrs numObjptrs => p + bytesNonObjptrs + numObjptrs * m.objptrSize
  | .weak bytesNonObjptrs numObjptrs =>
    p + bytesNonObjptrs + if numObjptrs = 1 then m.objptrSize else 0
  | .array numElements bytesNonObjptrs numObjptrs =>
    let dataBytes := numElements * (bytesNonObjptrs + numObjptrs * m.objptrSize)
    p + alignWithExtra m (if dataBytes < m.objptrSize then m.objptrSize else dataBytes)
      m.arrayHeaderSize
  | .stack reserved _ => p + m.stackStructSize + reserved
  | .headerOnly => p
  | .fill bytes => p + 4 + bytes

/-- `callIfIsObjptr` -/
def callIfIsObjptr (isObjptr : σ → ℕ → Bool) (f : σ → ℕ → σ) (s : σ) (opp : ℕ) : σ :=
  if isObjptr s opp then f s opp else s

def foreachObjptrInObject (m : Model) (isObjptr : σ → ℕ → Bool) (f : σ → ℕ → σ) (skipWeaks : Bool)
    (s : σ) (o : Shape) (p : ℕ) : σ × ℕ :=
  ((objptrSlots m skipWeaks p o).foldl (callIfIsObjptr isObjptr f) s, objectEnd m p o)

/-- An object is as long as the alignment asks, and a weak object has at most one pointer. -/
structure Shape.WellFormed (m : Model) (o : Shape) : Prop where
  aligned : m.alignment ∣ sizeofObject m o
  weak : ∀ bytesNonObjptrs numObjptrs, o = .weak bytesNonObjptrs numObjptrs → numObjptrs ≤ 1

theorem objectEnd_eq {m : Model} {o : Shape} (h : o.WellFormed m) (p : ℕ) :
    objectEnd m p o = p + sizeofObjectNoHeader m o := by
  cases o with
  | weak bytesNonObjptrs numObjptrs =>
    have hle := h.weak _ _ rfl
    rcases le_one_iff_eq_zero_or_eq_one.1 hle with rfl | rfl <;>
      simp [objectEnd, sizeofObjectNoHeader, add_assoc]
  | array numElements bytesNonObjptrs numObjptrs => rfl
  | headerOnly => rfl
  | _ => simp [objectEnd, sizeofObjectNoHeader, add_assoc]

theorem sizeofObject_pos (m : Model) (o : Shape) : 0 < sizeofObject m o := by
  have hheader : 0 < headerBytes m o := by
    rcases m.objptrSize_eq with h | h <;>
      cases o <;> simp [headerBytes, Model.headerSize, Model.arrayHeaderSize, h]
  exact Nat.add_pos_left hheader _

theorem le_align {a b : ℕ} (hb : 0 < b) : a ≤ align a b := by
  unfold align
  have := div_add_mod (a + (b - 1)) b
  have := mod_lt (a + (b - 1)) hb
  rw [mul_comm]
  omega

theorem align_lt {a b : ℕ} (hb : 0 < b) : align a b < a + b := by
  unfold align
  have := div_mul_le_self (a + (b - 1)) b
  omega

theorem dvd_align (a b : ℕ) : b ∣ align a b := Dvd.intro_left _ rfl

end MultiMLton.GC
