import Mathlib.Data.List.Forall2
import MultiMLton.Atoms.Prim

/-!
# What primitives compute

The meaning of the primitives on bit vectors and integers, and what it takes for an answer of
`Prim.apply` to agree with it.

* `Prim.eval`: the value of an application, or its overflow, where the primitive is defined;
* `Prim.Sound`: for all values of the variables, the answer of `apply` has the value of the
  application.
-/

namespace MultiMLton.Atoms

open Option

/-- The values that primitives work on. Objects in the heap are known by their addresses. -/
inductive Value (κ : Type)
  | word (s : WordSize) (b : BitVec s.bits)
  | cpointer (s : WordSize) (b : BitVec s.bits)
  | intInf (i : ℤ)
  | real (s : RealSize) (x : RealOf s)
  | wordVector (v : WordXVector)
  | con (c : Con κ) (arg : Option ℕ)
  | object (address : ℕ)
  deriving DecidableEq

/-- What an application comes to. -/
inductive Outcome (κ : Type)
  | value (v : Value κ)
  | overflow
  deriving DecidableEq

variable {ν κ β : Type}

namespace Value

def bool (b : Bool) : Value κ := .con (.bool b) none

def ofWordX (w : WordX) : Value κ := .word w.size w.bv

/-- The bits of a word of size `s`. -/
def toWord (s : WordSize) : Value κ → Option (BitVec s.bits)
  | .word s' b => if h : s' = s then some (h ▸ b) else none
  | _ => none

/-- The address in a pointer of size `s`. -/
def toPointer (s : WordSize) : Value κ → Option (BitVec s.bits)
  | .cpointer s' b => if h : s' = s then some (h ▸ b) else none
  | _ => none

def toIntInf : Value κ → Option ℤ
  | .intInf i => some i
  | _ => none

/-- The number of a real of size `s`. -/
def toReal (s : RealSize) : Value κ → Option (RealOf s)
  | .real s' x => if h : s' = s then some (h ▸ x) else none
  | _ => none

def toWordVector : Value κ → Option WordXVector
  | .wordVector v => some v
  | _ => none

theorem toWord_eq_some {s : WordSize} {v : Value κ} {b : BitVec s.bits} :
    v.toWord s = some b ↔ v = .word s b := by
  constructor
  · intro h
    cases v with
    | word s' b' =>
      simp only [toWord] at h
      split_ifs at h with hs
      subst hs
      simpa using h
    | _ => simp [toWord] at h
  · rintro rfl
    simp [toWord]

theorem toPointer_eq_some {s : WordSize} {v : Value κ} {b : BitVec s.bits} :
    v.toPointer s = some b ↔ v = .cpointer s b := by
  constructor
  · intro h
    cases v with
    | cpointer s' b' =>
      simp only [toPointer] at h
      split_ifs at h with hs
      subst hs
      simpa using h
    | _ => simp [toPointer] at h
  · rintro rfl
    simp [toPointer]

theorem toReal_eq_some {s : RealSize} {v : Value κ} {x : RealOf s} :
    v.toReal s = some x ↔ v = .real s x := by
  constructor
  · intro h
    cases v with
    | real s' x' =>
      simp only [toReal] at h
      split_ifs at h with hs
      subst hs
      simpa using h
    | _ => simp [toReal] at h
  · rintro rfl
    simp [toReal]

theorem toIntInf_eq_some {v : Value κ} {i : ℤ} : v.toIntInf = some i ↔ v = .intInf i := by
  cases v <;> simp [toIntInf]

theorem toWordVector_eq_some {v : Value κ} {l : WordXVector} :
    v.toWordVector = some l ↔ v = .wordVector l := by
  cases v <;> simp [toWordVector]

end Value

/-- `MLton_eq` and `MLton_equal`. The first compares pointers and the second structures; both
depend on the heap, and of both the folder relies only on what is required here. -/
structure Equality (κ : Type) where
  eq : Value κ → Value κ → Bool
  equal : Value κ → Value κ → Bool
  eq_refl : ∀ v, eq v v = true
  eq_word : ∀ w w' : WordX, eq (.ofWordX w) (.ofWordX w') = decide (w = w')
  eq_con : ∀ c c' arg arg', c ≠ c' → eq (.con c arg) (.con c' arg') = false
  equal_refl : ∀ v, equal v v = true
  equal_word : ∀ w w' : WordX, equal (.ofWordX w) (.ofWordX w') = decide (w = w')
  equal_con : ∀ c c' arg arg', c ≠ c' → equal (.con c arg) (.con c' arg') = false
  equal_intInf : ∀ i i', equal (.intInf i) (.intInf i') = decide (i = i')
  equal_wordVector : ∀ v v', equal (.wordVector v) (.wordVector v') = decide (v = v')

theorem Value.ofWordX_inj {w w' : WordX} : (ofWordX w : Value κ) = ofWordX w' ↔ w = w' := by
  refine ⟨fun h => ?_, fun h => h ▸ rfl⟩
  rw [← WordX.ofBits_bv w, ← WordX.ofBits_bv w']
  simp only [ofWordX, Value.word.injEq] at h
  obtain ⟨hsize, hbits⟩ := h
  congr

/-- Objects are equal when they are the same object. -/
def Equality.byValue [DecidableEq κ] : Equality κ where
  eq v v' := decide (v = v')
  equal v v' := decide (v = v')
  eq_refl := by simp
  eq_word := by simp [Value.ofWordX_inj]
  eq_con := by simp +contextual
  equal_refl := by simp
  equal_word := by simp [Value.ofWordX_inj]
  equal_con := by simp +contextual
  equal_intInf := by simp
  equal_wordVector := by simp

/-- What primitives depend on besides their arguments: the heap and the rounding mode. -/
structure Runtime (κ : Type) extends Equality κ where
  mode : RoundingMode

/-- Whether an integer is one of the words with `n` bits. -/
def Fits (n : ℕ) (signed : Bool) (i : ℤ) : Prop :=
  if signed then -2 ^ (n - 1) ≤ i ∧ i < 2 ^ (n - 1) else 0 ≤ i ∧ i < 2 ^ n

instance (n : ℕ) (signed : Bool) (i : ℤ) : Decidable (Fits n signed i) := by
  unfold Fits
  split <;> infer_instance

namespace Prim

open Value

variable (T : Target) (E : Runtime κ)

def returns (v : Value κ) : Option (Outcome κ) := some (.value v)

def wordUnary (s : WordSize) (f : BitVec s.bits → BitVec s.bits) (v : Value κ) :
    Option (Outcome κ) := do
  returns (.word s (f (← v.toWord s)))

def wordBinary (s : WordSize) (f : BitVec s.bits → BitVec s.bits → BitVec s.bits)
    (v v' : Value κ) : Option (Outcome κ) := do
  returns (.word s (f (← v.toWord s) (← v'.toWord s)))

/-- A division, which is not defined on a zero divisor. -/
def wordDivision (s : WordSize) (f : BitVec s.bits → BitVec s.bits → BitVec s.bits)
    (v v' : Value κ) : Option (Outcome κ) := do
  let a ← v.toWord s
  let b ← v'.toWord s
  if b = 0#s.bits then none else returns (.word s (f a b))

/-- Shifts and rotations, by a word of 32 bits. -/
def wordShift (s : WordSize) (f : BitVec s.bits → ℕ → BitVec s.bits) (v v' : Value κ) :
    Option (Outcome κ) := do
  returns (.word s (f (← v.toWord s) (← v'.toWord .shiftArg).toNat))

def wordCompare (s : WordSize) (f : BitVec s.bits → BitVec s.bits → Bool) (v v' : Value κ) :
    Option (Outcome κ) := do
  returns (.bool (f (← v.toWord s) (← v'.toWord s)))

/-- The exact result, or an overflow if it does not fit. -/
def exactly (s : WordSize) (signed : Bool) (i : ℤ) : Option (Outcome κ) :=
  if Fits s.bits signed i then returns (.word s (BitVec.ofInt s.bits i)) else some .overflow

def wordChecked (s : WordSize) (signed : Bool) (f : ℤ → ℤ → ℤ) (v v' : Value κ) :
    Option (Outcome κ) := do
  exactly s signed (f (WordX.sgInt (← v.toWord s) signed) (WordX.sgInt (← v'.toWord s) signed))

def intInfOp (f : ℤ → ℤ → ℤ) (v v' : Value κ) : Option (Outcome κ) := do
  returns (.intInf (f (← v.toIntInf) (← v'.toIntInf)))

def intInfDivision (f : ℤ → ℤ → ℤ) (v v' : Value κ) : Option (Outcome κ) := do
  let i ← v.toIntInf
  let i' ← v'.toIntInf
  if i' = 0 then none else returns (.intInf (f i i'))

def intInfShift (f : ℤ → ℕ → ℤ) (v v' : Value κ) : Option (Outcome κ) := do
  returns (.intInf (f (← v.toIntInf) (← v'.toWord .shiftArg).toNat))

def realBinary (s : RealSize) (f : RealOf s → RealOf s → RealOf s) (v v' : Value κ) :
    Option (Outcome κ) := do
  returns (.real s (f (← v.toReal s) (← v'.toReal s)))

/-- What a primitive computes, where it is defined. The last argument of most operations on
`IntInf`s is the space for the result. -/
def eval (p : Prim ν) (vs : List (Value κ)) : Option (Outcome κ) :=
  match p, vs with
  | mltonEq, [v, v'] => returns (.bool (E.eq v v'))
  | mltonEqual, [v, v'] => returns (.bool (E.equal v v'))
  | cpointerAdd, [v, v'] => do
    returns (.cpointer T.cpointer ((← v.toPointer T.cpointer) + (← v'.toWord T.cpointer)))
  | cpointerDiff, [v, v'] => do
    returns (.word T.cpointer ((← v.toPointer T.cpointer) - (← v'.toPointer T.cpointer)))
  | cpointerEqual, [v, v'] => do
    returns (.bool (decide ((← v.toPointer T.cpointer) = (← v'.toPointer T.cpointer))))
  | cpointerFromWord, [v] => do returns (.cpointer T.cpointer (← v.toWord T.cpointer))
  | cpointerLt, [v, v'] => do
    returns (.bool ((← v.toPointer T.cpointer).ult (← v'.toPointer T.cpointer)))
  | cpointerSub, [v, v'] => do
    returns (.cpointer T.cpointer ((← v.toPointer T.cpointer) - (← v'.toWord T.cpointer)))
  | cpointerToWord, [v] => do returns (.word T.cpointer (← v.toPointer T.cpointer))
  | intInfAdd, [v, v', _] => intInfOp (· + ·) v v'
  | intInfAndb, [v, v', _] => intInfOp Int.land v v'
  | intInfArshift, [v, v', _] => intInfShift (fun i k => i / 2 ^ k) v v'
  | intInfCompare, [v, v'] => do
    let i ← v.toIntInf
    let i' ← v'.toIntInf
    returns (.word .compareRes (if i < i' then -1 else if i = i' then 0 else 1))
  | intInfEqual, [v, v'] => do returns (.bool (decide ((← v.toIntInf) = (← v'.toIntInf))))
  | intInfGcd, [v, v', _] => intInfOp (fun i i' => Int.gcd i i') v v'
  | intInfLshift, [v, v', _] => intInfShift (fun i k => i * 2 ^ k) v v'
  | intInfMul, [v, v', _] => intInfOp (· * ·) v v'
  | intInfNeg, [v, _] => do returns (.intInf (-(← v.toIntInf)))
  | intInfNotb, [v, _] => do returns (.intInf (-(← v.toIntInf) - 1))
  | intInfOrb, [v, v', _] => intInfOp Int.lor v v'
  | intInfQuot, [v, v', _] => intInfDivision Int.tdiv v v'
  | intInfRem, [v, v', _] => intInfDivision Int.tmod v v'
  | intInfSub, [v, v', _] => intInfOp (· - ·) v v'
  | intInfToString, [v, v', _] => do
    let i ← v.toIntInf
    let r ← Radix.ofInt (← v'.toWord .shiftArg).toNat
    if h : (IntInf.format i r).length < 2 ^ 31 then
      returns (.wordVector (.fromString (IntInf.format i r) h))
    else none
  | intInfToWord, [v] => do
    -- a large integer is a pointer, and no word is known for it
    let i ← v.toIntInf
    if Fits (T.objptr.bits - 1) true i then
      returns (.word T.objptr (BitVec.ofInt T.objptr.bits (2 * i + 1)))
    else none
  | intInfXorb, [v, v', _] => intInfOp Int.xor v v'
  | realAbs s, [v] => do returns (.real s (← v.toReal s).abs)
  | realArith op s, [v, v'] => realBinary s (RealOf.arith op E.mode) v v'
  | realCastToWord s, [v] => do
    -- any NaN may be meant
    let x ← v.toReal s
    if x.1.isNan then none
    else returns (.word s.wordSize (BitVec.ofNat s.wordSize.bits (s.toBits x.1)))
  | realCompare c s, [v, v'] => do
    returns (.bool (c.holds (← v.toReal s).1 (← v'.toReal s).1))
  | realMath f s, [v] => do returns (.real s (T.libm.math f s E.mode [← v.toReal s]))
  | realMath f s, [v, v'] => realBinary s (fun x y => T.libm.math f s E.mode [x, y]) v v'
  | realMath f s, [v, v', v''] => do
    returns (.real s
      (T.libm.math f s E.mode [← v.toReal s, ← v'.toReal s, ← v''.toReal s]))
  | realNeg s, [v] => do returns (.real s (← v.toReal s).neg)
  | vectorLength, [v] => do
    returns (.word T.seqIndex (BitVec.ofNat T.seqIndex.bits (← v.toWordVector).elements.length))
  | vectorSub, [v, v'] => do
    let l ← v.toWordVector
    returns (.ofWordX (← l.elements[(← v'.toWord T.seqIndex).toNat]?))
  | wordAdd s, [v, v'] => wordBinary s (· + ·) v v'
  | wordAddCheck s sg, [v, v'] => wordChecked s sg (· + ·) v v'
  | wordAndb s, [v, v'] => wordBinary s (· &&& ·) v v'
  | wordCastToReal s, [v] => do returns (.real s (.ofBits s (← v.toWord s.wordSize).toNat))
  | wordEqual s, [v, v'] => wordCompare s (fun a b => decide (a = b)) v v'
  | wordExtdToWord s s' sg, [v] => do
    let a ← v.toWord s
    returns (.word s' (if sg then a.signExtend s'.bits else a.setWidth s'.bits))
  | wordLshift s, [v, v'] => wordShift s (· <<< ·) v v'
  | wordLt s sg, [v, v'] => wordCompare s (fun a b => if sg then a.slt b else a.ult b) v v'
  | wordMul s _, [v, v'] => wordBinary s (· * ·) v v'
  | wordMulCheck s sg, [v, v'] => wordChecked s sg (· * ·) v v'
  | wordNeg s, [v] => wordUnary s (-·) v
  | wordNegCheck s, [v] => do exactly s true (-(← v.toWord s).toInt)
  | wordNotb s, [v] => wordUnary s (~~~·) v
  | wordOrb s, [v, v'] => wordBinary s (· ||| ·) v v'
  | wordQuot s sg, [v, v'] => wordDivision s (if sg then BitVec.sdiv else BitVec.udiv) v v'
  | wordRem s sg, [v, v'] => wordDivision s (if sg then BitVec.srem else BitVec.umod) v v'
  | wordRndToReal s s' sg, [v] => do
    returns (.real s' (.ofInt s' E.mode (WordX.sgInt (← v.toWord s) sg)))
  | wordRol s, [v, v'] => wordShift s BitVec.rotateLeft v v'
  | wordRor s, [v, v'] => wordShift s BitVec.rotateRight v v'
  | wordRshift s sg, [v, v'] => wordShift s (if sg then BitVec.sshiftRight else (· >>> ·)) v v'
  | wordSub s, [v, v'] => wordBinary s (· - ·) v v'
  | wordSubCheck s sg, [v, v'] => wordChecked s sg (· - ·) v v'
  | wordToIntInf, [v] => do
    -- a word without the tag is a pointer to a large integer
    let a ← v.toWord T.objptr
    if a.getLsbD 0 then returns (.intInf (a.toInt / 2)) else none
  | wordXorb s, [v, v'] => wordBinary s (· ^^^ ·) v v'
  | _, _ => none

section Equations

attribute [local simp] eval

end Equations

section Inversion

variable {s : WordSize} {v v' : Value κ} {o : Outcome κ}

theorem wordUnary_eq_some {f : BitVec s.bits → BitVec s.bits} :
    wordUnary s f v = some o ↔ ∃ a, v = .word s a ∧ .value (.word s (f a)) = o := by
  simp [wordUnary, returns, bind_eq_some_iff, toWord_eq_some]

theorem wordBinary_eq_some {f : BitVec s.bits → BitVec s.bits → BitVec s.bits} :
    wordBinary s f v v' = some o ↔
      ∃ a b, v = .word s a ∧ v' = .word s b ∧ .value (.word s (f a b)) = o := by
  simp [wordBinary, returns, bind_eq_some_iff, toWord_eq_some]

theorem wordDivision_eq_some {f : BitVec s.bits → BitVec s.bits → BitVec s.bits} :
    wordDivision s f v v' = some o ↔
      ∃ a b, v = .word s a ∧ v' = .word s b ∧ b ≠ 0#s.bits ∧ .value (.word s (f a b)) = o := by
  simp [wordDivision, returns, bind_eq_some_iff, toWord_eq_some]

theorem wordShift_eq_some {f : BitVec s.bits → ℕ → BitVec s.bits} :
    wordShift s f v v' = some o ↔
      ∃ a k, v = .word s a ∧ v' = .word .shiftArg k ∧ .value (.word s (f a k.toNat)) = o := by
  simp [wordShift, returns, bind_eq_some_iff, toWord_eq_some]

theorem wordCompare_eq_some {f : BitVec s.bits → BitVec s.bits → Bool} :
    wordCompare s f v v' = some o ↔
      ∃ a b, v = .word s a ∧ v' = .word s b ∧ .value (.bool (f a b)) = o := by
  simp [wordCompare, returns, bind_eq_some_iff, toWord_eq_some]

theorem wordChecked_eq_some {signed : Bool} {f : ℤ → ℤ → ℤ} :
    wordChecked s signed f v v' = some o ↔
      ∃ a b, v = .word s a ∧ v' = .word s b ∧
        exactly s signed (f (WordX.sgInt a signed) (WordX.sgInt b signed)) = some o := by
  simp [wordChecked, bind_eq_some_iff, toWord_eq_some]

theorem intInfOp_eq_some {f : ℤ → ℤ → ℤ} :
    intInfOp f v v' = some o ↔
      ∃ i i', v = .intInf i ∧ v' = .intInf i' ∧ .value (.intInf (f i i')) = o := by
  simp [intInfOp, returns, bind_eq_some_iff, toIntInf_eq_some]

theorem intInfDivision_eq_some {f : ℤ → ℤ → ℤ} :
    intInfDivision f v v' = some o ↔
      ∃ i i', v = .intInf i ∧ v' = .intInf i' ∧ i' ≠ 0 ∧ .value (.intInf (f i i')) = o := by
  simp [intInfDivision, returns, bind_eq_some_iff, toIntInf_eq_some]

theorem intInfShift_eq_some {f : ℤ → ℕ → ℤ} :
    intInfShift f v v' = some o ↔
      ∃ i k, v = .intInf i ∧ v' = .word .shiftArg k ∧ .value (.intInf (f i k.toNat)) = o := by
  simp [intInfShift, returns, bind_eq_some_iff, toIntInf_eq_some, toWord_eq_some]

theorem realBinary_eq_some {s : RealSize} {f : RealOf s → RealOf s → RealOf s} :
    realBinary s f v v' = some o ↔
      ∃ x y, v = .real s x ∧ v' = .real s y ∧ .value (.real s (f x y)) = o := by
  simp [realBinary, returns, bind_eq_some_iff, toReal_eq_some]

end Inversion

/-! ### Agreement -/

/-- The value of a constant. -/
def constValue : Const → Value κ
  | .intInf i => .intInf i
  | .null => .cpointer T.cpointer 0
  | .real r => .real r.size r.value
  | .word w => .ofWordX w
  | .wordVector v => .wordVector v

/-- An argument stands for a value, where the variables have the values `ρ`. The datatypes declare
whether the values of a constructor carry an argument. -/
def ArgMeans (declared : Con κ → Bool) (ρ : β → Value κ) : ApplyArg κ β → Value κ → Prop
  | .con c hasArg, v => ∃ arg, v = .con c arg ∧ arg.isSome = hasArg ∧ hasArg = declared c
  | .const c, v => v = constValue T c
  | .var x, v => v = ρ x

/-- A result stands for what an application comes to. -/
def ResultMeans (ρ : β → Value κ) : ApplyResult ν β → Outcome κ → Prop
  | .apply p args, o => eval T E p (args.map ρ) = some o
  | .bool b, o => o = .value (.bool b)
  | .const c, o => o = .value (constValue T c)
  | .overflow, o => o = .overflow
  | .unknown, _ => True
  | .var x, o => o = .value (ρ x)

/-- `apply` answers this application correctly: for all values of the variables on which the
primitive is defined there is an answer that stands for what the application comes to, and if all
arguments are constants, an overflow is answered as one. -/
def Sound [DecidableEq κ] (declared : Con κ → Bool) (p : Prim ν) (args : List (ApplyArg κ β))
    (varEquals : β → β → Bool) : Prop :=
  ∀ ρ : β → Value κ, (∀ x y, varEquals x y = true → ρ x = ρ y) →
    ∀ vs, List.Forall₂ (ArgMeans T declared ρ) args vs → ∀ o, eval T E p vs = some o →
      ∃ r, apply T p args varEquals = .ok r ∧ ResultMeans T E ρ r o ∧
        ((constArgs args).isSome → o = .overflow → r = .overflow)

end Prim

end MultiMLton.Atoms
