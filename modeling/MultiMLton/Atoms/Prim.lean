import Mathlib.Data.Int.GCD
import MultiMLton.Atoms.Real

/-!
# Primitives

`Prim.apply` of `atoms/prim.fun`, the constant folder of the SSA shrinker. An argument is a
constant, a constructor or a variable; the result is a constant, a Boolean, one of the arguments, an
application of another primitive, an overflow, or nothing better than the application itself.

Primitives that `apply` does not name are kept apart by names of a type `ν`; constructors have names
of a type `κ`, apart from the two of `bool`.
-/

namespace MultiMLton.Atoms

/-- What the folder asks of the target: the sizes of `Control.Target.Size`, where pointers, their
differences and the words they are cast to have one size, and whether its reals are the compiler's
own. Where they are, so is the mathematical library. -/
structure Target where
  cpointer : WordSize
  seqIndex : WordSize
  /-- `WordSize.smallIntInfWord ()` -/
  objptr : WordSize
  one_lt : 1 < objptr.bits
  /-- `RealX.disableCF ()` -/
  disableCF : Bool
  libm : Libm

/-- `WordXVector.t` -/
structure WordXVector where
  elementSize : WordSize
  elements : List WordX
  sizes : ∀ w ∈ elements, w.size = elementSize
  /-- Vectors of the compiler are indexed by its 32-bit integers. -/
  length_lt : elements.length < 2 ^ 31
  deriving DecidableEq

namespace WordXVector

def length (v : WordXVector) : ℤ := v.elements.length

def sub (v : WordXVector) (i : ℤ) : Except Exn WordX :=
  match v.elements[i.toNat]? with
  | some w => if 0 ≤ i then .ok w else .error .Subscript
  | none => .error .Subscript

def equals (v v' : WordXVector) : Bool := decide (v = v')

/-- `WordXVector.fromString` -/
def fromString (l : List Char) (h : l.length < 2 ^ 31) : WordXVector where
  elementSize := .byte
  elements := l.map fun c => WordX.make c.toNat .byte
  sizes := by
    intro w hw
    obtain ⟨c, -, rfl⟩ := List.mem_map.1 hw
    rfl
  length_lt := by simpa using h

end WordXVector

/-- `Const.t` -/
inductive Const
  | intInf (i : ℤ)
  | null
  | real (r : RealX)
  | word (w : WordX)
  | wordVector (v : WordXVector)
  deriving DecidableEq

/-- `Con.t` -/
inductive Con (κ : Type)
  | bool (b : Bool)
  | named (c : κ)
  deriving DecidableEq

/-- `Prim.t`: the primitives that `apply` names, the others by a name. A real is cast to a word of
its own size. -/
inductive Prim (ν : Type)
  | mltonEq
  | mltonEqual
  | cpointerAdd
  | cpointerDiff
  | cpointerEqual
  | cpointerFromWord
  | cpointerLt
  | cpointerSub
  | cpointerToWord
  | intInfAdd
  | intInfAndb
  | intInfArshift
  | intInfCompare
  | intInfEqual
  | intInfGcd
  | intInfLshift
  | intInfMul
  | intInfNeg
  | intInfNotb
  | intInfOrb
  | intInfQuot
  | intInfRem
  | intInfSub
  | intInfToString
  | intInfToWord
  | intInfXorb
  | realAbs (s : RealSize)
  | realArith (op : RealOp) (s : RealSize)
  | realCastToWord (s : RealSize)
  | realCompare (c : RealCompare) (s : RealSize)
  | realMath (f : RealMath) (s : RealSize)
  | realNeg (s : RealSize)
  | vectorLength
  | vectorSub
  | wordAdd (s : WordSize)
  | wordAddCheck (s : WordSize) (signed : Bool)
  | wordAndb (s : WordSize)
  | wordCastToReal (s : RealSize)
  | wordEqual (s : WordSize)
  | wordExtdToWord (s s' : WordSize) (signed : Bool)
  | wordLshift (s : WordSize)
  | wordLt (s : WordSize) (signed : Bool)
  | wordMul (s : WordSize) (signed : Bool)
  | wordMulCheck (s : WordSize) (signed : Bool)
  | wordNeg (s : WordSize)
  | wordNegCheck (s : WordSize)
  | wordNotb (s : WordSize)
  | wordOrb (s : WordSize)
  | wordQuot (s : WordSize) (signed : Bool)
  | wordRem (s : WordSize) (signed : Bool)
  | wordRndToReal (s : WordSize) (s' : RealSize) (signed : Bool)
  | wordRol (s : WordSize)
  | wordRor (s : WordSize)
  | wordRshift (s : WordSize) (signed : Bool)
  | wordSub (s : WordSize)
  | wordSubCheck (s : WordSize) (signed : Bool)
  | wordToIntInf
  | wordXorb (s : WordSize)
  | other (name : ν)

/-- `Prim.ApplyArg.t` -/
inductive ApplyArg (κ β : Type)
  | con (c : Con κ) (hasArg : Bool)
  | const (c : Const)
  | var (x : β)

/-- `Prim.ApplyResult.t` -/
inductive ApplyResult (ν β : Type)
  | apply (p : Prim ν) (args : List β)
  | bool (b : Bool)
  | const (c : Const)
  | overflow
  | unknown
  | var (x : β)

/-! ### Small integers and strings -/

namespace SmallIntInf

/-- `Const.SmallIntInf.toWord`: a small integer as it is kept in an object pointer. -/
def toWord (T : Target) (i : ℤ) : Except Exn (Option WordX) :=
  let ws := T.objptr
  let ws' : WordSize :=
    ⟨T.objptr.bits - 1, Nat.sub_pos_of_lt T.one_lt, (Nat.sub_le _ _).trans T.objptr.le⟩
  if ws'.isInRange i true then do
    let w ← (WordX.one ws).orb ((WordX.make i ws).lshift (WordX.one ws))
    .ok (some w)
  else .ok none

def fromWord (w : WordX) : ℤ := (w.rshift (WordX.one w.size) true).toIntInfX

end SmallIntInf

/-- `StringCvt.radix` -/
inductive Radix
  | bin
  | oct
  | dec
  | hex
  deriving DecidableEq

namespace Radix

def base : Radix → ℕ
  | bin => 2
  | oct => 8
  | dec => 10
  | hex => 16

def ofInt : ℤ → Option Radix
  | 2 => some bin
  | 8 => some oct
  | 10 => some dec
  | 16 => some hex
  | _ => none

end Radix

/-- `IntInf.format`: upper case digits, after a tilde for negative numbers. -/
def IntInf.format (i : ℤ) (r : Radix) : List Char :=
  let digits := if i = 0 then ['0']
    else ((Nat.digits r.base i.natAbs).reverse.map fun d => (Nat.digitChar d).toUpper)
  if i < 0 then '~' :: digits else digits

/-- `intInfTooBig`: the folder does not make larger integers. -/
def intInfTooBig (i : ℤ) : Bool :=
  decide (i < -IntInf.shl 1 128) || decide (i > IntInf.shl 1 128)

theorem IntInf.format_length {i : ℤ} (h : intInfTooBig i = false) (r : Radix) :
    (IntInf.format i r).length < 2 ^ 31 := by
  have hbig : -2 ^ 128 ≤ i ∧ i ≤ 2 ^ 128 := by
    simpa [intInfTooBig, IntInf.shl] using h
  have hlt : i.natAbs < 2 ^ 129 := by
    have hpow : (2 : ℤ) ^ 129 = 2 * 2 ^ 128 := by norm_num
    zify
    rw [abs_lt]
    constructor <;> omega
  have hbase : 2 ≤ r.base := by cases r <;> decide
  have hlen : (Nat.digits r.base i.natAbs).length ≤ 129 := by
    rw [Nat.digits_length_le_iff (by omega)]
    exact hlt.trans_le (Nat.pow_le_pow_left hbase 129)
  simp only [IntInf.format]
  split_ifs <;> simp <;> omega

/-! ### The folder -/

namespace Prim

variable {ν κ β : Type} [DecidableEq κ] (T : Target)

/-- `Prim.mayOverflow` -/
def mayOverflow : Prim ν → Bool
  | wordAddCheck _ _ => true
  | wordMulCheck _ _ => true
  | wordNegCheck _ => true
  | wordSubCheck _ _ => true
  | _ => false

def word (w : WordX) : ApplyResult ν β := .const (.word w)

/-- An integer, unless it is too large for a constant. -/
def intInf (i : ℤ) : ApplyResult ν β := if intInfTooBig i then .unknown else .const (.intInf i)

/-- A word of the size of indices. -/
def seqIndexConst (i : ℤ) : ApplyResult ν β := word (WordX.make i T.seqIndex)

/-- `wordOrOverflow` -/
def wordOrOverflow (s : WordSize) (signed : Bool) (w : ℤ) : ApplyResult ν β :=
  if s.isInRange w signed then word (WordX.make w s) else .overflow

/-- `wcheck` -/
def wcheck (f : ℤ → ℤ → ℤ) (s : WordSize) (signed : Bool) (w w' : WordX) : ApplyResult ν β :=
  wordOrOverflow s signed (f (w.toIntInfSg signed) (w'.toIntInfSg signed))

/-- `eq` of `apply`, on constants. -/
def eq : Const → Const → ApplyResult ν β
  | .word w1, .word w2 => .bool (w1.equals w2)
  | _, _ => .unknown

/-- `equal` of `apply`, on constants. -/
def equal : Const → Const → ApplyResult ν β
  | .intInf i1, .intInf i2 => .bool (decide (i1 = i2))
  | .word w1, .word w2 => .bool (w1.equals w2)
  | .wordVector v1, .wordVector v2 => .bool (v1.equals v2)
  | _, _ => .unknown

/-- A division of the compiler's `IntInf`. -/
def divide (f : ℤ → ℤ → ℤ) (i1 i2 : ℤ) : Except Exn (ApplyResult ν β) :=
  if i2 = 0 then .error .Div else .ok (intInf (f i1 i2))

/-- Operations on two integers. -/
def intInfBinary (p : Prim ν) (i1 i2 : ℤ) : Except Exn (ApplyResult ν β) :=
  if intInfTooBig i1 || intInfTooBig i2 then .ok .unknown
  else match p with
    | intInfAdd => .ok (intInf (i1 + i2))
    | intInfAndb => .ok (intInf (Int.land i1 i2))
    | intInfGcd => .ok (intInf (Int.gcd i1 i2))
    | intInfMul => .ok (intInf (i1 * i2))
    | intInfOrb => .ok (intInf (Int.lor i1 i2))
    | intInfQuot => divide IntInf.quot i1 i2
    | intInfRem => divide IntInf.rem i1 i2
    | intInfSub => .ok (intInf (i1 - i2))
    | intInfXorb => .ok (intInf (Int.xor i1 i2))
    | _ => .ok .unknown

/-- Operations on one integer. -/
def intInfUnary (p : Prim ν) (i1 : ℤ) : Except Exn (ApplyResult ν β) :=
  if intInfTooBig i1 then .ok .unknown
  else match p with
    | intInfNeg => .ok (intInf (-i1))
    | intInfNotb => .ok (intInf (Int.lnot i1))
    | _ => .ok .unknown

/-- `Word.fromIntInf` of the compiler's own 32-bit words. -/
def hostWord (i : ℤ) : ℕ := (i % 2 ^ 32).toNat

/-- Operations on an integer and a word. -/
def intInfShiftOrToString (p : Prim ν) (i1 : ℤ) (w2 : WordX) : Except Exn (ApplyResult ν β) :=
  if h : intInfTooBig i1 then .ok .unknown
  else match p with
    | intInfArshift => .ok (intInf (IntInf.arshift i1 (hostWord w2.value)))
    | intInfLshift => do
      let maxShift := WordX.make 128 .shiftArg
      if ← w2.lt maxShift false then .ok (intInf (IntInf.shl i1 (hostWord w2.value)))
      else .ok .unknown
    | intInfToString => do
      match Radix.ofInt (← w2.toInt) with
      | some r =>
        .ok (.const (.wordVector (.fromString (IntInf.format i1 r)
          (IntInf.format_length (by simpa using h) r))))
      | none => .error .Bug
    | _ => .ok .unknown

/-- The rows of `allConsts` on words and vectors. -/
def wordConsts (p : Prim ν) (cs : List Const) : Except Exn (ApplyResult ν β) :=
  match p, cs with
  | vectorLength, [.wordVector v] => .ok (seqIndexConst T v.length)
  | vectorSub, [.wordVector v, .word i] => do .ok (word (← v.sub (← i.toInt)))
  | wordAdd _, [.word w1, .word w2] => do .ok (word (← w1.add w2))
  | wordAddCheck s sg, [.word w1, .word w2] => .ok (wcheck (· + ·) s sg w1 w2)
  | wordAndb _, [.word w1, .word w2] => do .ok (word (← w1.andb w2))
  | wordEqual _, [.word w1, .word w2] => .ok (.bool (w1.equals w2))
  | wordLshift _, [.word w1, .word w2] => .ok (word (w1.lshift w2))
  | wordLt _ sg, [.word w1, .word w2] => do .ok (.bool (← w1.lt w2 sg))
  | wordMul _ sg, [.word w1, .word w2] => do .ok (word (← w1.mul w2 sg))
  | wordMulCheck s sg, [.word w1, .word w2] => .ok (wcheck (· * ·) s sg w1 w2)
  | wordNeg _, [.word w] => .ok (word w.neg)
  | wordNegCheck s, [.word w] => .ok (wordOrOverflow s true (-w.toIntInfX))
  | wordNotb _, [.word w] => .ok (word w.notb)
  | wordOrb _, [.word w1, .word w2] => do .ok (word (← w1.orb w2))
  | wordQuot _ sg, [.word w1, .word w2] =>
    if w2.isZero then .ok .unknown else do .ok (word (← w1.quot w2 sg))
  | wordRem _ sg, [.word w1, .word w2] =>
    if w2.isZero then .ok .unknown else do .ok (word (← w1.rem w2 sg))
  | wordRol _, [.word w1, .word w2] => .ok (word (w1.rol w2))
  | wordRor _, [.word w1, .word w2] => .ok (word (w1.ror w2))
  | wordRshift _ sg, [.word w1, .word w2] => .ok (word (w1.rshift w2 sg))
  | wordSub _, [.word w1, .word w2] => do .ok (word (← w1.sub w2))
  | wordSubCheck s sg, [.word w1, .word w2] => .ok (wcheck (· - ·) s sg w1 w2)
  | wordToIntInf, [.word w] => .ok (intInf (SmallIntInf.fromWord w))
  | wordExtdToWord _ s sg, [.word w] => .ok (word (if sg then w.resizeX s else w.resize s))
  | wordXorb _, [.word w1, .word w2] => do .ok (word (← w1.xorb w2))
  | _, _ => .ok .unknown

/-- What is known of a constant real, if anything. -/
def realOpt (r : Option RealX) : ApplyResult ν β := r.elim .unknown fun r => .const (.real r)

/-- The rows of `allConsts` on reals. -/
def realConsts (p : Prim ν) (cs : List Const) : Except Exn (ApplyResult ν β) :=
  match p, cs with
  | realNeg _, [.real r] => .ok (realOpt (r.neg T.disableCF))
  | realAbs _, [.real r] => .ok (realOpt (r.abs T.disableCF))
  | realMath f _, [.real r] =>
    .ok (if f.arity = 1 then realOpt (r.make1 T.disableCF fun s mode x => T.libm.math f s mode [x])
      else .unknown)
  | realMath f _, [.real r1, .real r2] =>
    if f.arity = 2 then do
      .ok (realOpt (← r1.make2 T.disableCF (fun s mode x y => T.libm.math f s mode [x, y]) r2))
    else .ok .unknown
  | realMath f _, [.real r1, .real r2, .real r3] =>
    if f.arity = 3 then do
      .ok (realOpt (← r1.make3 T.disableCF (fun s mode x y z => T.libm.math f s mode [x, y, z])
        r2 r3))
    else .ok .unknown
  | realArith op _, [.real r1, .real r2] => do
    .ok (realOpt (← r1.make2 T.disableCF (fun _ => RealOf.arith op) r2))
  | realCompare c _, [.real r1, .real r2] => do
    .ok ((← r1.compare T.disableCF c r2).elim .unknown .bool)
  | realCastToWord _, [.real r] => .ok ((r.castToWord T.disableCF).elim .unknown word)
  | wordCastToReal _, [.word w] => do .ok (realOpt (← RealX.castFromWord T.disableCF w))
  | wordRndToReal _ s sg, [.word w] =>
    .ok (realOpt (RealX.fromIntInf T.disableCF (w.toIntInfSg sg) s))
  | p, cs => wordConsts T p cs

/-- The rows of `allConsts` whose first argument is an `IntInf`, for any primitive. -/
def intInfConsts (p : Prim ν) (cs : List Const) : Except Exn (ApplyResult ν β) :=
  match cs with
  | [.intInf i1, .intInf i2, _] => intInfBinary p i1 i2
  | [.intInf i1, .word w2, _] => intInfShiftOrToString p i1 w2
  | [.intInf i1, _] => intInfUnary p i1
  | cs => realConsts T p cs

/-- `IntInf.compare`, as an integer. -/
def compareInt (i1 i2 : ℤ) : ℤ := if i1 < i2 then -1 else if i1 = i2 then 0 else 1

/-- The rows of `allConsts`, before exceptions are handled. -/
def constRows (p : Prim ν) (cs : List Const) : Except Exn (ApplyResult ν β) :=
  match p, cs with
  | mltonEq, [c1, c2] => .ok (eq c1 c2)
  | mltonEqual, [c1, c2] => .ok (equal c1 c2)
  | cpointerFromWord, [.word w] => .ok (if w.isZero then .const .null else .unknown)
  | cpointerToWord, [.null] => .ok (word (WordX.zero T.cpointer))
  | intInfCompare, [.intInf i1, .intInf i2] =>
    .ok (word (WordX.make (compareInt i1 i2) .compareRes))
  | intInfEqual, [.intInf i1, .intInf i2] => .ok (.bool (decide (i1 = i2)))
  | intInfToWord, [.intInf i] => do
    match ← SmallIntInf.toWord T i with
    | none => .ok .unknown
    | some w => .ok (word w)
  | p, cs => intInfConsts T p cs

/-- `allConsts` -/
def allConsts (p : Prim ν) (cs : List Const) : Except Exn (ApplyResult ν β) :=
  match constRows T p cs with
  | .error .Div => .ok .unknown
  | .error .Overflow => .ok .overflow
  | .error .Subscript => .ok .unknown
  | r => r

/-- `varIntInf` -/
def varIntInf (p : Prim ν) (x : β) (i : ℤ) (space : β) (inOrder : Bool) : ApplyResult ν β :=
  match IntInf.toInt i with
  | .error _ => .unknown
  | .ok i =>
    let neg : ApplyResult ν β := .apply intInfNeg [x, space]
    let notb : ApplyResult ν β := .apply intInfNotb [x, space]
    match p with
    | intInfAdd => if i = 0 then .var x else .unknown
    | intInfAndb => if i = 0 then intInf 0 else if i = -1 then .var x else .unknown
    | intInfArshift => if i = 0 then intInf 0 else if i = -1 then intInf (-1) else .unknown
    | intInfGcd => if i = -1 ∨ i = 1 then intInf 1 else .unknown
    | intInfLshift => if i = 0 then intInf 0 else .unknown
    | intInfMul =>
      if i = 0 then intInf 0 else if i = 1 then .var x else if i = -1 then neg else .unknown
    | intInfOrb => if i = 0 then .var x else if i = -1 then intInf (-1) else .unknown
    | intInfQuot =>
      if inOrder then (if i = 1 then .var x else if i = -1 then neg else .unknown) else .unknown
    | intInfRem => if inOrder ∧ (i = -1 ∨ i = 1) then intInf 0 else .unknown
    | intInfSub => if i = 0 then (if inOrder then .var x else neg) else .unknown
    | intInfXorb => if i = 0 then .var x else if i = -1 then notb else .unknown
    | _ => .unknown

/-- `varReal` -/
def varReal (p : Prim ν) (x : β) (r : RealX) (inOrder : Bool) : ApplyResult ν β :=
  let negIf (s : RealSize) (b : Bool) : ApplyResult ν β :=
    if b then .apply (realNeg s) [x] else .var x
  match r.decon T.disableCF with
  | some (.one b) =>
    match p with
    | realArith .mul s => negIf s b
    | realArith .div s => if inOrder then negIf s b else .unknown
    | _ => .unknown
  | some .nan =>
    match p with
    | realMath .atan2 _ | realArith _ _ => .const (.real r)
    | realCompare .qequal _ => .bool true
    | realCompare _ _ => .bool false
    | _ => .unknown
  | some (.pow2 b exp) =>
    match p with
    | realArith .mul s => if !b ∧ exp = 2 then .apply (realArith .add s) [x, x] else .unknown
    -- in either order
    | realArith .div s => if !b ∧ exp = 0 then .apply (realArith .add s) [x, x] else .unknown
    | _ => .unknown
  | _ => .unknown

/-- `mul` of `varWord` -/
def varMul (x : β) (w : WordX) (signed : Bool) (neg : Prim ν) : ApplyResult ν β :=
  if w.isZero then word w
  else if w.isOne then .var x
  else if signed ∧ w.isNegOne then .apply neg [x]
  else .unknown

/-- `sub` of `varWord` -/
def varSub (x : β) (w : WordX) (inOrder : Bool) (neg : Prim ν) : ApplyResult ν β :=
  if w.isZero then (if inOrder then .var x else .apply neg [x]) else .unknown

/-- `ro` of `varWord`: the size is the one of the constant, whichever argument it is. -/
def varRo (x : β) (w : WordX) (inOrder : Bool) : Except Exn (ApplyResult ν β) :=
  if inOrder then do
    let s := w.size
    if (← w.rem (WordX.make s.bits s) false).isZero then .ok (.var x) else .ok .unknown
  else .ok (if w.isZero || w.isAllOnes then word w else .unknown)

/-- `shift` of `varWord` -/
def varShift (x : β) (w : WordX) (s : WordSize) (inOrder : Bool) :
    Except Exn (ApplyResult ν β) :=
  if inOrder then
    if w.isZero then .ok (.var x)
    else do
      if ← w.ge (WordX.make s.bits .shiftArg) false then .ok (word (WordX.zero s))
      else .ok .unknown
  else .ok (if w.isZero then word (WordX.zero s) else .unknown)

/-- `varWord` -/
def varWord (p : Prim ν) (x : β) (w : WordX) (inOrder : Bool) : Except Exn (ApplyResult ν β) :=
  match p with
  | cpointerAdd => .ok (if w.isZero then .var x else .unknown)
  | cpointerSub => .ok (if w.isZero ∧ inOrder then .var x else .unknown)
  | wordAdd _ => .ok (if w.isZero then .var x else .unknown)
  | wordAddCheck _ _ => .ok (if w.isZero then .var x else .unknown)
  | wordAndb s =>
    .ok (if w.isZero then word (WordX.zero s) else if w.isAllOnes then .var x else .unknown)
  | wordLshift s => varShift x w s inOrder
  | wordLt _ sg =>
    .ok (if inOrder then (if w.isMin sg then .bool false else .unknown)
      else (if w.isMax sg then .bool false else .unknown))
  | wordMul s sg => .ok (varMul x w sg (wordNeg s))
  | wordMulCheck s sg => .ok (varMul x w sg (wordNegCheck s))
  | wordOrb _ => .ok (if w.isZero then .var x else if w.isAllOnes then word w else .unknown)
  | wordQuot s sg =>
    .ok (if inOrder then
        (if w.isOne then .var x
        else if sg ∧ w.isNegOne then .apply (wordNeg s) [x]
        else .unknown)
      else .unknown)
  | wordRem s sg =>
    .ok (if inOrder ∧ (w.isOne ∨ (sg ∧ w.isNegOne)) then word (WordX.zero s) else .unknown)
  | wordRol _ => varRo x w inOrder
  | wordRor _ => varRo x w inOrder
  | wordRshift s sg =>
    if sg then
      .ok (if w.isZero then (if inOrder then .var x else word (WordX.zero s))
        else if w.isAllOnes ∧ !inOrder then word w
        else .unknown)
    else varShift x w s inOrder
  | wordSub s => .ok (varSub x w inOrder (wordNeg s))
  | wordSubCheck s _ => .ok (varSub x w inOrder (wordNegCheck s))
  | wordXorb s =>
    .ok (if w.isZero then .var x
      else if w.isAllOnes then .apply (wordNotb s) [x]
      else .unknown)
  | _ => .ok .unknown

/-- Two equal variables and a third argument. -/
def sameVars3 (p : Prim ν) (x : β) : ApplyResult ν β :=
  match p with
  | intInfAndb => .var x
  | intInfOrb => .var x
  | intInfQuot => intInf 1
  | intInfRem => intInf 0
  | intInfSub => intInf 0
  | intInfXorb => intInf 0
  | _ => .unknown

/-- Two equal variables. -/
def sameVars (p : Prim ν) (x : β) : ApplyResult ν β :=
  match p with
  | cpointerDiff => word (WordX.zero T.cpointer)
  | cpointerEqual => .bool true
  | cpointerLt => .bool false
  | intInfCompare => word (WordX.zero .compareRes)
  | intInfEqual => .bool true
  | mltonEq => .bool true
  | mltonEqual => .bool true
  | realCompare .lt _ => .bool false
  | realCompare .qequal _ => .bool true
  | wordAndb _ => .var x
  | wordEqual _ => .bool true
  | wordLt _ _ => .bool false
  | wordOrb _ => .var x
  | wordQuot s _ => word (WordX.one s)
  | wordRem s _ => word (WordX.zero s)
  | wordSub s => word (WordX.zero s)
  | wordSubCheck s _ => word (WordX.zero s)
  | wordXorb s => word (WordX.zero s)
  | _ => .unknown

/-- Two constructors. -/
def sameCons (p : Prim ν) (c c' : Con κ) (h : Bool) : ApplyResult ν β :=
  match p with
  | mltonEq | mltonEqual => if c = c' then (if h then .unknown else .bool true) else .bool false
  | _ => .unknown

/-- A variable, a constant word and a third argument. -/
def varWord3 (p : Prim ν) (x : β) (w : WordX) : ApplyResult ν β :=
  if w.isZero then
    match p with
    | intInfArshift => .var x
    | intInfLshift => .var x
    | _ => .unknown
  else .unknown

/-- `someVars` -/
def someVars (p : Prim ν) (args : List (ApplyArg κ β)) (varEquals : β → β → Bool) :
    Except Exn (ApplyResult ν β) :=
  match args with
  | [.con c h, .con c' _] => .ok (sameCons p c c' h)
  | [.var x, .const (.real r)] => .ok (varReal T p x r true)
  | [.const (.real r), .var x] => .ok (varReal T p x r false)
  | [.var x, .const (.word i)] => varWord p x i true
  | [.const (.word i), .var x] => varWord p x i false
  | [.const (.intInf i1), .const (.intInf i2), _] => intInfBinary p i1 i2
  | [.const (.intInf i1), .const (.word w2), _] => intInfShiftOrToString p i1 w2
  | [.const (.intInf i1), _] => intInfUnary p i1
  | [.var x, .const (.intInf i), .var space] => .ok (varIntInf p x i space true)
  | [.const (.intInf i), .var x, .var space] => .ok (varIntInf p x i space false)
  | [.var x, .const (.word w), _] => .ok (varWord3 p x w)
  | [.var x, .var y, _] => .ok (if varEquals x y then sameVars3 p x else .unknown)
  | [.var x, .var y] => .ok (if varEquals x y then sameVars T p x else .unknown)
  | _ => .ok .unknown

/-- The constants, when all arguments are constants. -/
def constArgs : List (ApplyArg κ β) → Option (List Const)
  | [] => some []
  | .const c :: args => (constArgs args).map (c :: ·)
  | _ :: _ => none

/-- `Prim.apply` -/
def apply (p : Prim ν) (args : List (ApplyArg κ β)) (varEquals : β → β → Bool) :
    Except Exn (ApplyResult ν β) :=
  match constArgs args with
  | some cs => allConsts T p cs
  | none => someVars T p args varEquals

section Equations

attribute [local simp] wordConsts realConsts constRows someVars varWord sameVars varIntInf

end Equations

end Prim

end MultiMLton.Atoms
