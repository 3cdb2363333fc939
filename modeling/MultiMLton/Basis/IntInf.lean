import MultiMLton.Lib.Words
import MultiMLton.Basis.TaggedWord

/-!
# Integers without bounds

The operations of `integer/int-inf0.sml`, and the functions of `runtime/gc/int-inf.c` behind its
primitives. An integer is a tagged word, or a vector with a limb for its sign and the limbs of its
magnitude, the least significant one first. The routines of GnuMP are given (`GnuMP`).

Where the heap has room is not followed here: `reserve`, `initIntInfRes` and the frontier are left
out, and so are the counter, the length and the header of a vector.
-/

namespace MultiMLton.Basis

open MultiMLton.Lib.Limbs

/-- The widths of object pointers and of limbs, in bits. -/
structure Config where
  objptr : ℕ
  limb : ℕ
  objptr_eq : objptr = 32 ∨ objptr = 64
  limb_eq : limb = 32 ∨ limb = 64

namespace Config

variable (c : Config)

theorem two_le : 2 ≤ c.objptr := by
  rcases c.objptr_eq with h | h <;> omega

theorem limb_pos : 0 < c.limb := by
  rcases c.limb_eq with h | h <;> omega

/-- `LIMBS_PER_OBJPTR` -/
def limbsPerObjptr : ℕ := if c.objptr ≤ c.limb then 1 else c.objptr / c.limb

end Config

variable {c : Config}

variable (c) in
/-- An `objptr` to an integer: a word, or where the vector is. -/
inductive BigInt
  | word (w : BitVec c.objptr)
  | vector (v : List (BitVec c.limb))
  deriving DecidableEq

/-! ### GnuMP -/

variable (c) in
/-- `__mpz_struct` -/
structure Mpz where
  /-- the number of limbs in use, negative for a negative number -/
  size : ℤ
  d : List (BitVec c.limb)

namespace Mpz

def limbs (m : Mpz c) : List (BitVec c.limb) := m.d.take m.size.natAbs

def value (m : Mpz c) : ℤ := if m.size < 0 then -magnitude m.limbs else magnitude m.limbs

/-- What `int-inf.c` asserts of arguments and results: the most significant limb is not zero. -/
structure Sound (m : Mpz c) : Prop where
  size_le : m.size.natAbs ≤ m.d.length
  trimmed : Trimmed m.limbs

end Mpz

variable (c) in
/-- The routines of GnuMP. -/
structure GnuMP where
  mpz_add : Mpz c → Mpz c → Mpz c
  mpz_and : Mpz c → Mpz c → Mpz c
  mpz_cmp : Mpz c → Mpz c → ℤ
  mpz_com : Mpz c → Mpz c
  mpz_gcd : Mpz c → Mpz c → Mpz c
  mpz_ior : Mpz c → Mpz c → Mpz c
  mpz_mul : Mpz c → Mpz c → Mpz c
  mpz_neg : Mpz c → Mpz c
  mpz_sub : Mpz c → Mpz c → Mpz c
  mpz_tdiv_q : Mpz c → Mpz c → Mpz c
  mpz_tdiv_r : Mpz c → Mpz c → Mpz c
  mpz_xor : Mpz c → Mpz c → Mpz c

namespace BigInt

/-! ### `int-inf.c` -/

/-- `isneg` -/
def isneg (v : List (BitVec c.limb)) : Bool := decide (v.headD 0 ≠ 0)

/-- `fillIntInfArg` -/
def fillIntInfArg : BigInt c → Mpz c
  | word arg =>
    if arg = 1 then ⟨0, []⟩
    else
      let highBitMask := 1#c.objptr <<< (c.objptr - 1)
      let neg := decide (arg &&& highBitMask ≠ 0)
      let arg := if neg then -(arg >>> 1 ||| highBitMask) else arg >>> 1
      { size := if neg then -(c.limbsPerObjptr : ℤ) else c.limbsPerObjptr
        d := (List.range c.limbsPerObjptr).map fun i => (arg >>> (i * c.limb)).setWidth c.limb }
  | vector v =>
    let alloc : ℕ := v.length - 1
    { size := if isneg v then -(alloc : ℤ) else alloc, d := v.tail }

/-- `finiIntInfRes` -/
def finiIntInfRes (res : Mpz c) : BigInt c :=
  let isneg := decide (res.size < 0)
  let size := res.size.natAbs
  let big : BigInt c := vector ((if isneg then 1 else 0) :: res.d.take size)
  if size ≤ 1 then
    let val : BitVec 64 := if size = 0 then 0 else (res.d.headD 0).setWidth 64
    -- it fits if it is one of 1 .. 2^(objptr - 2) when negative, and of 0 .. 2^(objptr - 2) - 1 else
    let ans := if isneg then -val else val
    let val := if isneg then val - 1 else val
    if val.ult (1#64 <<< (c.objptr - 2)) then word ((ans <<< 1 ||| 1).setWidth c.objptr) else big
  else big

def binary (binop : Mpz c → Mpz c → Mpz c) (lhs rhs : BigInt c) : BigInt c :=
  finiIntInfRes (binop (fillIntInfArg lhs) (fillIntInfArg rhs))

def unary (unop : Mpz c → Mpz c) (arg : BigInt c) : BigInt c :=
  finiIntInfRes (unop (fillIntInfArg arg))

namespace Prim

variable (g : GnuMP c)

/-- `IntInf_compare` -/
def compare (lhs rhs : BigInt c) : ℤ :=
  let res := g.mpz_cmp (fillIntInfArg lhs) (fillIntInfArg rhs)
  if res < 0 then -1 else if res > 0 then 1 else 0

/-- `IntInf_equal`; objects at one place have the same contents. -/
def equal : BigInt c → BigInt c → Bool
  | word lhs, word rhs => decide (lhs = rhs)
  | vector lhs, vector rhs => decide (compare g (vector lhs) (vector rhs) = 0)
  | _, _ => false

/-- `Prim.toWord`: of the address of a vector only the last bit is looked at. -/
def toWord : BigInt c → BitVec c.objptr
  | word w => w
  | vector _ => 0

/-- `Prim.fromWord` -/
def fromWord (w : BitVec c.objptr) : BigInt c := word w

/-- `Prim.toVector` -/
def toVector : BigInt c → List (BitVec c.limb)
  | word _ => []
  | vector v => v

end Prim

/-! ### `int-inf0.sml` -/

def isSmall (i : BigInt c) : Bool := isTagged (Prim.toWord i)

def areSmall (i i' : BigInt c) : Bool := isTagged (Prim.toWord i &&& Prim.toWord i')

def numLimbs (i : BigInt c) : ℕ := if isSmall i then 1 else (Prim.toVector i).length - 1

def dropTagCoerce (i : BigInt c) : BitVec c.objptr := dropTag (Prim.toWord i)

def addTagCoerce (w : BitVec c.objptr) : BigInt c := Prim.fromWord (addTag w)

def oneTagCoerce (w : BitVec c.objptr) : BigInt c := Prim.fromWord (oneTag w)

def zero : BigInt c := word 1
def one : BigInt c := word 3

/-- The limbs that `extdFromWord` makes of a word. -/
def limbsOf {n : ℕ} (w : BitVec n) : List (BitVec c.limb) :=
  if w = 0 then [] else w.setWidth c.limb :: limbsOf (w >>> c.limb)
termination_by w.toNat
decreasing_by
  have hpos : 0 < w.toNat := Nat.pos_of_ne_zero fun h => by
    rename_i hne
    exact hne (BitVec.eq_of_toNat_eq (by simpa using h))
  rw [BitVec.toNat_ushiftRight, Nat.shiftRight_eq_div_pow]
  exact Nat.div_lt_self hpos (Nat.one_lt_two_pow c.limb_pos.ne')

/-- `extdFromWord` for a word as wide as an object pointer. -/
def extdFromWord (sextd : Bool) (w : BitVec c.objptr) : BigInt c :=
  let upperBits := w.sshiftRight (c.objptr - 2)
  if upperBits = 0 ∨ sextd ∧ upperBits = ~~~0 then Prim.fromWord (addTag w)
  else if sextd ∧ w.slt 0 then vector (1 :: limbsOf (-w))
  else vector (0 :: limbsOf w)

def sextdFromObjptrInt (i : BitVec c.objptr) : BigInt c := extdFromWord true i

/-- The small integer whose negation is not small. -/
def badObjptrInt : BitVec c.objptr := (I.minInt' : BitVec c.objptr).sshiftRight 1

def negBadIntInf : BigInt c := sextdFromObjptrInt (-badObjptrInt)

def bigIsNeg (arg : BigInt c) : Bool := isneg (Prim.toVector arg)

/-- `make`, for `bigAdd`, `bigSub` and `bigMul` -/
def bigArith (smallOp : BitVec c.objptr → BitVec c.objptr → Except Exn (BitVec c.objptr))
    (bigOp : BigInt c → BigInt c → BigInt c) (lhs rhs : BigInt c) : BigInt c :=
  let res :=
    if areSmall lhs rhs then
      match smallOp (dropTagCoerce lhs) (dropTagCoerce rhs) with
      | .ok answ =>
        let ans := addTag answ
        if sameSignBit ans answ then some (Prim.fromWord ans) else none
      | .error _ => none
    else none
  match res with
  | none => bigOp lhs rhs
  | some i => i

variable (g : GnuMP c)

def bigAdd : BigInt c → BigInt c → BigInt c := bigArith I.add (binary g.mpz_add)
def bigSub : BigInt c → BigInt c → BigInt c := bigArith I.sub (binary g.mpz_sub)
def bigMul : BigInt c → BigInt c → BigInt c := bigArith I.mul (binary g.mpz_mul)

def bigNeg (arg : BigInt c) : BigInt c :=
  if isSmall arg then
    let argw := Prim.toWord arg
    if argw = addTag badObjptrInt then negBadIntInf else Prim.fromWord (2 - argw)
  else unary g.mpz_neg arg

def bigQuot (num den : BigInt c) : Except Exn (BigInt c) :=
  if areSmall num den then
    let numw := dropTagCoerce num
    let deni := dropTagCoerce den
    if numw = badObjptrInt ∧ deni = -1 then .ok negBadIntInf
    else (I.quot numw deni).map addTagCoerce
  else if numLimbs num < numLimbs den then .ok zero
  else if Prim.equal g den zero then .error .div
  else .ok (binary g.mpz_tdiv_q num den)

def bigRem (num den : BigInt c) : Except Exn (BigInt c) :=
  if areSmall num den then (I.rem (dropTagCoerce num) (dropTagCoerce den)).map addTagCoerce
  else if numLimbs num < numLimbs den then .ok num
  else if Prim.equal g den zero then .error .div
  else .ok (binary g.mpz_tdiv_r num den)

/-- `smallGcd`, for so many turns. -/
def smallGcd {n : ℕ} : ℕ → BitVec n → BitVec n → BitVec n → Option (Except Exn (BitVec n))
  | 0, _, _, _ => none
  | fuel + 1, a, b, acc =>
    if a = 0 then some (I.mul b acc)
    else if b = 0 then some (I.mul a acc)
    else if b = 1 then some (.ok acc)
    else if a = 1 then some (.ok acc)
    else if a = b then some (I.mul a acc)
    else if a &&& 1 = 0 then
      if b &&& 1 = 0 then
        match I.add acc acc with
        | .ok acc => smallGcd fuel (a >>> 1) (b >>> 1) acc
        | .error e => some (.error e)
      else smallGcd fuel (a >>> 1) b acc
    else if b &&& 1 = 0 then smallGcd fuel a (b >>> 1) acc
    else if b.sle a then
      match I.sub a b with
      | .ok d => smallGcd fuel (d >>> 1) b acc
      | .error e => some (.error e)
    else
      match I.sub b a with
      | .ok d => smallGcd fuel a (d >>> 1) acc
      | .error e => some (.error e)

section Equations

attribute [local simp] smallGcd

end Equations

/-- `bigGcd`, for so many turns of `smallGcd`. -/
def bigGcd (fuel : ℕ) (lhs rhs : BigInt c) : Option (Except Exn (BigInt c)) :=
  if areSmall lhs rhs then
    match I.abs (dropTagCoerce lhs), I.abs (dropTagCoerce rhs) with
    | .ok a, .ok b => (smallGcd fuel a b 1).map fun r => r.map addTagCoerce
    | .error e, _ | _, .error e => some (.error e)
  else some (.ok (binary g.mpz_gcd lhs rhs))

/-- `make`, for `bigCompare` and the tests -/
def bigTest {β : Type} (smallTest : ℤ → ℤ → β) (lhs rhs : BigInt c) : β :=
  if areSmall lhs rhs then smallTest (Prim.toWord lhs).toInt (Prim.toWord rhs).toInt
  else smallTest (Prim.compare g lhs rhs) 0

def bigCompare : BigInt c → BigInt c → Ordering := bigTest g compare
def bigLT : BigInt c → BigInt c → Bool := bigTest g fun i j => decide (i < j)
def bigLE : BigInt c → BigInt c → Bool := bigTest g fun i j => decide (i ≤ j)
def bigGT : BigInt c → BigInt c → Bool := bigTest g fun i j => decide (i > j)
def bigGE : BigInt c → BigInt c → Bool := bigTest g fun i j => decide (i ≥ j)

def bigAbs (arg : BigInt c) : BigInt c :=
  if isSmall arg then
    let argw := Prim.toWord arg
    if argw = addTag badObjptrInt then negBadIntInf
    else if argw.slt 0 then Prim.fromWord (2 - argw)
    else arg
  else if bigIsNeg arg then unary g.mpz_neg arg
  else arg

def bigDiv (x y : BigInt c) : Except Exn (BigInt c) :=
  if bigGE g x zero then
    if bigGT g y zero then bigQuot g x y
    else if bigLT g y zero then
      if Prim.equal g x zero then .ok zero
      else (bigQuot g (bigSub g x one) y).map fun q => bigSub g q one
    else .error .div
  else if bigLT g y zero then bigQuot g x y
  else if bigGT g y zero then (bigQuot g (bigAdd g x one) y).map fun q => bigSub g q one
  else .error .div

def bigMod (x y : BigInt c) : Except Exn (BigInt c) :=
  if bigGE g x zero then
    if bigGT g y zero then bigRem g x y
    else if bigLT g y zero then
      if Prim.equal g x zero then .ok zero
      else (bigRem g (bigSub g x one) y).map fun r => bigAdd g r (bigAdd g one y)
    else .error .div
  else if bigLT g y zero then bigRem g x y
  else if bigGT g y zero then
    (bigRem g (bigAdd g x one) y).map fun r => bigAdd g r (bigSub g y one)
  else .error .div

/-- `make`, for `bigAndb`, `bigOrb` and `bigXorb` -/
def bigBitwise (smallOp : BitVec c.objptr → BitVec c.objptr → BitVec c.objptr)
    (bigOp : BigInt c → BigInt c → BigInt c) (lhs rhs : BigInt c) : BigInt c :=
  if areSmall lhs rhs then oneTagCoerce (smallOp (Prim.toWord lhs) (Prim.toWord rhs))
  else bigOp lhs rhs

def bigAndb : BigInt c → BigInt c → BigInt c := bigBitwise (· &&& ·) (binary g.mpz_and)
def bigOrb : BigInt c → BigInt c → BigInt c := bigBitwise (· ||| ·) (binary g.mpz_ior)
def bigXorb : BigInt c → BigInt c → BigInt c := bigBitwise (· ^^^ ·) (binary g.mpz_xor)

def bigNotb (arg : BigInt c) : BigInt c :=
  if isSmall arg then oneTagCoerce (~~~(Prim.toWord arg)) else unary g.mpz_com arg

/-- `mkBigLog2`, for so many turns of the loop of `log2`. -/
def mkBigLog2 {β : Type} (fromSmall : ℕ → β) (fromLarge : ℕ → ℕ → β) (fuel : ℕ) (arg : BigInt c) :
    Option (Except Exn β) :=
  if bigLE g arg zero then some (.error .domain)
  else if isSmall arg then
    (W.log2 fuel (dropTagCoerce arg)).map fun r => r.map fun smallLog2 => fromSmall smallLog2.toNat
  else
    let v := Prim.toVector arg
    let n := v.length
    (W.log2 fuel (v.getD (n - 1) 0)).map fun r => r.map fun mostSigLimbLog2 =>
      fromLarge (n - 2) mostSigLimbLog2.toNat

end BigInt

end MultiMLton.Basis
