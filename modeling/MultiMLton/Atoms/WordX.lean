import Mathlib.Data.Int.Bitwise
import Mathlib.Tactic

/-!
# Word constants

The arithmetic of `atoms/word-x.fun` on words of any size, and the sizes of `ast/word-size.fun`. A
word is kept as an integer between zero and the modulus of its size, and all arithmetic goes through
the integers. `WordX.ofBits` reads a bit vector as such a word; for every operation one lemma says
which operation on bit vectors it is:

* `add_ofBits`, `sub_ofBits`, `mul_ofBits`, `neg_ofBits`, `quot_ofBits`, `rem_ofBits`;
* `andb_ofBits`, `orb_ofBits`, `xorb_ofBits`, `notb_ofBits`;
* `lshift_ofBits`, `rshift_ofBits`, `rol_ofBits`, `ror_ofBits`;
* `lt_ofBits`, `ge_ofBits`, `resize_ofBits`, `resizeX_ofBits`.
-/

namespace MultiMLton.Atoms

open BitVec Int

/-- The exceptions the compiler's own code raises while it folds constants. -/
inductive Exn
  | Div
  | Overflow
  | Subscript
  | Bug
  deriving DecidableEq, Repr

/-! ### Integers -/

namespace IntInf

/-- `IntInf.<<` -/
def shl (i : ℤ) (shift : ℕ) : ℤ := i * 2 ^ shift

/-- `IntInf.~>>` -/
def arshift (i : ℤ) (shift : ℕ) : ℤ := i / 2 ^ shift

/-- `IntInf.quot` -/
def quot (i i' : ℤ) : ℤ := i.tdiv i'

/-- `IntInf.rem` -/
def rem (i i' : ℤ) : ℤ := i.tmod i'

/-- `IntInf.toInt`, for the compiler's own 32-bit integers. -/
def toInt (i : ℤ) : Except Exn ℤ :=
  if -2 ^ 31 ≤ i ∧ i < 2 ^ 31 then .ok i else .error .Overflow

end IntInf

/-! ### Sizes -/

/-- `WordSize.t`: the sizes of words, in bits. -/
@[ext] structure WordSize where
  bits : ℕ
  pos : 0 < bits
  le : bits ≤ 64
  deriving DecidableEq

namespace WordSize

def byte : WordSize := ⟨8, by decide, by decide⟩
def compareRes : WordSize := ⟨32, by decide, by decide⟩
def shiftArg : WordSize := ⟨32, by decide, by decide⟩

/-- `WordSize.cardinality`, which `WordX` calls `modulus`. -/
def modulus (s : WordSize) : ℤ := IntInf.shl 1 s.bits

/-- `WordSize.range` -/
def range (s : WordSize) (signed : Bool) : ℤ × ℤ :=
  if signed then
    let pow := IntInf.shl 1 (s.bits - 1)
    (-pow, pow - 1)
  else (0, s.modulus - 1)

def min (s : WordSize) (signed : Bool) : ℤ := (s.range signed).1
def max (s : WordSize) (signed : Bool) : ℤ := (s.range signed).2

/-- `WordSize.isInRange` -/
def isInRange (s : WordSize) (i : ℤ) (signed : Bool) : Bool :=
  decide (s.min signed ≤ i ∧ i ≤ s.max signed)

theorem modulus_eq (s : WordSize) : s.modulus = 2 ^ s.bits := by simp [modulus, IntInf.shl]

theorem modulus_pos (s : WordSize) : 0 < s.modulus := by rw [modulus_eq]; positivity

theorem two_pow_bits (s : WordSize) : (2 : ℤ) ^ s.bits = 2 * 2 ^ (s.bits - 1) := by
  have hpos := s.pos
  rw [← pow_succ']
  congr 1
  omega

end WordSize

/-! ### Words -/

/-- `WordX.t` -/
@[ext] structure WordX where
  size : WordSize
  value : ℤ
  nonneg : 0 ≤ value
  lt_modulus : value < size.modulus
  deriving DecidableEq

namespace WordX

/-- `WordX.make`, also called `WordX.fromIntInf`. -/
def make (i : ℤ) (s : WordSize) : WordX where
  size := s
  value := i % s.modulus
  nonneg := Int.emod_nonneg _ s.modulus_pos.ne'
  lt_modulus := Int.emod_lt_of_pos _ s.modulus_pos

/-- `WordX.toIntInfX` -/
def toIntInfX (w : WordX) : ℤ :=
  if w.value ≥ w.size.modulus / 2 then w.value - w.size.modulus else w.value

/-- `WordX.toIntInfSg` -/
def toIntInfSg (w : WordX) (signed : Bool) : ℤ := if signed then w.toIntInfX else w.value

def toInt (w : WordX) : Except Exn ℤ := IntInf.toInt w.value

def zero (s : WordSize) : WordX := make 0 s
def one (s : WordSize) : WordX := make 1 s
def max (s : WordSize) (signed : Bool) : WordX := make (s.max signed) s
def min (s : WordSize) (signed : Bool) : WordX := make (s.min signed) s

/-- The function behind `lshift` and `>>`. -/
def shift (f : ℤ → ℕ → ℤ) (w w' : WordX) : WordX :=
  if w'.value ≥ w.size.bits then zero w.size else make (f w.value w'.value.toNat) w.size

def lshift : WordX → WordX → WordX := shift IntInf.shl

/-- `WordX.>>`, where the value is not negative. -/
def urshift : WordX → WordX → WordX := shift IntInf.arshift

def equals (w w' : WordX) : Bool := decide (w.size = w'.size) && decide (w.value = w'.value)

def isAllOnes (w : WordX) : Bool := decide (w.value = w.size.modulus - 1)
def isOne (w : WordX) : Bool := decide (1 = w.value)
def isZero (w : WordX) : Bool := decide (0 = w.value)
def isNegOne (w : WordX) : Bool := decide (-1 = w.toIntInfX)
def isMax (w : WordX) (signed : Bool) : Bool := w.equals (max w.size signed)
def isMin (w : WordX) (signed : Bool) : Bool := w.equals (min w.size signed)

def notb (w : WordX) : WordX := make (Int.lnot w.value) w.size

def resize (w : WordX) (s : WordSize) : WordX := make w.value s
def resizeX (w : WordX) (s : WordSize) : WordX := make w.toIntInfX s

/-- `WordX.~>>` -/
def arshift (w w' : WordX) : WordX :=
  let shift := if w'.value > w.size.bits then w.size.bits else w'.value.toNat
  make (IntInf.arshift w.toIntInfX shift) w.size

def rshift (w w' : WordX) (signed : Bool) : WordX := if signed then arshift w w' else urshift w w'

/-- `WordX.swap` -/
def swap (i : ℤ) (hi lo : ℕ) : ℤ :=
  Int.lor (IntInf.arshift i lo) (IntInf.shl (i % IntInf.shl 1 lo) hi)

def rol (w w' : WordX) : WordX :=
  let shift := (w'.value % w.size.bits).toNat
  make (swap w.value shift (w.size.bits - shift)) w.size

def ror (w w' : WordX) : WordX :=
  let shift := (w'.value % w.size.bits).toNat
  make (swap w.value (w.size.bits - shift) shift) w.size

/-- The function behind the binary operations on the values. -/
def binary (f : ℤ → ℤ → ℤ) (w w' : WordX) : Except Exn WordX :=
  if w.size = w'.size then .ok (make (f w.value w'.value) w.size) else .error .Bug

def add : WordX → WordX → Except Exn WordX := binary (· + ·)
def sub : WordX → WordX → Except Exn WordX := binary (· - ·)
def andb : WordX → WordX → Except Exn WordX := binary Int.land
def orb : WordX → WordX → Except Exn WordX := binary Int.lor
def xorb : WordX → WordX → Except Exn WordX := binary Int.xor

def neg (w : WordX) : WordX := make (-w.toIntInfX) w.size

/-- The function behind the operations that depend on the sign. -/
def binarySg (f : ℤ → ℤ → ℤ) (w w' : WordX) (signed : Bool) : Except Exn WordX :=
  if w.size = w'.size then .ok (make (f (w.toIntInfSg signed) (w'.toIntInfSg signed)) w.size)
  else .error .Bug

def mul : WordX → WordX → Bool → Except Exn WordX := binarySg (· * ·)
def quot : WordX → WordX → Bool → Except Exn WordX := binarySg IntInf.quot
def rem : WordX → WordX → Bool → Except Exn WordX := binarySg IntInf.rem

/-- The function behind the comparisons. -/
def comparison (f : ℤ → ℤ → Bool) (w w' : WordX) (signed : Bool) : Except Exn Bool :=
  if w.size = w'.size then .ok (f (w.toIntInfSg signed) (w'.toIntInfSg signed)) else .error .Bug

def lt : WordX → WordX → Bool → Except Exn Bool := comparison (fun i i' => decide (i < i'))
def gt : WordX → WordX → Bool → Except Exn Bool := comparison (fun i i' => decide (i > i'))
def ge : WordX → WordX → Bool → Except Exn Bool := comparison (fun i i' => decide (i ≥ i'))

/-! ### Words as bit vectors -/

/-- The word with these bits. -/
def ofBits (s : WordSize) (b : BitVec s.bits) : WordX where
  size := s
  value := b.toNat
  nonneg := Int.natCast_nonneg _
  lt_modulus := by rw [s.modulus_eq]; exact_mod_cast b.isLt

/-- The bits of a word. -/
def bv (w : WordX) : BitVec w.size.bits := BitVec.ofInt _ w.value

@[simp] theorem ofBits_size (s : WordSize) (b : BitVec s.bits) : (ofBits s b).size = s := rfl

@[simp] theorem ofBits_value (s : WordSize) (b : BitVec s.bits) : (ofBits s b).value = b.toNat := rfl

@[simp] theorem make_size (i : ℤ) (s : WordSize) : (make i s).size = s := rfl

@[simp] theorem ofBits_bv (w : WordX) : ofBits w.size w.bv = w := by
  have hmod : w.value % w.size.modulus = w.value := emod_eq_of_lt w.nonneg w.lt_modulus
  ext1
  · rfl
  · rw [w.size.modulus_eq] at hmod
    simp only [ofBits_value, bv, toNat_ofInt]
    rw [toNat_of_nonneg (emod_nonneg _ (by positivity))]
    exact_mod_cast hmod

@[simp] theorem bv_ofBits (s : WordSize) (b : BitVec s.bits) : (ofBits s b).bv = b := by
  simp [bv]

theorem ofBits_inj {s : WordSize} {b b' : BitVec s.bits} : ofBits s b = ofBits s b' ↔ b = b' := by
  refine ⟨fun h => eq_of_toNat_eq ?_, fun h => h ▸ rfl⟩
  have hval : (b.toNat : ℤ) = b'.toNat := congrArg WordX.value h
  exact_mod_cast hval

/-- Making a word from an integer keeps its low bits. -/
theorem make_eq (i : ℤ) (s : WordSize) : make i s = ofBits s (BitVec.ofInt s.bits i) := by
  ext1
  · rfl
  · simp only [make, ofBits_value, toNat_ofInt, s.modulus_eq]
    rw [toNat_of_nonneg (emod_nonneg _ (by positivity))]
    norm_cast

@[simp] theorem toIntInfX_ofBits (s : WordSize) (b : BitVec s.bits) :
    (ofBits s b).toIntInfX = b.toInt := by
  have hhalf := s.two_pow_bits
  have hdiv : (2 : ℤ) ^ s.bits / 2 = 2 ^ (s.bits - 1) := by omega
  simp only [toIntInfX, ofBits_value, ofBits_size, s.modulus_eq, hdiv, toInt_eq_toNat_cond]
  push_cast
  have hcond : 2 * b.toNat < 2 ^ s.bits ↔ (2 * b.toNat : ℤ) < 2 ^ s.bits := by norm_cast
  simp only [hcond]
  split_ifs <;> omega

/-- The integer that a bit vector stands for, with or without a sign. -/
def sgInt {n : ℕ} (b : BitVec n) (signed : Bool) : ℤ := if signed then b.toInt else b.toNat

@[simp] theorem toIntInfSg_ofBits (s : WordSize) (b : BitVec s.bits) (signed : Bool) :
    (ofBits s b).toIntInfSg signed = sgInt b signed := by
  simp [toIntInfSg, sgInt]

@[simp] theorem ofInt_sgInt {n : ℕ} (b : BitVec n) (signed : Bool) :
    BitVec.ofInt n (sgInt b signed) = b := by
  cases signed <;> simp [sgInt]

section Operations

variable (s : WordSize) (a b : BitVec s.bits)

@[simp] theorem zero_eq : zero s = ofBits s 0#s.bits := by simp [zero, make_eq]

@[simp] theorem one_eq : one s = ofBits s 1#s.bits := by simp [one, make_eq]

@[simp] theorem add_ofBits : (ofBits s a).add (ofBits s b) = .ok (ofBits s (a + b)) := by
  simp [add, binary, make_eq, BitVec.ofInt_add]

@[simp] theorem sub_ofBits : (ofBits s a).sub (ofBits s b) = .ok (ofBits s (a - b)) := by
  simp [sub, binary, make_eq, Int.sub_eq_add_neg, BitVec.ofInt_add, BitVec.ofInt_neg,
    BitVec.sub_eq_add_neg]

@[simp] theorem neg_ofBits : (ofBits s a).neg = ofBits s (-a) := by
  simp [neg, make_eq, BitVec.ofInt_neg]

@[simp] theorem mul_ofBits (signed : Bool) :
    (ofBits s a).mul (ofBits s b) signed = .ok (ofBits s (a * b)) := by
  simp [mul, binarySg, make_eq, ofInt_mul]

@[simp] theorem andb_ofBits : (ofBits s a).andb (ofBits s b) = .ok (ofBits s (a &&& b)) := by
  have hval : Int.land a.toNat b.toNat = ((a &&& b).toNat : ℤ) := by
    rw [toNat_and]
    rfl
  simp [andb, binary, make_eq, hval, -toNat_and]

@[simp] theorem orb_ofBits : (ofBits s a).orb (ofBits s b) = .ok (ofBits s (a ||| b)) := by
  have hval : Int.lor a.toNat b.toNat = ((a ||| b).toNat : ℤ) := by
    rw [toNat_or]
    rfl
  simp [orb, binary, make_eq, hval, -toNat_or]

@[simp] theorem xorb_ofBits : (ofBits s a).xorb (ofBits s b) = .ok (ofBits s (a ^^^ b)) := by
  have hval : Int.xor a.toNat b.toNat = ((a ^^^ b).toNat : ℤ) := by
    rw [toNat_xor]
    rfl
  simp [xorb, binary, make_eq, hval, -toNat_xor]

@[simp] theorem notb_ofBits : (ofBits s a).notb = ofBits s (~~~a) := by
  have hval : lnot a.toNat = Int.negSucc a.toNat := rfl
  simp [notb, make_eq, hval]

@[simp] theorem quot_ofBits (signed : Bool) :
    (ofBits s a).quot (ofBits s b) signed =
      .ok (ofBits s (if signed then a.sdiv b else a.udiv b)) := by
  cases signed with
  | true =>
    have hval : BitVec.ofInt s.bits (a.toInt.tdiv b.toInt) = a.sdiv b := by
      rw [← toInt_inj, toInt_sdiv, toInt_ofInt]
    simp [quot, binarySg, make_eq, IntInf.quot, sgInt, hval]
  | false =>
    have hval : (a.toNat : ℤ).tdiv b.toNat = ((a.udiv b).toNat : ℤ) := by
      rw [udiv_eq, toNat_udiv]
      exact ofNat_tdiv _ _
    simp [quot, binarySg, make_eq, IntInf.quot, sgInt, hval, -toNat_udiv]

@[simp] theorem rem_ofBits (signed : Bool) :
    (ofBits s a).rem (ofBits s b) signed =
      .ok (ofBits s (if signed then a.srem b else a.umod b)) := by
  cases signed with
  | true =>
    have hval : BitVec.ofInt s.bits (a.toInt.tmod b.toInt) = a.srem b := by
      rw [← toInt_srem, ofInt_toInt]
    simp [rem, binarySg, make_eq, IntInf.rem, sgInt, hval]
  | false =>
    have hval : (a.toNat : ℤ).tmod b.toNat = ((a.umod b).toNat : ℤ) := by
      rw [umod_eq, toNat_umod]
      exact ofNat_tmod _ _
    simp [rem, binarySg, make_eq, IntInf.rem, sgInt, hval, -toNat_umod]

@[simp] theorem lt_ofBits (signed : Bool) :
    (ofBits s a).lt (ofBits s b) signed = .ok (decide (sgInt a signed < sgInt b signed)) := by
  simp [lt, comparison]

@[simp] theorem ge_ofBits (signed : Bool) :
    (ofBits s a).ge (ofBits s b) signed = .ok (decide (sgInt b signed ≤ sgInt a signed)) := by
  simp [ge, comparison]

@[simp] theorem equals_ofBits : (ofBits s a).equals (ofBits s b) = decide (a = b) := by
  simp [equals, BitVec.toNat_inj]

@[simp] theorem resize_ofBits (s' : WordSize) :
    (ofBits s a).resize s' = ofBits s' (a.setWidth s'.bits) := by
  simp [resize, make_eq]

@[simp] theorem resizeX_ofBits (s' : WordSize) :
    (ofBits s a).resizeX s' = ofBits s' (a.signExtend s'.bits) := by
  simp [resizeX, make_eq, signExtend]

end Operations

section Shifts

variable (s : WordSize) (a : BitVec s.bits) {s' : WordSize} (k : BitVec s'.bits)

theorem shift_ofBits (f : ℤ → ℕ → ℤ) :
    (ofBits s a).shift f (ofBits s' k) =
      if s.bits ≤ k.toNat then ofBits s 0#s.bits
      else ofBits s (BitVec.ofInt s.bits (f a.toNat k.toNat)) := by
  by_cases h : s.bits ≤ k.toNat
  · rw [shift, if_pos (by simpa using h), if_pos h]
    exact zero_eq s
  · rw [shift, if_neg (by simpa using h), if_neg h]
    exact make_eq _ s

@[simp] theorem lshift_ofBits :
    (ofBits s a).lshift (ofBits s' k) = ofBits s (a <<< k.toNat) := by
  rw [lshift, shift_ofBits]
  split_ifs with h
  · rw [BitVec.shiftLeft_eq_zero h]
  · have hval : IntInf.shl a.toNat k.toNat = ((a.toNat <<< k.toNat : ℕ) : ℤ) := by
      simp [IntInf.shl, Nat.shiftLeft_eq]
    rw [hval, BitVec.ofInt_natCast, ofBits_inj, ← BitVec.toNat_inj]
    simp

@[simp] theorem urshift_ofBits :
    (ofBits s a).urshift (ofBits s' k) = ofBits s (a >>> k.toNat) := by
  rw [urshift, shift_ofBits]
  split_ifs with h
  · rw [BitVec.ushiftRight_eq_zero h]
  · have hval : IntInf.arshift a.toNat k.toNat = ((a >>> k.toNat).toNat : ℤ) := by
      simp [IntInf.arshift, Nat.shiftRight_eq_div_pow]
    rw [hval, BitVec.ofInt_natCast, BitVec.ofNat_toNat, BitVec.setWidth_eq]

/-- Shifting by more than the size is shifting by the size. -/
theorem sshiftRight_size {n m : ℕ} (b : BitVec n) (h : n < m) :
    b.sshiftRight n = b.sshiftRight m := by
  ext i hi
  simp only [getElem_sshiftRight]
  rw [dif_neg (by omega), dif_neg (by omega)]

@[simp] theorem arshift_ofBits :
    (ofBits s a).arshift (ofBits s' k) = ofBits s (a.sshiftRight k.toNat) := by
  have hval (n : ℕ) : make (IntInf.arshift a.toInt n) s = ofBits s (a.sshiftRight n) := by
    rw [make_eq, BitVec.sshiftRight_eq, IntInf.arshift, Int.shiftRight_eq_div_pow]
    norm_cast
  by_cases h : s.bits < k.toNat
  · rw [arshift, toIntInfX_ofBits, if_pos (by simpa using h), ← sshiftRight_size a h]
    exact hval _
  · rw [arshift, toIntInfX_ofBits, if_neg (by simpa using h)]
    exact hval _

@[simp] theorem rshift_ofBits (signed : Bool) :
    (ofBits s a).rshift (ofBits s' k) signed =
      ofBits s (if signed then a.sshiftRight k.toNat else a >>> k.toNat) := by
  cases signed <;> simp [rshift]

/-- `swap` puts the low bits above the others. -/
theorem make_swap {hi lo : ℕ} (hsum : hi + lo = s.bits) :
    make (swap a.toNat hi lo) s = ofBits s (a <<< hi ||| a >>> lo) := by
  have hlow : (a.toNat % 2 ^ lo) <<< hi = a.toNat <<< hi % 2 ^ s.bits := by
    have hpow : 2 ^ s.bits = 2 ^ lo * 2 ^ hi := by rw [← hsum, Nat.add_comm, pow_add]
    rw [hpow, Nat.shiftLeft_eq, Nat.shiftLeft_eq, Nat.mul_mod_mul_right]
  have hval : swap a.toNat hi lo = ((a >>> lo ||| a <<< hi).toNat : ℤ) := by
    have hor (m n : ℕ) : Int.lor m n = ((m ||| n : ℕ) : ℤ) := rfl
    rw [toNat_or, toNat_ushiftRight, toNat_shiftLeft, ← hlow, ← hor, swap]
    congr 1
    · simp [IntInf.arshift, Nat.shiftRight_eq_div_pow]
    · simp [IntInf.shl, Nat.shiftLeft_eq]
  rw [make_eq, hval, BitVec.ofInt_natCast, BitVec.ofNat_toNat, BitVec.setWidth_eq, BitVec.or_comm]

@[simp] theorem rol_ofBits :
    (ofBits s a).rol (ofBits s' k) = ofBits s (a.rotateLeft k.toNat) := by
  have hlt := Nat.mod_lt k.toNat s.pos
  have hshift : ((k.toNat : ℤ) % s.bits).toNat = k.toNat % s.bits := by norm_cast
  rw [rol, ofBits_value, ofBits_value, ofBits_size, hshift, make_swap s a (by omega),
    rotateLeft_def]

@[simp] theorem ror_ofBits :
    (ofBits s a).ror (ofBits s' k) = ofBits s (a.rotateRight k.toNat) := by
  have hlt := Nat.mod_lt k.toNat s.pos
  have hshift : ((k.toNat : ℤ) % s.bits).toNat = k.toNat % s.bits := by norm_cast
  rw [ror, ofBits_value, ofBits_value, ofBits_size, hshift, make_swap s a (by omega),
    BitVec.rotateRight_def, BitVec.or_comm]

end Shifts

end WordX

end MultiMLton.Atoms
