import Mathlib.Data.Int.Log
import Mathlib.Data.NNRat.Floor
import MultiMLton.Atoms.WordX

/-!
# Real constants

The numbers of IEEE 754 in the two sizes of `RealSize.t`, and `atoms/real-x.fun`, with which the
compiler computes on them. All NaNs are one: the Basis Library does not tell them apart.

* `RealSize.round`: rounding in a given mode, which may overflow;
* `RealOf.arith`: the four operations. `RealOf.arith_agrees`: a result that comes out the same
  rounded down and rounded up comes out the same in every mode;
* `RealX`: the constants, and what the folder asks of them.
-/

namespace MultiMLton.Atoms

open Int Nat

/-- `RealSize.t` -/
inductive RealSize
  | R32
  | R64
  deriving DecidableEq, Repr

/-- `IEEEReal.rounding_mode` -/
inductive RoundingMode
  | toNearest
  | toNegInf
  | toPosInf
  | toZero
  deriving DecidableEq, Repr

/-- What a real stands for: a number is kept as its sign and its absolute value. -/
inductive Datum
  | nan
  | inf (signBit : Bool)
  | fin (signBit : Bool) (abs : ℚ≥0)
  deriving DecidableEq

namespace RealSize

variable (s : RealSize)

/-- `RealSize.bits` -/
def bits : RealSize → ℕ
  | R32 => 32
  | R64 => 64

def wordSize : WordSize := ⟨s.bits, by cases s <;> decide, by cases s <;> decide⟩

/-- The binary digits of a number, its first one included. -/
def precision : RealSize → ℕ
  | R32 => 24
  | R64 => 53

/-- The exponent of the largest numbers. -/
def emax : RealSize → ℤ
  | R32 => 127
  | R64 => 1023

/-- The exponent below which digits are lost. -/
def emin : ℤ := 1 - s.emax

def largest : ℚ≥0 := (2 ^ s.precision - 1 : ℕ) * 2 ^ (s.emax - (s.precision - 1))

/-- The exponent of the last digit of the numbers next to `q`. -/
def lastExp (q : ℚ≥0) : ℤ := max (Int.log 2 q) s.emin - (s.precision - 1)

/-- The absolute values that have a number of this size. -/
def Representable (q : ℚ≥0) : Prop :=
  q ≤ s.largest ∧
    ∃ m : ℕ, ∃ e : ℤ, m < 2 ^ s.precision ∧ s.emin - (s.precision - 1) ≤ e ∧ q = m * 2 ^ e

end RealSize

/-- A datum of size `s`. -/
def Datum.Fits (s : RealSize) : Datum → Prop
  | .fin _ a => s.Representable a
  | _ => True

/-- `Real32.t` and `Real64.t` -/
def RealOf (s : RealSize) := { x : Datum // x.Fits s }

instance (s : RealSize) : DecidableEq (RealOf s) :=
  inferInstanceAs (DecidableEq { x : Datum // x.Fits s })

/-! ### Rounding -/

namespace RoundingMode

variable (mode : RoundingMode) (signBit : Bool)

/-- The integer next to the absolute value `m`; between two, the even one if they are as near. -/
def toInt (m : ℚ≥0) : ℕ :=
  match mode with
  | toNearest => if m < ⌊m⌋₊ + 1 / 2 ∨ (m = ⌊m⌋₊ + 1 / 2 ∧ ⌊m⌋₊ % 2 = 0) then ⌊m⌋₊ else ⌊m⌋₊ + 1
  | toNegInf => if signBit then ⌈m⌉₊ else ⌊m⌋₊
  | toPosInf => if signBit then ⌊m⌋₊ else ⌈m⌉₊
  | toZero => ⌊m⌋₊

/-- Whether numbers too large become infinite. -/
def toInfinity : Bool :=
  match mode with
  | toNearest => true
  | toNegInf => signBit
  | toPosInf => !signBit
  | toZero => false

theorem toInt_natCast (k : ℕ) : mode.toInt signBit k = k := by
  cases mode <;> simp [toInt]

theorem toInt_le_ceil (m : ℚ≥0) : mode.toInt signBit m ≤ ⌈m⌉₊ := by
  have hfloor := floor_le_ceil m
  cases mode with
  | toNearest =>
    simp only [toInt]
    split_ifs with h
    · exact hfloor
    · refine lt_ceil.2 ?_
      have hhalf : (⌊m⌋₊ : ℚ≥0) < ⌊m⌋₊ + 1 / 2 := lt_add_of_pos_right _ (by norm_num)
      exact hhalf.trans_le (not_lt.1 fun hlt => h (.inl hlt))
  | toZero => exact hfloor
  | _ =>
    simp only [toInt]
    split_ifs <;> first | exact le_rfl | exact hfloor

end RoundingMode

namespace RealSize

variable (s : RealSize) {q : ℚ≥0}

theorem representable_mul {k : ℕ} {e : ℤ} (hk : k ≤ 2 ^ s.precision)
    (he : s.emin - (s.precision - 1) ≤ e) (hle : (k : ℚ≥0) * 2 ^ e ≤ s.largest) :
    s.Representable (k * 2 ^ e) := by
  refine ⟨hle, ?_⟩
  rcases hk.lt_or_eq with hlt | rfl
  · exact ⟨k, e, hlt, he, rfl⟩
  -- a carry into the next exponent
  · refine ⟨2 ^ (s.precision - 1), e + 1, ?_, by omega, ?_⟩
    · exact Nat.pow_lt_pow_right (by norm_num) (by cases s <;> decide)
    · have hsplit : 2 ^ s.precision = 2 ^ (s.precision - 1) * 2 := by cases s <;> rfl
      rw [zpow_add_one₀ (by norm_num), hsplit]
      push_cast
      ring

theorem div_lt (q : ℚ≥0) : q / 2 ^ s.lastExp q < 2 ^ s.precision := by
  have hlog := lt_zpow_succ_log_self (b := 2) (by norm_num) q
  rw [div_lt_iff₀ (by positivity), ← zpow_natCast, ← zpow_add₀ (by norm_num)]
  refine hlog.trans_le (zpow_le_zpow_right₀ (by norm_num) ?_)
  simp only [lastExp]
  omega

/-- The absolute value `q` with as many digits as a number has. -/
def digits (mode : RoundingMode) (signBit : Bool) (q : ℚ≥0) : ℚ≥0 :=
  mode.toInt signBit (q / 2 ^ s.lastExp q) * 2 ^ s.lastExp q

/-- The number of this size for an absolute value and a sign. -/
def round (mode : RoundingMode) (signBit : Bool) (q : ℚ≥0) : Datum :=
  if s.digits mode signBit q ≤ s.largest then .fin signBit (s.digits mode signBit q)
  else if mode.toInfinity signBit then .inf signBit
  else .fin signBit s.largest

variable {mode : RoundingMode} {signBit : Bool}

theorem representable_digits (hle : s.digits mode signBit q ≤ s.largest) :
    s.Representable (s.digits mode signBit q) := by
  refine s.representable_mul ((mode.toInt_le_ceil _ _).trans ?_) ?_ hle
  · rw [Nat.ceil_le]
    exact_mod_cast (s.div_lt q).le
  · simp only [lastExp]
    omega

theorem representable_largest : s.Representable s.largest :=
  ⟨le_rfl, _, _, by cases s <;> decide, by cases s <;> decide, rfl⟩

theorem round_fits (mode : RoundingMode) (signBit : Bool) (q : ℚ≥0) :
    (s.round mode signBit q).Fits s := by
  unfold round
  split_ifs with hle
  · exact s.representable_digits hle
  · trivial
  · exact s.representable_largest

/-- A number of this size is a multiple of its last digit. -/
theorem Representable.exists_nat (h : s.Representable q) : ∃ k : ℕ, q / 2 ^ s.lastExp q = k := by
  obtain ⟨-, m, e, hm, he, rfl⟩ := h
  rcases Nat.eq_zero_or_pos m with rfl | hpos
  · exact ⟨0, by simp⟩
  have hlog : Int.log 2 ((m : ℚ≥0) * 2 ^ e) < s.precision + e := by
    rw [← lt_zpow_iff_log_lt (by norm_num) (by positivity), zpow_add₀ (by norm_num)]
    exact mul_lt_mul_of_pos_right (by exact_mod_cast hm) (by positivity)
  have hexp : s.lastExp (m * 2 ^ e) ≤ e := by
    simp only [lastExp]
    omega
  refine ⟨m * 2 ^ (e - s.lastExp (m * 2 ^ e)).toNat, ?_⟩
  rw [mul_div_assoc, ← zpow_sub₀ (by norm_num)]
  push_cast
  rw [← zpow_natCast, toNat_of_nonneg (by omega)]

theorem round_of_representable (h : s.Representable q) :
    s.round mode signBit q = .fin signBit q := by
  obtain ⟨k, hk⟩ := h.exists_nat
  have heq : s.digits mode signBit q = q := by
    rw [digits, hk, RoundingMode.toInt_natCast, ← hk, div_mul_cancel₀ _ (by positivity)]
  rw [round, heq, if_pos h.1]

/-- Only a number of this size comes out the same rounded down and rounded up. -/
theorem representable_of_round (h : s.round .toNegInf signBit q = s.round .toPosInf signBit q) :
    s.Representable q := by
  have hfloor : s.digits .toZero false q ≤ q := by
    rw [digits, ← le_div_iff₀ (by positivity)]
    exact floor_le (by positivity)
  have hceil : q ≤ s.digits .toPosInf false q := by
    rw [digits, ← div_le_iff₀ (by positivity)]
    exact le_ceil _
  -- one of the two is rounded to zero and the other away from it
  have heq : s.digits .toPosInf false q ≤ s.largest ∧
      s.digits .toZero false q = s.digits .toPosInf false q := by
    have hle : s.digits .toPosInf false q ≤ s.largest → s.digits .toZero false q ≤ s.largest :=
      (hfloor.trans hceil).trans
    have hdown : s.digits .toNegInf false q = s.digits .toZero false q := rfl
    have hup : s.digits .toPosInf true q = s.digits .toZero false q := rfl
    have haway : s.digits .toNegInf true q = s.digits .toPosInf false q := rfl
    cases signBit
    all_goals
      simp only [round, RoundingMode.toInfinity, hdown, hup, haway] at h
      grind
  rw [le_antisymm hceil (heq.2 ▸ hfloor)]
  exact s.representable_digits heq.1

theorem representable_zero : s.Representable 0 :=
  ⟨zero_le, 0, _, by positivity, le_rfl, by simp⟩

theorem round_zero : s.round mode signBit 0 = .fin signBit 0 :=
  s.round_of_representable s.representable_zero

theorem round_agrees (h : s.round .toNegInf signBit q = s.round .toPosInf signBit q) :
    s.round mode signBit q = s.round .toNegInf signBit q := by
  have hrep := s.representable_of_round h
  rw [s.round_of_representable hrep, s.round_of_representable hrep]

end RealSize

/-! ### Arithmetic -/

/-- The operations of two reals that are rounded once. -/
inductive RealOp
  | add
  | div
  | mul
  | sub
  deriving DecidableEq, Repr

namespace Datum

def isNan : Datum → Bool
  | nan => true
  | _ => false

def signBit : Datum → Bool
  | nan => false
  | inf b => b
  | fin b _ => b

def neg : Datum → Datum
  | nan => nan
  | inf b => inf !b
  | fin b a => fin (!b) a

def abs : Datum → Datum
  | nan => nan
  | inf _ => inf false
  | fin _ a => fin false a

def number (signBit : Bool) (abs : ℚ≥0) : ℚ := if signBit then -abs else abs

/-- The place of a datum in the order. -/
def key : Datum → WithBot (WithTop ℚ)
  | nan => ⊥
  | inf b => if b then ⊥ else ((⊤ : WithTop ℚ) : WithBot (WithTop ℚ))
  | fin b a => ((number b a : WithTop ℚ) : WithBot (WithTop ℚ))

/-- `Real.compareReal`; `none` is `UNORDERED`. -/
def compareReal (x y : Datum) : Option Ordering :=
  if x.isNan || y.isNan then none else some (compare x.key y.key)

section Operations

variable (s : RealSize) (mode : RoundingMode)

/-- A sum that is zero has the sign of its terms, or that of the rounding mode. -/
def add : Datum → Datum → Datum
  | nan, _ | _, nan => nan
  | inf b, inf b' => if b = b' then inf b else nan
  | inf b, fin _ _ | fin _ _, inf b => inf b
  | fin b a, fin b' a' =>
    let z := number b a + number b' a'
    if z = 0 then fin (if b = b' then b else decide (mode = .toNegInf)) 0
    else s.round mode (decide (z < 0)) (Rat.nnabs z)

def mul : Datum → Datum → Datum
  | nan, _ | _, nan => nan
  | inf b, inf b' => inf (b ^^ b')
  | inf b, fin b' a | fin b' a, inf b => if a = 0 then nan else inf (b ^^ b')
  | fin b a, fin b' a' => s.round mode (b ^^ b') (a * a')

def div : Datum → Datum → Datum
  | nan, _ | _, nan => nan
  | inf _, inf _ => nan
  | inf b, fin b' _ => inf (b ^^ b')
  | fin b _, inf b' => fin (b ^^ b') 0
  | fin b a, fin b' a' =>
    if a' = 0 then (if a = 0 then nan else inf (b ^^ b')) else s.round mode (b ^^ b') (a / a')

def arith (op : RealOp) (x y : Datum) : Datum :=
  match op with
  | .add => add s mode x y
  | .div => div s mode x y
  | .mul => mul s mode x y
  | .sub => add s mode x y.neg

/-- An integer, rounded. -/
def ofInt (i : ℤ) : Datum := s.round mode (decide (i < 0)) i.natAbs

theorem add_fits (x y : Datum) : (add s mode x y).Fits s := by
  cases x <;> cases y <;> simp only [add] <;> try split_ifs
  all_goals first
    | exact s.round_fits _ _ _
    | exact s.representable_zero
    | trivial

theorem arith_fits (op : RealOp) (x y : Datum) : (arith s mode op x y).Fits s := by
  cases op with
  | add | sub => exact add_fits s mode _ _
  | div | mul =>
    cases x <;> cases y <;> simp only [arith, mul, div] <;> try split_ifs
    all_goals first
      | exact s.round_fits _ _ _
      | exact s.representable_zero
      | trivial

variable {s} {x y : Datum}

theorem add_agrees (h : add s .toNegInf x y = add s .toPosInf x y) :
    add s mode x y = add s .toNegInf x y := by
  cases x <;> cases y <;> try rfl
  simp only [add] at h ⊢
  split_ifs at h ⊢
  · rfl
  · simp at h
  · exact s.round_agrees h

/-- What comes out the same rounded down and rounded up does so in every mode. -/
theorem arith_agrees {op : RealOp} (h : arith s .toNegInf op x y = arith s .toPosInf op x y) :
    arith s mode op x y = arith s .toNegInf op x y := by
  cases op with
  | add | sub => exact add_agrees mode h
  | mul =>
    cases x <;> cases y <;> try rfl
    exact s.round_agrees h
  | div =>
    cases x <;> cases y <;> try rfl
    simp only [arith, div] at h ⊢
    split_ifs at h ⊢
    · rfl
    · rfl
    · exact s.round_agrees h

end Operations

theorem number_inj {b : Bool} {a a' : ℚ≥0} (h : number b a = number b a') : a = a' := by
  cases b <;> simpa [number] using h

/-- Equal numbers with equal signs are the same, and so are NaNs. -/
theorem same_iff {x y : Datum} :
    x.compareReal y = some .eq ∧ x.signBit = y.signBit ∨ x.isNan ∧ y.isNan ↔ x = y := by
  constructor
  · rintro (⟨h, hsign⟩ | ⟨hx, hy⟩)
    · cases x <;> cases y <;> simp_all [compareReal, isNan, key, signBit]
      · split_ifs at h <;> simp at h
      · split_ifs at h <;> simp at h
      · exact number_inj h
    · cases x <;> cases y <;> simp_all [isNan]
  · rintro rfl
    cases x <;> simp [compareReal, isNan]

section Identities

variable {s : RealSize} {mode : RoundingMode}

theorem mul_swap (x y : Datum) : mul s mode x y = mul s mode y x := by
  cases x <;> cases y <;> simp [mul, Bool.xor_comm, mul_comm]

/-- Products with one and minus one. -/
theorem mul_unit {x : Datum} (hx : x.Fits s) (b : Bool) :
    mul s mode x (fin b 1) = if b then x.neg else x := by
  cases x with
  | nan => simp [mul, neg]
  | inf b' => cases b <;> simp [mul, neg]
  | fin b' a =>
    simp only [mul, mul_one, s.round_of_representable hx]
    cases b <;> simp [neg]

theorem div_unit {x : Datum} (hx : x.Fits s) (b : Bool) :
    div s mode x (fin b 1) = if b then x.neg else x := by
  rw [← @mul_unit s mode x hx]
  cases x <;> simp [mul, div]

theorem add_self (x : Datum) : add s mode x x = mul s mode x (fin false 2) := by
  cases x with
  | nan => rfl
  | inf b => simp [add, mul]
  | fin b a =>
    have hz : number b a + number b a = number b (a * 2) := by
      cases b <;> simp [number] <;> ring
    rcases eq_or_ne a 0 with rfl | ha
    · simp [add, mul, number, s.round_zero]
    · have hpos : (0 : ℚ) < a := by positivity
      have hne : number b (a * 2) ≠ 0 := by
        cases b <;> simp [number, ha]
      have hsign : decide (number b (a * 2) < 0) = b := by
        cases b <;> simp [number, pos_iff_ne_zero, ha]
      have habs : Rat.nnabs (number b (a * 2)) = a * 2 := by
        cases b <;> exact Subtype.ext (by simp [number])
      simp only [add, mul, hz, if_neg hne, hsign, habs, Bool.xor_false]

/-- The constant two, as the folder finds it. -/
theorem mul_two {x y : Datum} {b : Bool} {exp : ℤ} (hy : y = fin b (2 ^ (exp - 1)))
    (hb : b = false) (hexp : exp = 2) : mul s mode x y = add s mode x x := by
  rw [hy, hb, hexp, add_self]
  norm_num

/-- Half of a number divides it to twice the number. -/
theorem div_half {x y : Datum} {b : Bool} {exp : ℤ} (hy : y = fin b (2 ^ (exp - 1)))
    (hb : b = false) (hexp : exp = 0) : div s mode x y = add s mode x x := by
  rw [hy, hb, hexp, add_self]
  cases x <;> simp [mul, div]

theorem arith_nan {op : RealOp} {x y : Datum} (h : x = nan ∨ y = nan) :
    arith s mode op x y = nan := by
  rcases h with rfl | rfl
  · cases op <;> rfl
  · cases op <;> cases x <;> rfl

end Identities

end Datum

/-- The comparisons of two reals. -/
inductive RealCompare
  | equal
  | le
  | lt
  | qequal
  deriving DecidableEq, Repr

/-- The four comparisons; only `qequal` holds of a NaN. -/
def RealCompare.holds (c : RealCompare) (x y : Datum) : Bool :=
  match c, x.compareReal y with
  | equal, some .eq => true
  | le, some .eq | le, some .lt => true
  | lt, some .lt => true
  | qequal, none | qequal, some .eq => true
  | _, _ => false

theorem RealCompare.holds_nan {c : RealCompare} {x y : Datum} (h : x = .nan ∨ y = .nan) :
    c.holds x y = decide (c = qequal) := by
  have hnone : x.compareReal y = none := by
    rcases h with rfl | rfl <;> simp [Datum.compareReal, Datum.isNan]
  cases c <;> simp [holds, hnone]

theorem RealCompare.holds_self (x : Datum) : lt.holds x x = false ∧ qequal.holds x x = true := by
  cases x <;> simp [holds, Datum.compareReal, Datum.isNan]

/-! ### Bits -/

namespace RealSize

variable (s : RealSize)

/-- The exponent of infinities and NaNs, all ones. -/
def expOnes : ℕ := 2 ^ (s.bits - s.precision) - 1

/-- The sign, the exponent and the digits but the first. For NaN these are the bits of one of
them. -/
def toBits (x : Datum) : ℕ :=
  let n := 2 ^ (s.precision - 1)
  (if x.signBit then 2 ^ (s.bits - 1) else 0) +
    match x with
    | .nan => s.expOnes * n + n / 2
    | .inf _ => s.expOnes * n
    | .fin _ a =>
      if a = 0 then 0
      else (max (Int.log 2 a) s.emin - s.emin).toNat * n + ⌊a / 2 ^ s.lastExp a⌋₊

def ofBits (k : ℕ) : Datum :=
  let n := 2 ^ (s.precision - 1)
  let b := decide (k / 2 ^ (s.bits - 1) % 2 = 1)
  let e := k / n % 2 ^ (s.bits - s.precision)
  if e = s.expOnes then (if k % n = 0 then .inf b else .nan)
  else .fin b ((if e = 0 then k % n else n + k % n : ℕ) *
    2 ^ (s.emin - (s.precision - 1) + (e - 1 : ℕ)))

theorem ofBits_fits (k : ℕ) : (s.ofBits k).Fits s := by
  have hpos : 0 < 2 ^ (s.precision - 1) := by positivity
  have hsplit : 2 ^ s.precision = 2 ^ (s.precision - 1) + 2 ^ (s.precision - 1) := by
    cases s <;> rfl
  have hmod := mod_lt k hpos
  have hexp := mod_lt (k / 2 ^ (s.precision - 1))
    (show 0 < 2 ^ (s.bits - s.precision) by positivity)
  have hones : (s.expOnes : ℤ) = 2 * s.emax + 1 ∧ 1 ≤ s.emax := by cases s <;> decide
  simp only [ofBits]
  split
  · split_ifs <;> trivial
  · next he =>
    have hdigits : (if k / 2 ^ (s.precision - 1) % 2 ^ (s.bits - s.precision) = 0
        then k % 2 ^ (s.precision - 1) else 2 ^ (s.precision - 1) + k % 2 ^ (s.precision - 1)) <
          2 ^ s.precision := by
      split_ifs <;> omega
    refine ⟨?_, _, _, hdigits, by omega, rfl⟩
    rw [largest]
    gcongr
    · exact le_sub_one_of_lt hdigits
    · norm_num
    · simp only [emin]
      simp only [expOnes] at hones he
      omega

end RealSize

/-! ### Constants -/

namespace RealOf

variable {s : RealSize}

theorem val_inj {x y : RealOf s} : x.1 = y.1 ↔ x = y := ⟨Subtype.ext, congrArg Subtype.val⟩

def nan : RealOf s := ⟨.nan, trivial⟩

def arith (op : RealOp) (mode : RoundingMode) (x y : RealOf s) : RealOf s :=
  ⟨Datum.arith s mode op x.1 y.1, Datum.arith_fits s mode op x.1 y.1⟩

theorem arith_agrees {op : RealOp} {x y : RealOf s} (mode : RoundingMode)
    (h : arith op .toNegInf x y = arith op .toPosInf x y) :
    arith op mode x y = arith op .toNegInf x y :=
  val_inj.1 (Datum.arith_agrees mode (val_inj.2 h))

def neg (x : RealOf s) : RealOf s :=
  ⟨x.1.neg, by obtain ⟨_ | _ | _, hx⟩ := x <;> exact hx⟩

def abs (x : RealOf s) : RealOf s :=
  ⟨x.1.abs, by obtain ⟨_ | _ | _, hx⟩ := x <;> exact hx⟩

def ofInt (s : RealSize) (mode : RoundingMode) (i : ℤ) : RealOf s :=
  ⟨Datum.ofInt s mode i, s.round_fits _ _ _⟩

theorem ofInt_agrees {i : ℤ} (mode : RoundingMode)
    (h : ofInt s .toNegInf i = ofInt s .toPosInf i) : ofInt s mode i = ofInt s .toNegInf i :=
  val_inj.1 (s.round_agrees (val_inj.2 h))

def ofBits (s : RealSize) (k : ℕ) : RealOf s := ⟨s.ofBits k, s.ofBits_fits k⟩

end RealOf

/-- The functions of `Real.Math`, and the two that round a product together with a sum. -/
inductive RealMath
  | acos
  | asin
  | atan
  | atan2
  | cos
  | exp
  | ln
  | log10
  | muladd
  | mulsub
  | sin
  | sqrt
  | tan
  deriving DecidableEq, Repr

def RealMath.arity : RealMath → ℕ
  | atan2 => 2
  | muladd | mulsub => 3
  | _ => 1

/-- The mathematical library of the machine, and what is taken for granted of it. -/
structure Libm where
  math : RealMath → (s : RealSize) → RoundingMode → List (RealOf s) → RealOf s
  agrees : ∀ f s mode xs, math f s .toNegInf xs = math f s .toPosInf xs →
    math f s mode xs = math f s .toNegInf xs
  atan2_nan : ∀ s mode x y, x.1 = .nan ∨ y.1 = .nan → math .atan2 s mode [x, y] = .nan

/-- A library that knows no result. -/
def Libm.allNan : Libm := ⟨fun _ _ _ _ => .nan, fun _ _ _ _ _ => rfl, fun _ _ _ _ _ => rfl⟩

/-- `RealX.t` -/
structure RealX where
  size : RealSize
  value : RealOf size
  deriving DecidableEq

/-- `RealX.decon` -/
inductive Decon
  | nan
  | zero (signBit : Bool)
  | one (signBit : Bool)
  | pow2 (signBit : Bool) (exp : ℤ)
  | fin (signBit : Bool) (exp : ℤ) (man : ℚ≥0)
  | inf (signBit : Bool)
  deriving DecidableEq

/-- What the three cases that the folder looks for say of a datum. -/
def Decon.Describes : Decon → Datum → Prop
  | nan, x => x = .nan
  | one b, x => x = .fin b 1
  | pow2 b exp, x => x = .fin b (2 ^ (exp - 1))
  | _, _ => True

namespace RealX

-- `disableCF ()`: whether the target's reals may differ from the compiler's
variable (disableCF : Bool)

/-- `doit`: an operation in both modes that make a difference. -/
def doit {s : RealSize} (f : RoundingMode → RealOf s) : Option RealX :=
  if disableCF then none
  else
    let min := f .toNegInf
    let max := f .toPosInf
    if min.1.compareReal max.1 = some .eq ∧ min.1.signBit = max.1.signBit ∨
        min.1.isNan ∧ max.1.isNan then some ⟨s, min⟩
    else none

theorem doit_eq {s : RealSize} (f : RoundingMode → RealOf s) :
    doit disableCF f =
      if disableCF = false ∧ f .toNegInf = f .toPosInf then some ⟨s, f .toNegInf⟩ else none := by
  simp only [doit, Datum.same_iff, RealOf.val_inj]
  cases disableCF <;> simp

/-- `make1` of an operation on one real. -/
def make1 (f : (s : RealSize) → RoundingMode → RealOf s → RealOf s) : RealX → Option RealX
  | ⟨s, x⟩ => doit disableCF fun mode => f s mode x

def make2 (f : (s : RealSize) → RoundingMode → RealOf s → RealOf s → RealOf s) :
    RealX → RealX → Except Exn (Option RealX)
  | ⟨s, x⟩, ⟨s', y⟩ =>
    if h : s' = s then .ok (doit disableCF fun mode => f s mode x (h ▸ y)) else .error .Bug

def make3 (f : (s : RealSize) → RoundingMode → RealOf s → RealOf s → RealOf s → RealOf s) :
    RealX → RealX → RealX → Except Exn (Option RealX)
  | ⟨s, x⟩, ⟨s', y⟩, ⟨s'', z⟩ =>
    if h : s' = s ∧ s'' = s then .ok (doit disableCF fun mode => f s mode x (h.1 ▸ y) (h.2 ▸ z))
    else .error .Bug

def neg (r : RealX) : Option RealX := if disableCF then none else some ⟨r.size, r.value.neg⟩

def abs (r : RealX) : Option RealX := if disableCF then none else some ⟨r.size, r.value.abs⟩

def compare (c : RealCompare) (r r' : RealX) : Except Exn (Option Bool) :=
  if disableCF then .ok none
  else if r.size = r'.size then .ok (some (c.holds r.value.1 r'.value.1))
  else .error .Bug

def fromIntInf (i : ℤ) (s : RealSize) : Option RealX :=
  doit disableCF fun mode => RealOf.ofInt s mode i

/-- What a constant is, as far as the folder asks. -/
def decon (r : RealX) : Option Decon :=
  if disableCF then none
  else some <| match r.value.1 with
    | .nan => .nan
    | .inf b => .inf b
    | .fin b a =>
      if a = 0 then .zero b
      else if a = 1 then .one b
      else
        -- the mantissa is at least one half and less than one
        let exp := Int.log 2 a + 1
        if a / 2 ^ exp = 1 / 2 then .pow2 b exp else .fin b exp (a / 2 ^ exp)

theorem value_of_decon {disableCF : Bool} {r : RealX} {d : Decon}
    (h : r.decon disableCF = some d) : d.Describes r.value.1 := by
  unfold decon at h
  split_ifs at h
  cases hr : r.value.1 with
  | nan | inf b =>
    simp only [hr, Option.some.injEq] at h
    subst h
    trivial
  | fin b a =>
    simp only [hr, Option.some.injEq] at h
    subst h
    split_ifs with h0 h1 h2
    · trivial
    · simp [Decon.Describes, h1]
    · have ha : a = 2 ^ Int.log 2 a := by
        rwa [div_eq_iff (by positivity), zpow_add_one₀ (by norm_num), mul_comm, mul_assoc,
          mul_one_div_cancel (by norm_num), mul_one] at h2
      simpa [Decon.Describes] using ha
    · trivial

def castToWord (r : RealX) : Option WordX :=
  if disableCF then none else some (.make (r.size.toBits r.value.1) r.size.wordSize)

def castFromWord (w : WordX) : Except Exn (Option RealX) :=
  if disableCF then .ok none
  else if w.size.bits = 32 then .ok (some ⟨.R32, .ofBits .R32 w.value.toNat⟩)
  else if w.size.bits = 64 then .ok (some ⟨.R64, .ofBits .R64 w.value.toNat⟩)
  else .error .Bug

end RealX

end MultiMLton.Atoms
