import MultiMLton.Atoms.PrimMeaning

/-!
# Folding constants is sound

Where all arguments are constants, `Prim.apply` answers what the application comes to.

* Words: the tests of `WordX` on bit vectors, and the ranges of the sizes;
* `Prim.Folds`: an answer stands for an outcome, and answers an overflow as one;
* `Prim.allConsts_folds`: the rows for one, two and three constants.
-/

namespace MultiMLton.Atoms

open WordX Value
open Option (bind_eq_bind bind_eq_some_iff bind_some)

variable {ν κ β : Type}

namespace Prim

variable {T : Target}

/-! ### Shapes -/

theorem ok_bind {α α' : Type} (a : α) (f : α → Except Exn α') : (.ok a >>= f) = f a := rfl

theorem ofWordX_eq_word {w : WordX} {s : WordSize} {b : BitVec s.bits} :
    (ofWordX w : Value κ) = .word s b ↔ w = ofBits s b := by
  constructor
  · intro h
    simp only [ofWordX, Value.word.injEq] at h
    obtain ⟨rfl, h⟩ := h
    rw [← eq_of_heq h, ofBits_bv]
  · rintro rfl
    simp [ofWordX]

@[simp] theorem ofWordX_ofBits (s : WordSize) (b : BitVec s.bits) :
    (ofWordX (ofBits s b) : Value κ) = .word s b := by
  simp [ofWordX]

theorem constValue_eq_word {c : Const} {s : WordSize} {b : BitVec s.bits} :
    (constValue T c : Value κ) = .word s b ↔ c = .word (ofBits s b) := by
  cases c <;> simp [constValue, ofWordX_eq_word]

theorem constValue_eq_intInf {c : Const} {i : ℤ} :
    (constValue T c : Value κ) = .intInf i ↔ c = .intInf i := by
  cases c <;> simp [constValue, ofWordX]

theorem constValue_eq_real {c : Const} {s : RealSize} {x : RealOf s} :
    (constValue T c : Value κ) = .real s x ↔ c = .real ⟨s, x⟩ := by
  cases c with
  | real r =>
    obtain ⟨s', x'⟩ := r
    simp [constValue]
  | _ => simp [constValue, ofWordX]

theorem constValue_eq_wordVector {c : Const} {v : WordXVector} :
    (constValue T c : Value κ) = .wordVector v ↔ c = .wordVector v := by
  cases c <;> simp [constValue, ofWordX]

theorem constValue_eq_cpointer {c : Const} {b : BitVec T.cpointer.bits} :
    (constValue T c : Value κ) = .cpointer T.cpointer b ↔ c = .null ∧ b = 0 := by
  cases c with
  | null =>
    simp only [constValue, Value.cpointer.injEq, heq_eq_eq, true_and]
    exact eq_comm
  | _ => simp [constValue, ofWordX]

/-! ### Words -/

section Words

variable (s : WordSize) (b : BitVec s.bits)

@[simp] theorem isZero_ofBits : (ofBits s b).isZero = decide (b = 0#s.bits) := by
  have hval : (0 : ℤ) = b.toNat ↔ b = 0#s.bits := by
    rw [← BitVec.toNat_inj]
    simp
    omega
  simp [isZero, hval]

theorem one_lt_two_pow : 1 < 2 ^ s.bits := Nat.one_lt_two_pow s.pos.ne'

@[simp] theorem isOne_ofBits : (ofBits s b).isOne = decide (b = 1#s.bits) := by
  have hone := Nat.mod_eq_of_lt (one_lt_two_pow s)
  have hval : (1 : ℤ) = b.toNat ↔ b = 1#s.bits := by
    rw [← BitVec.toNat_inj, BitVec.toNat_ofNat, hone]
    omega
  simp [isOne, hval]

@[simp] theorem isAllOnes_ofBits : (ofBits s b).isAllOnes = decide (b = BitVec.allOnes s.bits) := by
  have hone := one_lt_two_pow s
  have hval : (b.toNat : ℤ) = s.modulus - 1 ↔ b = BitVec.allOnes s.bits := by
    rw [← BitVec.toNat_inj, BitVec.toNat_allOnes, s.modulus_eq]
    have hcast : ((2 ^ s.bits : ℕ) : ℤ) = 2 ^ s.bits := by norm_cast
    omega
  simp [isAllOnes, hval]

@[simp] theorem isNegOne_ofBits : (ofBits s b).isNegOne = decide (b = BitVec.allOnes s.bits) := by
  have hval : (-1 : ℤ) = b.toInt ↔ b = BitVec.allOnes s.bits := by
    rw [← BitVec.toInt_inj, BitVec.toInt_allOnes, if_pos s.pos]
    omega
  simp [isNegOne, hval]

/-- The largest and the smallest word bound all others. -/
theorem sgInt_le_max (signed : Bool) : sgInt b signed ≤ s.max signed := by
  cases signed with
  | true =>
    have hlt := BitVec.toInt_lt (x := b)
    simp [sgInt, WordSize.max, WordSize.range, IntInf.shl]
    omega
  | false =>
    have hlt := b.isLt
    simp [sgInt, WordSize.max, WordSize.range, s.modulus_eq]
    have hcast : ((2 ^ s.bits : ℕ) : ℤ) = 2 ^ s.bits := by norm_cast
    omega

theorem min_le_sgInt (signed : Bool) : s.min signed ≤ sgInt b signed := by
  cases signed with
  | true =>
    have hle := BitVec.le_toInt b
    simpa [sgInt, WordSize.min, WordSize.range, IntInf.shl] using hle
  | false => simp [sgInt, WordSize.min, WordSize.range]

theorem isInRange_iff (signed : Bool) (i : ℤ) :
    s.isInRange i signed = true ↔ Fits s.bits signed i := by
  cases signed <;>
    simp [WordSize.isInRange, WordSize.min, WordSize.max, WordSize.range, Fits, IntInf.shl,
      s.modulus_eq]

/-- An integer that fits is the integer of its bits. -/
theorem sgInt_ofInt {signed : Bool} {i : ℤ} (h : Fits s.bits signed i) :
    sgInt (BitVec.ofInt s.bits i) signed = i := by
  cases signed with
  | true =>
    simp only [Fits, if_true] at h
    exact BitVec.toInt_ofInt_eq_self s.pos h.1 h.2
  | false =>
    simp only [Fits, Bool.false_eq_true, if_false] at h
    have hcast : ((2 ^ s.bits : ℕ) : ℤ) = 2 ^ s.bits := by norm_cast
    simp only [sgInt, Bool.false_eq_true, if_false, BitVec.toNat_ofInt, hcast,
      Int.emod_eq_of_lt h.1 h.2, Int.toNat_of_nonneg h.1]

theorem fits_max (signed : Bool) : Fits s.bits signed (s.max signed) := by
  have hpow : (0 : ℤ) < 2 ^ (s.bits - 1) := by positivity
  have hpow' : (0 : ℤ) < 2 ^ s.bits := by positivity
  cases signed <;> simp [Fits, WordSize.max, WordSize.range, IntInf.shl, s.modulus_eq]
  omega

theorem fits_min (signed : Bool) : Fits s.bits signed (s.min signed) := by
  have hpow : (0 : ℤ) < 2 ^ (s.bits - 1) := by positivity
  have hpow' : (0 : ℤ) < 2 ^ s.bits := by positivity
  cases signed <;> simp [Fits, WordSize.min, WordSize.range, IntInf.shl]

theorem isMax_ofBits (signed : Bool) :
    (ofBits s b).isMax signed = true ↔ sgInt b signed = s.max signed := by
  rw [isMax, ofBits_size, WordX.max, make_eq, equals_ofBits, decide_eq_true_iff]
  refine ⟨fun h => ?_, fun h => ?_⟩
  · rw [h, sgInt_ofInt s (fits_max s signed)]
  · rw [← h, ofInt_sgInt]

theorem isMin_ofBits (signed : Bool) :
    (ofBits s b).isMin signed = true ↔ sgInt b signed = s.min signed := by
  rw [isMin, ofBits_size, WordX.min, make_eq, equals_ofBits, decide_eq_true_iff]
  refine ⟨fun h => ?_, fun h => ?_⟩
  · rw [h, sgInt_ofInt s (fits_min s signed)]
  · rw [← h, ofInt_sgInt]

end Words

section Folder

variable {E : Runtime κ} {ρ : β → Value κ} {p : Prim ν} {o : Outcome κ}

/-! ### Constants -/

/-- An answer for constants: it stands for what the application comes to, and answers an overflow
as one. -/
def Folds (T : Target) (E : Runtime κ) (ρ : β → Value κ) (answer : Except Exn (ApplyResult ν β))
    (o : Outcome κ) : Prop :=
  ∃ r, answer = .ok r ∧ ResultMeans T E ρ r o ∧ (o = .overflow → r = .overflow)

theorem Folds.unknown (h : o ≠ .overflow) :
    Folds T E ρ (.ok .unknown : Except Exn (ApplyResult ν β)) o :=
  ⟨_, rfl, trivial, fun h' => absurd h' h⟩

theorem Folds.const {c : Const} {v : Value κ} (h : v = constValue T c) :
    Folds T E ρ (.ok (.const c) : Except Exn (ApplyResult ν β)) (.value v) :=
  ⟨_, rfl, by rw [h]; rfl, fun h => nomatch h⟩

theorem Folds.bool {b : Bool} {v : Value κ} (h : v = .bool b) :
    Folds T E ρ (.ok (.bool b) : Except Exn (ApplyResult ν β)) (.value v) :=
  ⟨_, rfl, by rw [h]; rfl, fun h => nomatch h⟩

theorem Folds.word {s : WordSize} (b : BitVec s.bits) :
    Folds T E ρ (.ok (Prim.word (ofBits s b)) : Except Exn (ApplyResult ν β))
      (.value (.word s b)) :=
  .const (by simp [constValue])

theorem Folds.intInf (i : ℤ) :
    Folds T E ρ (.ok (Prim.intInf i) : Except Exn (ApplyResult ν β)) (.value (.intInf i)) := by
  unfold Prim.intInf
  split_ifs
  · exact .unknown (fun h => nomatch h)
  · exact .const rfl

/-- `wordOrOverflow` answers with the exact result or with an overflow. -/
theorem Folds.exactly {s : WordSize} {signed : Bool} {i : ℤ} (h : exactly s signed i = some o) :
    Folds T E ρ (.ok (wordOrOverflow s signed i) : Except Exn (ApplyResult ν β)) o := by
  unfold Prim.exactly at h
  unfold wordOrOverflow
  simp only [isInRange_iff]
  split_ifs at h ⊢
  · cases h
    rw [make_eq]
    exact .word _
  · cases h
    exact ⟨_, rfl, rfl, fun _ => rfl⟩

/-- Dividing integers that a divisor is not zero for. -/
theorem Folds.divide {f : ℤ → ℤ → ℤ} {i1 i2 : ℤ}
    (h : intInfDivision f (.intInf i1) (.intInf i2) = some o) :
    Folds T E ρ (Prim.divide f i1 i2 : Except Exn (ApplyResult ν β)) o := by
  unfold Prim.divide
  simp only [intInfDivision, toIntInf, bind_eq_bind, bind_some, returns] at h
  split_ifs at h ⊢
  cases h
  exact .intInf _

theorem Folds.real {s : RealSize} {x : RealOf s} :
    Folds T E ρ (.ok (realOpt (some ⟨s, x⟩)) : Except Exn (ApplyResult ν β))
      (.value (.real s x)) :=
  .const rfl

/-- A result that does not depend on the rounding mode. -/
theorem Folds.doit {s : RealSize} {f : RoundingMode → RealOf s}
    (h : f .toNegInf = f .toPosInf → f E.mode = f .toNegInf) :
    Folds T E ρ (.ok (realOpt (RealX.doit T.disableCF f)) : Except Exn (ApplyResult ν β))
      (.value (.real s (f E.mode))) := by
  rw [RealX.doit_eq]
  split_ifs with hsame
  · rw [h hsame.2]
    exact .real
  · exact .unknown (fun h => nomatch h)

variable {vs : List (Value κ)}

theorem mayOverflow_of_eval (h : eval T E p vs = some .overflow) : p.mayOverflow = true := by
  unfold eval at h
  split at h <;>
    simp [returns, realBinary, wordUnary, wordBinary, wordDivision, wordShift, wordCompare, intInfOp,
      intInfDivision, intInfShift, bind_eq_some_iff, mayOverflow] at h ⊢

theorem ne_overflow (h : eval T E p vs = some o) (hp : p.mayOverflow = false) : o ≠ .overflow := by
  rintro rfl
  rw [mayOverflow_of_eval h] at hp
  exact absurd hp (by decide)

/-- An `IntInf` is not an argument of a primitive on words. -/
theorem mayOverflow_of_intInf {i : ℤ}
    (h : eval T E p (.intInf i :: vs) = some o) : p.mayOverflow = false := by
  cases p with
  | wordAddCheck | wordMulCheck | wordNegCheck | wordSubCheck =>
    rcases vs with _ | ⟨v, _ | ⟨v', vs⟩⟩
    all_goals simp [eval, wordChecked, toWord] at h
  | _ => rfl

theorem intInfBinary_folds {i1 i2 : ℤ} {v : Value κ}
    (h : eval T E p [.intInf i1, .intInf i2, v] = some o) :
    Folds T E ρ (intInfBinary p i1 i2 : Except Exn (ApplyResult ν β)) o := by
  have hne := ne_overflow h (mayOverflow_of_intInf h)
  unfold intInfBinary
  split_ifs
  · exact .unknown hne
  cases p with
  | intInfAdd | intInfAndb | intInfGcd | intInfMul | intInfOrb | intInfSub | intInfXorb =>
    cases h
    exact .intInf _
  | intInfQuot | intInfRem => exact .divide h
  | _ => exact .unknown hne

theorem intInfUnary_folds {i1 : ℤ} {v : Value κ} (h : eval T E p [.intInf i1, v] = some o) :
    Folds T E ρ (intInfUnary p i1 : Except Exn (ApplyResult ν β)) o := by
  have hne := ne_overflow h (mayOverflow_of_intInf h)
  unfold intInfUnary
  split_ifs
  · exact .unknown hne
  cases p with
  | intInfNeg =>
    cases h
    exact .intInf _
  | intInfNotb =>
    have hnot : Int.lnot i1 = -i1 - 1 := by
      cases i1 <;> simp [Int.lnot]
      omega
    cases h
    rw [hnot]
    exact .intInf _
  | _ => exact .unknown hne

/-- The compiler's own words hold all shift amounts. -/
theorem hostWord_value (k : BitVec WordSize.shiftArg.bits) :
    hostWord (ofBits .shiftArg k).value = k.toNat := by
  have hlt := k.isLt
  have hbits : 2 ^ WordSize.shiftArg.bits = 2 ^ 32 := rfl
  have hmod : (k.toNat : ℤ) % 2 ^ 32 = k.toNat := Int.emod_eq_of_lt (by omega) (by omega)
  rw [hostWord, ofBits_value, hmod, Int.toNat_natCast]

theorem base_of_ofInt {i : ℤ} {r : Radix} (h : Radix.ofInt i = some r) : i = r.base := by
  unfold Radix.ofInt at h
  split at h <;> cases h <;> rfl

theorem toInt_of_lt {s : WordSize} {b : BitVec s.bits} (h : b.toNat < 2 ^ 31) :
    (ofBits s b).toInt = .ok b.toNat := by
  rw [WordX.toInt, IntInf.toInt, ofBits_value, if_pos]
  constructor <;> omega

theorem intInfShiftOrToString_folds {i1 : ℤ} {w2 : WordX} {v : Value κ}
    (h : eval T E p [.intInf i1, .ofWordX w2, v] = some o) :
    Folds T E ρ (intInfShiftOrToString p i1 w2 : Except Exn (ApplyResult ν β)) o := by
  have hne := ne_overflow h (mayOverflow_of_intInf h)
  unfold intInfShiftOrToString
  split_ifs with hbig
  · exact .unknown hne
  cases p with
  | intInfArshift =>
    simp only [eval, intInfShift_eq_some, Value.intInf.injEq, ofWordX_eq_word] at h
    obtain ⟨i, k, rfl, rfl, rfl⟩ := h
    rw [hostWord_value]
    exact .intInf _
  | intInfLshift =>
    simp only [eval, intInfShift_eq_some, Value.intInf.injEq, ofWordX_eq_word] at h
    obtain ⟨i, k, rfl, rfl, rfl⟩ := h
    simp only [make_eq, lt_ofBits, ok_bind, hostWord_value]
    split_ifs
    · exact .intInf _
    · exact .unknown hne
  | intInfToString =>
    simp only [eval, toIntInf, bind_eq_bind, bind_some,
      bind_eq_some_iff, toWord_eq_some, ofWordX_eq_word] at h
    obtain ⟨k, rfl, r, hr, h⟩ := h
    have hk : (ofBits .shiftArg k).toInt = .ok k.toNat := toInt_of_lt (by
      have hbase : r.base ≤ 16 := by cases r <;> decide
      have := base_of_ofInt hr
      omega)
    split_ifs at h with hlen
    cases h
    simp only [hk, ok_bind, hr]
    exact .const rfl
  | _ => exact .unknown hne

/-- The bits of a small integer in a pointer: twice the integer, and the tag. -/
theorem toWord_of_fits {i : ℤ} (h : Fits (T.objptr.bits - 1) true i) :
    SmallIntInf.toWord T i =
      .ok (some (ofBits T.objptr (BitVec.ofInt T.objptr.bits (2 * i + 1)))) := by
  have hone : (1#(T.objptr.bits)).toNat = 1 := by
    rw [BitVec.toNat_ofNat, Nat.mod_eq_of_lt (one_lt_two_pow _)]
  have hor (a : BitVec T.objptr.bits) : 1#(T.objptr.bits) ||| a <<< 1 = 2 * a + 1 := by
    have hand : a <<< 1 &&& 1#(T.objptr.bits) = 0#_ := by
      ext j hj
      cases j <;> simp
    have hdouble : a <<< 1 = 2 * a := by
      rw [BitVec.shiftLeft_eq_mul_twoPow, BitVec.mul_comm]
      congr 1
      rw [← BitVec.toNat_inj]
      simp [BitVec.toNat_twoPow]
    rw [BitVec.or_comm, ← BitVec.add_eq_or_of_and_eq_zero _ _ hand, hdouble]
    rfl
  have hbits : BitVec.ofInt T.objptr.bits (2 * i + 1) = 2 * BitVec.ofInt T.objptr.bits i + 1 := by
    rw [BitVec.ofInt_add, BitVec.ofInt_mul]
    rfl
  simp only [SmallIntInf.toWord]
  rw [if_pos ((isInRange_iff _ _ _).2 h)]
  simp only [one_eq, make_eq, lshift_ofBits, hone, orb_ofBits, ok_bind, hor, hbits]

theorem fromWord_ofBits (b : BitVec T.objptr.bits) :
    SmallIntInf.fromWord (ofBits T.objptr b) = b.toInt / 2 := by
  have hone : (1#(T.objptr.bits)).toNat = 1 := by
    rw [BitVec.toNat_ofNat, Nat.mod_eq_of_lt (one_lt_two_pow _)]
  rw [SmallIntInf.fromWord, ofBits_size, one_eq, rshift_ofBits, if_pos rfl, toIntInfX_ofBits,
    BitVec.toInt_sshiftRight, hone, Int.shiftRight_eq_div_pow]
  norm_num

/-- One constant. -/
theorem constRows_one {c : Const} (h : eval T E p [constValue T c] = some o) :
    Folds T E ρ (constRows T p [c] : Except Exn (ApplyResult ν β)) o := by
  cases p with
  | cpointerFromWord =>
    simp only [eval, bind_eq_bind, bind_eq_some_iff, toWord_eq_some,
      constValue_eq_word] at h
    obtain ⟨a, rfl, h⟩ := h
    cases h
    simp only [constRows, isZero_ofBits, decide_eq_true_eq]
    split_ifs with ha
    · exact .const (by rw [ha]; rfl)
    · exact .unknown (fun h => nomatch h)
  | cpointerToWord =>
    simp only [eval, bind_eq_bind, bind_eq_some_iff, toPointer_eq_some,
      constValue_eq_cpointer] at h
    obtain ⟨a, ⟨rfl, rfl⟩, h⟩ := h
    cases h
    simp only [constRows, zero_eq]
    exact .word _
  | intInfToWord =>
    simp only [eval, bind_eq_bind, bind_eq_some_iff, toIntInf_eq_some,
      constValue_eq_intInf] at h
    obtain ⟨i, rfl, h⟩ := h
    split_ifs at h with hi
    cases h
    simp only [constRows, toWord_of_fits hi, ok_bind]
    exact .word _
  | realAbs s | realNeg s =>
    simp only [eval, bind_eq_bind, bind_eq_some_iff, toReal_eq_some, constValue_eq_real] at h
    obtain ⟨x, rfl, h⟩ := h
    cases h
    simp only [constRows, intInfConsts, realConsts, RealX.abs, RealX.neg]
    split_ifs
    · exact .unknown (fun h => nomatch h)
    · exact .real
  | realCastToWord s =>
    simp only [eval, bind_eq_bind, bind_eq_some_iff, toReal_eq_some, constValue_eq_real] at h
    obtain ⟨x, rfl, h⟩ := h
    split_ifs at h
    cases h
    simp only [constRows, intInfConsts, realConsts, RealX.castToWord, make_eq, BitVec.ofInt_natCast]
    split_ifs
    · exact .unknown (fun h => nomatch h)
    · exact .word _
  | realMath f s =>
    simp only [eval, bind_eq_bind, bind_eq_some_iff, toReal_eq_some, constValue_eq_real] at h
    obtain ⟨x, rfl, h⟩ := h
    cases h
    simp only [constRows, intInfConsts, realConsts, RealX.make1]
    split_ifs
    · exact .doit (T.libm.agrees _ _ _ _)
    · exact .unknown (fun h => nomatch h)
  | wordCastToReal s =>
    simp only [eval, bind_eq_bind, bind_eq_some_iff, toWord_eq_some, constValue_eq_word] at h
    obtain ⟨a, rfl, h⟩ := h
    cases h
    simp only [constRows, intInfConsts, realConsts, RealX.castFromWord, ofBits_size, ofBits_value,
      Int.toNat_natCast]
    cases s <;> split_ifs
    all_goals first
      | exact .unknown (fun h => nomatch h)
      | exact .real
  | wordRndToReal s s' sg =>
    simp only [eval, bind_eq_bind, bind_eq_some_iff, toWord_eq_some, constValue_eq_word] at h
    obtain ⟨a, rfl, h⟩ := h
    cases h
    simp only [constRows, intInfConsts, realConsts, RealX.fromIntInf, toIntInfSg_ofBits]
    exact .doit (RealOf.ofInt_agrees _)
  | vectorLength =>
    simp only [eval, bind_eq_bind, bind_eq_some_iff, toWordVector_eq_some,
      constValue_eq_wordVector] at h
    obtain ⟨l, rfl, h⟩ := h
    cases h
    simp only [constRows, intInfConsts, realConsts, wordConsts, seqIndexConst, WordXVector.length,
      make_eq,
      BitVec.ofInt_natCast]
    exact .word _
  | wordExtdToWord s s' sg =>
    simp only [eval, bind_eq_bind, bind_eq_some_iff, toWord_eq_some,
      constValue_eq_word] at h
    obtain ⟨a, rfl, h⟩ := h
    cases h
    cases sg <;> simp only [constRows, intInfConsts, realConsts, wordConsts, resize_ofBits, resizeX_ofBits] <;>
      exact .word _
  | wordNeg s | wordNotb s =>
    obtain ⟨a, ha, rfl⟩ := wordUnary_eq_some.1 h
    obtain rfl := constValue_eq_word.1 ha
    simp only [constRows, intInfConsts, realConsts, wordConsts, neg_ofBits, notb_ofBits]
    exact .word _
  | wordNegCheck s =>
    simp only [eval, bind_eq_bind, bind_eq_some_iff, toWord_eq_some,
      constValue_eq_word] at h
    obtain ⟨a, rfl, h⟩ := h
    simp only [constRows, intInfConsts, realConsts, wordConsts, toIntInfX_ofBits]
    exact .exactly h
  | wordToIntInf =>
    simp only [eval, bind_eq_bind, bind_eq_some_iff, toWord_eq_some,
      constValue_eq_word] at h
    obtain ⟨a, rfl, h⟩ := h
    split_ifs at h
    cases h
    simp only [constRows, intInfConsts, realConsts, wordConsts, fromWord_ofBits]
    exact .intInf _
  | _ => simp [eval] at h

theorem equals_eq_decide (w w' : WordX) : w.equals w' = decide (w = w') := by
  simp [equals, WordX.ext_iff]

/-- The order of words is the one of the integers they stand for. -/
theorem lt_eq_decide {n : ℕ} (a b : BitVec n) (signed : Bool) :
    (if signed then a.slt b else a.ult b) = decide (sgInt a signed < sgInt b signed) := by
  cases signed <;> simp [sgInt, BitVec.slt, BitVec.ult]

/-- The elements of a constant vector. -/
theorem sub_of_getElem? {l : WordXVector} {n : ℕ} {w : WordX} (h : l.elements[n]? = some w) :
    l.sub n = .ok w := by
  simp [WordXVector.sub, h]

/-- Two constants. -/
theorem constRows_two {c1 c2 : Const} (h : eval T E p [constValue T c1, constValue T c2] = some o) :
    Folds T E ρ (constRows T p [c1, c2] : Except Exn (ApplyResult ν β)) o := by
  cases p with
  | mltonEq =>
    cases h
    cases c1 <;> cases c2 <;> try exact .unknown (fun h => nomatch h)
    exact .bool (by rw [constValue, constValue, E.eq_word, equals_eq_decide])
  | mltonEqual =>
    cases h
    cases c1 <;> cases c2 <;> try exact .unknown (fun h => nomatch h)
    · exact .bool (by rw [constValue, constValue, E.equal_intInf])
    · exact .bool (by rw [constValue, constValue, E.equal_word, equals_eq_decide])
    · exact .bool (by rw [constValue, constValue, E.equal_wordVector]; rfl)
  | intInfCompare =>
    simp only [eval, bind_eq_bind, bind_eq_some_iff, toIntInf_eq_some,
      constValue_eq_intInf] at h
    obtain ⟨i, rfl, i', rfl, h⟩ := h
    cases h
    have hres : BitVec.ofInt WordSize.compareRes.bits (compareInt i i') =
        if i < i' then -1 else if i = i' then 0 else 1 := by
      unfold compareInt
      split_ifs <;> rfl
    simp only [constRows, make_eq, hres]
    exact .word _
  | intInfEqual =>
    simp only [eval, bind_eq_bind, bind_eq_some_iff, toIntInf_eq_some,
      constValue_eq_intInf] at h
    obtain ⟨i, rfl, i', rfl, h⟩ := h
    cases h
    exact .bool rfl
  | intInfNeg | intInfNotb =>
    have h' := h
    simp only [eval, bind_eq_bind, bind_eq_some_iff, toIntInf_eq_some,
      constValue_eq_intInf] at h
    obtain ⟨i, rfl, -⟩ := h
    cases c2 <;> exact intInfUnary_folds h'
  | realArith op s =>
    obtain ⟨x, y, hx, hy, rfl⟩ := realBinary_eq_some.1 h
    obtain rfl := constValue_eq_real.1 hx
    obtain rfl := constValue_eq_real.1 hy
    simp only [constRows, intInfConsts, realConsts, RealX.make2, dite_true, ok_bind]
    exact .doit (RealOf.arith_agrees _)
  | realCompare c s =>
    simp only [eval, bind_eq_bind, bind_eq_some_iff, toReal_eq_some, constValue_eq_real] at h
    obtain ⟨x, rfl, y, rfl, h⟩ := h
    cases h
    simp only [constRows, intInfConsts, realConsts, RealX.compare]
    split_ifs
    · exact .unknown (fun h => nomatch h)
    · exact .bool rfl
  | realMath f s =>
    obtain ⟨x, y, hx, hy, rfl⟩ := realBinary_eq_some.1 h
    obtain rfl := constValue_eq_real.1 hx
    obtain rfl := constValue_eq_real.1 hy
    simp only [constRows, intInfConsts, realConsts, RealX.make2, dite_true, ok_bind]
    split_ifs
    · exact .doit (T.libm.agrees _ _ _ _)
    · exact .unknown (fun h => nomatch h)
  | vectorSub =>
    simp only [eval, bind_eq_bind, bind_eq_some_iff, toWordVector_eq_some,
      constValue_eq_wordVector, toWord_eq_some, constValue_eq_word] at h
    obtain ⟨l, rfl, k, rfl, w, hw, h⟩ := h
    cases h
    have hk : k.toNat < 2 ^ 31 := (List.getElem?_eq_some_iff.1 hw).1.trans l.length_lt
    simp only [constRows, intInfConsts, realConsts, wordConsts, toInt_of_lt hk, ok_bind,
      sub_of_getElem? hw]
    exact .const rfl
  | wordAdd s | wordAndb s | wordMul s | wordOrb s | wordSub s | wordXorb s =>
    obtain ⟨a, b, ha, hb, rfl⟩ := wordBinary_eq_some.1 h
    obtain rfl := constValue_eq_word.1 ha
    obtain rfl := constValue_eq_word.1 hb
    simp only [constRows, intInfConsts, realConsts, wordConsts, add_ofBits, andb_ofBits,
      mul_ofBits, orb_ofBits,
      sub_ofBits, xorb_ofBits, ok_bind]
    exact .word _
  | wordAddCheck s sg | wordMulCheck s sg | wordSubCheck s sg =>
    obtain ⟨a, b, ha, hb, hexact⟩ := wordChecked_eq_some.1 h
    obtain rfl := constValue_eq_word.1 ha
    obtain rfl := constValue_eq_word.1 hb
    simp only [constRows, intInfConsts, realConsts, wordConsts, wcheck, toIntInfSg_ofBits]
    exact .exactly hexact
  | wordEqual s =>
    obtain ⟨a, b, ha, hb, rfl⟩ := wordCompare_eq_some.1 h
    obtain rfl := constValue_eq_word.1 ha
    obtain rfl := constValue_eq_word.1 hb
    simp only [constRows, intInfConsts, realConsts, wordConsts, equals_ofBits]
    exact .bool rfl
  | wordLt s sg =>
    obtain ⟨a, b, ha, hb, rfl⟩ := wordCompare_eq_some.1 h
    obtain rfl := constValue_eq_word.1 ha
    obtain rfl := constValue_eq_word.1 hb
    simp only [constRows, intInfConsts, realConsts, wordConsts, lt_ofBits, ok_bind]
    exact .bool (by rw [lt_eq_decide])
  | wordLshift s | wordRol s | wordRor s =>
    obtain ⟨a, b, ha, hb, rfl⟩ := wordShift_eq_some.1 h
    obtain rfl := constValue_eq_word.1 ha
    obtain rfl := constValue_eq_word.1 hb
    simp only [constRows, intInfConsts, realConsts, wordConsts, lshift_ofBits, rol_ofBits,
      ror_ofBits]
    exact .word _
  | wordRshift s sg =>
    obtain ⟨a, b, ha, hb, rfl⟩ := wordShift_eq_some.1 h
    obtain rfl := constValue_eq_word.1 ha
    obtain rfl := constValue_eq_word.1 hb
    simp only [constRows, intInfConsts, realConsts, wordConsts, rshift_ofBits]
    cases sg <;> exact .word _
  | wordQuot s sg | wordRem s sg =>
    obtain ⟨a, b, ha, hb, hne, rfl⟩ := wordDivision_eq_some.1 h
    obtain rfl := constValue_eq_word.1 ha
    obtain rfl := constValue_eq_word.1 hb
    simp only [constRows, intInfConsts, realConsts, wordConsts, isZero_ofBits, decide_eq_true_eq,
      if_neg hne,
      quot_ofBits, rem_ofBits, ok_bind]
    cases sg <;> exact .word _
  | cpointerAdd | cpointerDiff | cpointerEqual | cpointerLt | cpointerSub =>
    have hne := ne_overflow h rfl
    simp only [eval, bind_eq_bind, bind_eq_some_iff, toPointer_eq_some,
      constValue_eq_cpointer] at h
    obtain ⟨_, ⟨rfl, -⟩, -⟩ := h
    exact .unknown hne
  | _ => simp [eval] at h

/-- Three constants. -/
theorem constRows_three {c1 c2 c3 : Const}
    (h : eval T E p [constValue T c1, constValue T c2, constValue T c3] = some o) :
    Folds T E ρ (constRows T p [c1, c2, c3] : Except Exn (ApplyResult ν β)) o := by
  have h' := h
  cases p with
  | intInfAdd | intInfAndb | intInfGcd | intInfMul | intInfOrb | intInfSub | intInfXorb =>
    obtain ⟨i, i', hi, hi', -⟩ := intInfOp_eq_some.1 h
    obtain rfl := constValue_eq_intInf.1 hi
    obtain rfl := constValue_eq_intInf.1 hi'
    exact intInfBinary_folds h'
  | intInfQuot | intInfRem =>
    obtain ⟨i, i', hi, hi', -⟩ := intInfDivision_eq_some.1 h
    obtain rfl := constValue_eq_intInf.1 hi
    obtain rfl := constValue_eq_intInf.1 hi'
    exact intInfBinary_folds h'
  | intInfArshift | intInfLshift =>
    simp only [eval, intInfShift_eq_some, constValue_eq_intInf, constValue_eq_word] at h
    obtain ⟨i, k, rfl, rfl, -⟩ := h
    simp only [constRows, intInfConsts]
    exact intInfShiftOrToString_folds h'
  | intInfToString =>
    simp only [eval, bind_eq_bind, bind_eq_some_iff, toIntInf_eq_some,
      constValue_eq_intInf, toWord_eq_some, constValue_eq_word] at h
    obtain ⟨i, rfl, k, rfl, -⟩ := h
    simp only [constRows, intInfConsts]
    exact intInfShiftOrToString_folds h'
  | realMath f s =>
    simp only [eval, bind_eq_bind, bind_eq_some_iff, toReal_eq_some, constValue_eq_real] at h
    obtain ⟨x, rfl, y, rfl, z, rfl, h⟩ := h
    cases h
    simp only [constRows, intInfConsts, realConsts, RealX.make3, and_self, dite_true, ok_bind]
    split_ifs
    · exact .doit (T.libm.agrees _ _ _ _)
    · exact .unknown (fun h => nomatch h)
  | _ => simp [eval] at h

/-- A primitive takes one to three arguments. -/
theorem eval_length (h : eval T E p vs = some o) : 1 ≤ vs.length ∧ vs.length ≤ 3 := by
  unfold eval at h
  split at h <;> simp at h ⊢

theorem allConsts_folds {cs : List Const} (h : eval T E p (cs.map (constValue T)) = some o) :
    Folds T E ρ (allConsts T p cs : Except Exn (ApplyResult ν β)) o := by
  have hrows : Folds T E ρ (constRows T p cs : Except Exn (ApplyResult ν β)) o := by
    have hlen := eval_length h
    rcases cs with _ | ⟨c1, _ | ⟨c2, _ | ⟨c3, _ | ⟨c4, cs⟩⟩⟩⟩
    · simp at hlen
    · exact constRows_one h
    · exact constRows_two h
    · exact constRows_three h
    · simp only [List.map_cons, List.length_cons, List.length_map] at hlen
      omega
  obtain ⟨r, hr, hfolds⟩ := hrows
  exact ⟨r, by rw [allConsts, hr], hfolds⟩

end Folder

end Prim

end MultiMLton.Atoms
