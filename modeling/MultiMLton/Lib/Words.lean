import Mathlib.Data.Int.Bitwise
import Mathlib.Tactic
import Mathlib.Data.Nat.Digits.Lemmas

/-!
# Bit vectors as two's complement integers

Bitwise operations on bit vectors are the bitwise operations on the integers that they stand for:
`toInt_and_eq_land`, `toInt_or_eq_lor`, `toInt_xor_eq_xor` and `toInt_not_eq`.
-/

namespace MultiMLton.Lib

/-- Integers with the same bits are equal. -/
theorem int_eq_of_testBit_eq {a b : ℤ} (h : ∀ k, a.testBit k = b.testBit k) : a = b := by
  -- far enough to the left, the bits of a number are its sign
  have hsign (m n : ℕ) (hbits : ∀ k, m.testBit k = !n.testBit k) : False := by
    have hm := Nat.testBit_lt_two_pow (Nat.lt_two_pow_self.trans_le
      (Nat.pow_le_pow_right two_pos (Nat.le_add_right m n)))
    have hn := Nat.testBit_lt_two_pow (Nat.lt_two_pow_self.trans_le
      (Nat.pow_le_pow_right two_pos (Nat.le_add_left n m)))
    have hbit := hbits (m + n)
    rw [hm, hn] at hbit
    cases hbit
  cases a with
  | ofNat m =>
    cases b with
    | ofNat n => exact congrArg Int.ofNat (Nat.eq_of_testBit_eq h)
    | negSucc n => exact (hsign m n h).elim
  | negSucc m =>
    cases b with
    | ofNat n => exact (hsign n m fun k => (h k).symm).elim
    | negSucc n =>
      refine congrArg Int.negSucc (Nat.eq_of_testBit_eq fun k => ?_)
      have hbit := h k
      simpa only [Int.testBit, Bool.not_eq_not, Bool.not_not] using congrArg (! ·) hbit

section

variable {n : ℕ} (x y : BitVec n)

/-- The bits of a word go on with its sign. -/
theorem testBit_toInt (k : ℕ) : x.toInt.testBit k = if k < n then x.getLsbD k else x.msb := by
  rw [BitVec.toInt_eq_msb_cond]
  cases hmsb : x.msb with
  | false =>
    have hbit : (x.toNat : ℤ).testBit k = x.getLsbD k := rfl
    rw [if_neg (by simp), hbit]
    split_ifs with hk
    · rfl
    · exact BitVec.getLsbD_of_ge x k (by omega)
  | true =>
    have hlt := x.isLt
    have hneg : (x.toNat : ℤ) - (2 ^ n : ℕ) = Int.negSucc (2 ^ n - 1 - x.toNat) := by omega
    rw [if_pos rfl, hneg]
    have hbit : (Int.negSucc (2 ^ n - 1 - x.toNat)).testBit k =
        !(2 ^ n - 1 - x.toNat).testBit k := rfl
    rw [hbit, Nat.sub_sub, Nat.add_comm 1, Nat.testBit_two_pow_sub_succ hlt]
    split_ifs with hk <;> simp [hk, BitVec.getLsbD]

theorem toInt_and_eq_land : (x &&& y).toInt = x.toInt.land y.toInt :=
  int_eq_of_testBit_eq fun k => by
    rw [Int.testBit_land, testBit_toInt, testBit_toInt, testBit_toInt]
    split_ifs <;> simp

theorem toInt_or_eq_lor : (x ||| y).toInt = x.toInt.lor y.toInt :=
  int_eq_of_testBit_eq fun k => by
    rw [Int.testBit_lor, testBit_toInt, testBit_toInt, testBit_toInt]
    split_ifs <;> simp

theorem toInt_xor_eq_xor : (x ^^^ y).toInt = x.toInt.xor y.toInt :=
  int_eq_of_testBit_eq fun k => by
    rw [Int.testBit_lxor, testBit_toInt, testBit_toInt, testBit_toInt]
    split_ifs <;> simp

theorem toInt_not_eq (hn : 0 < n) : (~~~x).toInt = -x.toInt - 1 := by
  have hlnot : (~~~x).toInt = x.toInt.lnot := int_eq_of_testBit_eq fun k => by
    rw [Int.testBit_lnot, testBit_toInt, testBit_toInt]
    split_ifs with hk
    · simp [hk]
    · simp [hn]
  rw [hlnot]
  cases x.toInt with
  | ofNat m =>
    show Int.negSucc m = -(m : ℤ) - 1
    omega
  | negSucc m =>
    show (m : ℤ) = -Int.negSucc m - 1
    omega

end

/-! ### Division that rounds down -/

/-- The remainder has the sign of the dividend. -/
theorem tmod_bounds (i : ℤ) {j : ℤ} (hj : j ≠ 0) :
    (0 ≤ i → 0 ≤ i.tmod j ∧ i.tmod j < |j|) ∧ (i ≤ 0 → -|j| < i.tmod j ∧ i.tmod j ≤ 0) := by
  have hlt : (i.tmod j).natAbs < j.natAbs := by
    rw [Int.natAbs_tmod]
    exact Nat.mod_lt _ (Int.natAbs_pos.2 hj)
  rw [Int.abs_eq_natAbs]
  constructor <;> intro hi
  · have hsign := Int.tmod_nonneg j hi
    omega
  · have hsign := Int.tmod_nonneg j (neg_nonneg.2 hi)
    rw [Int.neg_tmod] at hsign
    omega

/-- Rounding down, by truncation of a number that is nearer to zero. -/
theorem fdiv_fmod_eq (i : ℤ) {j : ℤ} (hj : j ≠ 0) :
    i.fdiv j = (if 0 ≤ i then
        if 0 < j then i.tdiv j else if i = 0 then 0 else (i - 1).tdiv j - 1
      else if j < 0 then i.tdiv j else (i + 1).tdiv j - 1) ∧
    i.fmod j = (if 0 ≤ i then
        if 0 < j then i.tmod j else if i = 0 then 0 else (i - 1).tmod j + (1 + j)
      else if j < 0 then i.tmod j else (i + 1).tmod j + (j - 1)) := by
  split_ifs with hi hpos hzero hneg
  · exact ⟨Int.fdiv_eq_tdiv_of_nonneg hi hpos.le, Int.fmod_eq_tmod_of_nonneg hi hpos.le⟩
  · rw [hzero]
    simp
  · have hlt : j < 0 := by omega
    have hdef := Int.tmod_def (i - 1) j
    have hbounds := (tmod_bounds (i - 1) hj).1 (by omega)
    rw [abs_of_neg hlt] at hbounds
    rw [Int.fdiv_fmod_unique' hlt, mul_sub]
    omega
  · have hdef := Int.tmod_def i j
    have hbounds := (tmod_bounds i hj).2 (by omega)
    rw [abs_of_neg hneg] at hbounds
    rw [Int.fdiv_fmod_unique' hneg]
    omega
  · have hlt : 0 < j := by omega
    have hdef := Int.tmod_def (i + 1) j
    have hbounds := (tmod_bounds (i + 1) hj).2 (by omega)
    rw [abs_of_pos hlt] at hbounds
    rw [Int.fdiv_fmod_unique hlt, mul_sub]
    omega

end MultiMLton.Lib

/-!
## Natural numbers as lists of limbs

Words of `n` bits, the least significant one first. A list without zeros at its end (`Trimmed`) is
the only one of its magnitude (`magnitude_inj`), and its length bounds the magnitude from both sides.
-/

namespace MultiMLton.Lib.Limbs

variable {n : ℕ}

def magnitude (limbs : List (BitVec n)) : ℕ := Nat.ofDigits (2 ^ n) (limbs.map BitVec.toNat)

/-- The last limb is not zero. -/
def Trimmed (limbs : List (BitVec n)) : Prop := ∀ l ∈ limbs.getLast?, l ≠ 0

/-- The limbs of a number. -/
def ofNat (n m : ℕ) : List (BitVec n) := (Nat.digits (2 ^ n) m).map (BitVec.ofNat n)

@[simp] theorem magnitude_nil : magnitude ([] : List (BitVec n)) = 0 := rfl

@[simp] theorem magnitude_singleton (l : BitVec n) : magnitude [l] = l.toNat :=
  Nat.ofDigits_singleton

theorem magnitude_cons (l : BitVec n) (limbs : List (BitVec n)) :
    magnitude (l :: limbs) = l.toNat + 2 ^ n * magnitude limbs :=
  Nat.ofDigits_cons

section

variable (hn : 0 < n) {limbs limbs' : List (BitVec n)}

include hn

theorem magnitude_lt (limbs : List (BitVec n)) : magnitude limbs < (2 ^ n) ^ limbs.length := by
  rw [← List.length_map (f := BitVec.toNat)]
  refine Nat.ofDigits_lt_base_pow_length (Nat.one_lt_two_pow hn.ne') fun d hd => ?_
  obtain ⟨l, -, rfl⟩ := List.mem_map.1 hd
  exact l.isLt

theorem digits_magnitude (h : Trimmed limbs) :
    Nat.digits (2 ^ n) (magnitude limbs) = limbs.map BitVec.toNat := by
  refine Nat.digits_ofDigits _ (Nat.one_lt_two_pow hn.ne') _ (fun d hd => ?_) fun hne => ?_
  · obtain ⟨l, -, rfl⟩ := List.mem_map.1 hd
    exact l.isLt
  · have hne' : limbs ≠ [] := by simpa using hne
    rw [List.getLast_map]
    intro hzero
    exact h _ (List.getLast?_eq_some_getLast hne') (BitVec.eq_of_toNat_eq (by simpa using hzero))

/-- Lists of limbs of one magnitude are equal. -/
theorem magnitude_inj (h : Trimmed limbs) (h' : Trimmed limbs')
    (heq : magnitude limbs = magnitude limbs') : limbs = limbs' := by
  have hmap : limbs.map BitVec.toNat = limbs'.map BitVec.toNat := by
    rw [← digits_magnitude hn h, ← digits_magnitude hn h', heq]
  exact List.map_injective_iff.2 (fun _ _ => BitVec.eq_of_toNat_eq) hmap

theorem magnitude_pos (h : Trimmed limbs) (hne : limbs ≠ []) : 0 < magnitude limbs := by
  refine Nat.pos_of_ne_zero fun hzero => hne ?_
  exact magnitude_inj hn h (fun _ hl => by cases hl) hzero

/-- A number with more limbs is larger. -/
theorem pow_le_magnitude (h : Trimmed limbs) (hne : limbs ≠ []) :
    (2 ^ n) ^ (limbs.length - 1) ≤ magnitude limbs := by
  have hle := Nat.base_pow_length_digits_le (2 ^ n) (magnitude limbs) (Nat.one_lt_two_pow hn.ne')
    (magnitude_pos hn h hne).ne'
  obtain ⟨k, hk⟩ := Nat.exists_eq_succ_of_ne_zero (mt List.length_eq_zero_iff.1 hne)
  rw [digits_magnitude hn h, List.length_map, hk, pow_succ'] at hle
  rw [hk, Nat.succ_sub_one]
  exact Nat.le_of_mul_le_mul_left hle (by positivity)

omit hn in
theorem magnitude_append (limbs : List (BitVec n)) (l : BitVec n) :
    magnitude (limbs ++ [l]) = magnitude limbs + 2 ^ (n * limbs.length) * l.toNat := by
  rw [magnitude, List.map_append, Nat.ofDigits_append, List.length_map, ← pow_mul]
  exact congrArg _ (congrArg _ Nat.ofDigits_singleton)

/-- The logarithm of a magnitude, rounded down, from its last limb. -/
theorem log_magnitude {l : BitVec n} (hl : l ≠ 0) :
    Nat.log 2 (magnitude (limbs ++ [l])) = n * limbs.length + Nat.log 2 l.toNat := by
  have hpos : l.toNat ≠ 0 := fun hzero => hl (BitVec.eq_of_toNat_eq (by simpa using hzero))
  have hlt := magnitude_lt hn limbs
  rw [← pow_mul] at hlt
  have hlo := Nat.mul_le_mul_left (2 ^ (n * limbs.length)) (Nat.pow_log_le_self 2 hpos)
  have hhi := Nat.mul_le_mul_left (2 ^ (n * limbs.length))
    (Nat.succ_le_of_lt (Nat.lt_pow_succ_log_self one_lt_two l.toNat))
  rw [← pow_add] at hlo hhi
  rw [magnitude_append]
  refine Nat.log_eq_of_pow_le_of_lt_pow (hlo.trans (Nat.le_add_left _ _)) ?_
  calc magnitude limbs + 2 ^ (n * limbs.length) * l.toNat
      < 2 ^ (n * limbs.length) + 2 ^ (n * limbs.length) * l.toNat := Nat.add_lt_add_right hlt _
    _ = 2 ^ (n * limbs.length) * (l.toNat + 1) := by ring
    _ ≤ 2 ^ (n * limbs.length + Nat.log 2 l.toNat + 1) := hhi

theorem map_toNat_ofNat (m : ℕ) : (ofNat n m).map BitVec.toNat = Nat.digits (2 ^ n) m := by
  rw [ofNat, List.map_map]
  refine (List.map_congr_left fun d hd => ?_).trans (List.map_id _)
  exact Nat.mod_eq_of_lt (Nat.digits_lt_base (Nat.one_lt_two_pow hn.ne') hd)

@[simp] theorem magnitude_ofNat (m : ℕ) : magnitude (ofNat n m) = m := by
  rw [magnitude, map_toNat_ofNat hn, Nat.ofDigits_digits]

theorem trimmed_ofNat (m : ℕ) : Trimmed (ofNat n m) := by
  intro l hl hzero
  have hlast : (Nat.digits (2 ^ n) m).getLast? = some 0 := by
    have hmap := congrArg (Option.map BitVec.toNat) (Option.mem_def.1 hl)
    rw [← List.getLast?_map, map_toNat_ofNat hn] at hmap
    simpa [hzero] using hmap
  have hne : Nat.digits (2 ^ n) m ≠ [] := fun hnil => by simp [hnil] at hlast
  rw [List.getLast?_eq_some_getLast hne] at hlast
  exact Nat.getLast_digit_ne_zero _ (Nat.digits_ne_nil_iff_ne_zero.1 hne) (Option.some.inj hlast)

end

end MultiMLton.Lib.Limbs
