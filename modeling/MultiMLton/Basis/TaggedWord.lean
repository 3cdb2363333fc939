import MultiMLton.Lib.Words

/-!
# Words with a tag

A small integer is a word of `n` bits whose last bit is one; the others are the integer. The
functions on tags are those at the beginning of `integer/int-inf0.sml`; `I` and `W` are its names
for the integers and words of the width of an object pointer, which are one type here.

* `Fits n i`: the integers that fit besides the tag;
* `dropTag_addTag`, `sameSignBit_addTag`: adding the tag loses nothing if and only if the sign stays.
-/

namespace MultiMLton.Basis

open MultiMLton.Lib BitVec Int Nat

inductive Exn
  | div
  | domain
  | overflow
  deriving DecidableEq

variable {n : ℕ}

/-! ### Integers and words -/

namespace I

/-- An integer as a result of a checked operation. -/
def check (n : ℕ) (i : ℤ) : Except Exn (BitVec n) :=
  if -2 ^ (n - 1) ≤ i ∧ i < 2 ^ (n - 1) then .ok (.ofInt n i) else .error .overflow

/-- `I.+!` -/
def add (x y : BitVec n) : Except Exn (BitVec n) := check n (x.toInt + y.toInt)

/-- `I.-!` -/
def sub (x y : BitVec n) : Except Exn (BitVec n) := check n (x.toInt - y.toInt)

/-- `I.*!` -/
def mul (x y : BitVec n) : Except Exn (BitVec n) := check n (x.toInt * y.toInt)

/-- `I.~` -/
def neg (x : BitVec n) : Except Exn (BitVec n) := check n (-x.toInt)

def minInt' : BitVec n := BitVec.intMin n

/-- `Int.abs` of `integer/num0.sml` -/
def abs (x : BitVec n) : Except Exn (BitVec n) := if x.slt 0 then neg x else .ok x

/-- `Int.quot` of `integer/num0.sml` -/
def quot (x y : BitVec n) : Except Exn (BitVec n) :=
  if y = 0 then .error .div
  else if x = minInt' ∧ y = -1 then .error .overflow
  else .ok (x.sdiv y)

/-- `Int.rem` of `integer/num0.sml` -/
def rem (x y : BitVec n) : Except Exn (BitVec n) :=
  if y = 0 then .error .div
  else if x = minInt' ∧ y = -1 then .ok 0
  else .ok (x.srem y)

end I

namespace W

/-- The loop of `Word.log2Word` of `integer/num0.sml`, for so many turns. -/
def log2Loop : ℕ → BitVec n → BitVec 32 → BitVec 32 → Option (BitVec 32)
  | 0, _, _, _ => none
  | fuel + 1, w, s, acc =>
    if w = 1 then some acc
    else
      let (w, acc) := if (1#n <<< s.toNat).ule w then (w >>> s.toNat, acc + s) else (w, acc)
      log2Loop fuel w (s >>> 1) acc

section Equations

attribute [local simp] log2Loop

end Equations

/-- `Word.log2` of `integer/num0.sml` -/
def log2 (fuel : ℕ) (w : BitVec n) : Option (Except Exn (BitVec 32)) :=
  if w = 0 then some (.error .domain)
  else (log2Loop fuel w (BitVec.ofNat 32 n >>> 1) 0).map .ok

end W

/-! ### Tags -/

def isTagged (w : BitVec n) : Bool := decide (w &&& 1 ≠ 0)

def dropTag (w : BitVec n) : BitVec n := w.sshiftRight 1

def addTag (w : BitVec n) : BitVec n := w <<< 1 ||| 1

def oneTag (w : BitVec n) : BitVec n := w ||| 1

/-- `sameSignBit` -/
def sameSignBit (lhs rhs : BitVec n) : Bool := BitVec.sle 0 (lhs ^^^ rhs)

/-- The integers of `n` bits with the tag. -/
def Fits (n : ℕ) (i : ℤ) : Prop := -2 ^ (n - 2) ≤ i ∧ i < 2 ^ (n - 2)

instance (n : ℕ) (i : ℤ) : Decidable (Fits n i) := inferInstanceAs (Decidable (_ ∧ _))

section Tags

variable (hn : 2 ≤ n)

include hn

theorem two_pow_eq : (2 : ℤ) ^ n = 4 * 2 ^ (n - 2) ∧ (2 : ℤ) ^ (n - 1) = 2 * 2 ^ (n - 2) := by
  obtain ⟨k, rfl⟩ := Nat.exists_eq_add_of_le hn
  rw [Nat.add_sub_cancel_left, show 2 + k - 1 = k + 1 by omega]
  constructor <;> ring

/-- The integer of a word lies in the range of its width. -/
theorem toInt_range (w : BitVec n) : -(2 * 2 ^ (n - 2)) ≤ w.toInt ∧ w.toInt < 2 * 2 ^ (n - 2) := by
  have hlo := le_toInt w
  have hhi := toInt_lt (x := w)
  rw [(two_pow_eq hn).2] at hlo hhi
  exact ⟨hlo, hhi⟩

theorem toInt_ofInt_of_range {i : ℤ} (hlo : -(2 * 2 ^ (n - 2)) ≤ i) (hhi : i < 2 * 2 ^ (n - 2)) :
    (BitVec.ofInt n i).toInt = i := by
  rw [← (two_pow_eq hn).2] at hlo hhi
  exact toInt_ofInt_eq_self (by omega) hlo hhi

omit hn in
theorem dropTag_toInt (w : BitVec n) : (dropTag w).toInt = w.toInt / 2 := by
  rw [dropTag, BitVec.toInt_sshiftRight, Int.shiftRight_eq_div_pow]
  norm_num

variable {w : BitVec n}

omit hn in
theorem dropTag_of_msb_false (h : w.msb = false) : dropTag w = w >>> 1 :=
  sshiftRight_eq_of_msb_false h

theorem dropTag_of_msb_true (h : w.msb = true) : dropTag w = w >>> 1 ||| 1#n <<< (n - 1) := by
  ext i hi
  rw [dropTag, getElem_sshiftRight, getElem_or, getElem_ushiftRight,
    ← twoPow_eq, getElem_twoPow]
  by_cases hlt : 1 + i < n
  · have hne : i ≠ n - 1 := by omega
    simp [hlt, hne]
  · have heq : i = n - 1 := by omega
    rw [dif_neg hlt, h]
    simp [heq]

omit hn in
theorem msb_dropTag (w : BitVec n) : (dropTag w).msb = w.msb := by
  rw [msb_eq_toInt, msb_eq_toInt, dropTag_toInt, decide_eq_decide]
  omega

theorem fits_dropTag (w : BitVec n) : Fits n (dropTag w).toInt := by
  obtain ⟨hlo, hhi⟩ := toInt_range hn w
  rw [dropTag_toInt, Fits]
  omega

theorem one_toInt : (1#n).toInt = 1 := by
  have hpos : (0 : ℤ) < 2 ^ (n - 2) := by positivity
  have := toInt_ofInt_of_range hn (i := 1) (by omega) (by omega)
  simpa using this

theorem emod_two_eq (w : BitVec n) : w.toInt % 2 = w.toNat % 2 := by
  have hpow : (2 : ℤ) ^ n = 2 * 2 ^ (n - 1) := by
    rw [(two_pow_eq hn).1, (two_pow_eq hn).2]
    ring
  rw [toInt_eq_toNat_cond]
  push_cast
  split_ifs
  · rfl
  · omega

theorem isTagged_iff (w : BitVec n) : isTagged w = true ↔ w.toInt % 2 = 1 := by
  have hand : (w &&& 1).toNat = w.toNat % 2 := by
    rw [BitVec.toNat_and]
    have hone : (1 : BitVec n).toNat = 1 := by
      simp [Nat.mod_eq_of_lt (Nat.one_lt_two_pow (by omega : n ≠ 0))]
    rw [hone, Nat.and_one_is_mod]
  rw [isTagged, decide_eq_true_iff, emod_two_eq hn, ne_eq, ← toNat_inj, hand]
  simp only [ofNat_eq_ofNat, toNat_ofNat, zero_mod]
  omega

theorem isTagged_eq (w : BitVec n) : isTagged w = w.getLsbD 0 := by
  rw [Bool.eq_iff_iff, isTagged_iff hn, emod_two_eq hn, getLsbD, testBit_zero,
    decide_eq_true_iff]
  omega

theorem isTagged_and (w w' : BitVec n) : isTagged (w &&& w') = (isTagged w && isTagged w') := by
  rw [isTagged_eq hn, isTagged_eq hn, isTagged_eq hn, getLsbD_and]

omit hn in
/-- The tag is added to twice the integer. -/
theorem addTag_eq (w : BitVec n) : addTag w = .ofInt n (2 * w.toInt + 1) := by
  have hand : w <<< 1 &&& 1#n = 0#n := by
    ext i hi
    cases i <;> simp
  have hshift : w <<< 1 = .ofInt n 2 * w := by
    rw [BitVec.shiftLeft_eq_mul_twoPow, BitVec.mul_comm]
    congr 1
    apply eq_of_toNat_eq
    simp
  rw [addTag, ofNat_eq_ofNat, ← add_eq_or_of_and_eq_zero _ _ hand, hshift,
    ofInt_add, ofInt_mul, ofInt_toInt]
  simp

/-- The tag can be added and dropped if the integer fits. -/
theorem addTag_toInt (h : Fits n w.toInt) : (addTag w).toInt = 2 * w.toInt + 1 := by
  obtain ⟨hlo, hhi⟩ := h
  rw [addTag_eq]
  exact toInt_ofInt_of_range hn (by omega) (by omega)

theorem isTagged_oneTag (w : BitVec n) : isTagged (oneTag w) = true := by
  refine decide_eq_true fun hzero => ?_
  have hbit := congrArg (·.getLsbD 0) hzero
  simp only [oneTag, ofNat_eq_ofNat, getLsbD_and, getLsbD_or,
    getLsbD_one, getLsbD_zero] at hbit
  simp at hbit
  omega

theorem isTagged_addTag (w : BitVec n) : isTagged (addTag w) = true := isTagged_oneTag hn (w <<< 1)

theorem dropTag_addTag (h : Fits n w.toInt) : dropTag (addTag w) = w := by
  rw [← toInt_inj, dropTag_toInt, addTag_toInt hn h]
  omega

theorem addTag_dropTag (h : isTagged w = true) : addTag (dropTag w) = w := by
  rw [isTagged_iff hn] at h
  rw [← toInt_inj, addTag_toInt hn (fits_dropTag hn w), dropTag_toInt]
  omega

/-- The sign stays if and only if the integer fits. -/
theorem sameSignBit_addTag (w : BitVec n) : sameSignBit (addTag w) w = true ↔ Fits n w.toInt := by
  obtain ⟨hlo, hhi⟩ := toInt_range hn w
  have hpos : (0 : ℤ) < 2 ^ (n - 2) := by positivity
  have hpow := (two_pow_eq hn).1
  have hsigns : sameSignBit (addTag w) w = true ↔ ((addTag w).toInt < 0 ↔ w.toInt < 0) := by
    rw [sameSignBit, ofNat_eq_ofNat, zero_sle_eq_not_msb, msb_xor,
      msb_eq_toInt, msb_eq_toInt]
    by_cases h1 : (addTag w).toInt < 0 <;> by_cases h2 : w.toInt < 0 <;> simp [h1, h2]
  rw [hsigns]
  by_cases hfits : Fits n w.toInt
  · rw [addTag_toInt hn hfits]
    simp only [hfits, iff_true]
    omega
  · simp only [hfits, iff_false]
    rw [addTag_eq]
    have hcast : (2 : ℤ) ^ n = (2 ^ n : ℕ) := by push_cast; rfl
    -- the result wraps around once, to the other sign
    by_cases hneg : w.toInt < 0
    · have hwrap : BitVec.ofInt n (2 * w.toInt + 1) = .ofInt n (2 * w.toInt + 1 + 2 ^ n) := by
        apply eq_of_toInt_eq
        rw [toInt_ofInt, toInt_ofInt, hcast, add_bmod_right]
      rw [hwrap, toInt_ofInt_of_range hn] <;> rw [Fits] at hfits <;> omega
    · have hwrap : BitVec.ofInt n (2 * w.toInt + 1) = .ofInt n (2 * w.toInt + 1 - 2 ^ n) := by
        apply eq_of_toInt_eq
        rw [toInt_ofInt, toInt_ofInt, hcast, sub_bmod_right]
      rw [hwrap, toInt_ofInt_of_range hn] <;> rw [Fits] at hfits <;> omega

/-- The magnitude of an integer that is not too negative. -/
theorem toNat_magnitude (h : Fits n w.toInt) :
    (if w.msb then -w else w).toNat = w.toInt.natAbs := by
  obtain ⟨hlo, hhi⟩ := h
  have hpos : (0 : ℤ) < 2 ^ (n - 2) := by positivity
  cases hmsb : w.msb with
  | false =>
    have htoInt := toInt_eq_toNat_of_msb hmsb
    simp only [Bool.false_eq_true, if_false]
    omega
  | true =>
    have hneg : (-w).toInt = -w.toInt := by
      rw [toInt_neg, bmod_eq_of_le_mul_two]
      all_goals
        have := (two_pow_eq hn).1
        push_cast
        omega
    have hlt := toInt_neg_of_msb_true hmsb
    have hmsb' : (-w).msb = false := by
      rw [msb_eq_toInt, decide_eq_false_iff_not]
      omega
    have htoInt := toInt_eq_toNat_of_msb hmsb'
    simp only [if_true]
    omega

end Tags

end MultiMLton.Basis
