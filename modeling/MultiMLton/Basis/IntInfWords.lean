import MultiMLton.Basis.IntInfExact

/-!
# Integers without bounds and words

The conversions of `integer/int-inf0.sml` between integers and words of 8, 16, 32 and 64 bits. A shift
by the width of a word or more leaves no bits, as `Prim.apply` folds it.

* `extdFromWordN`, `chckToWordAux`: the code, where one function `make` serves all the sizes;
* `sextdFromWord_isRep`, `zextdFromWord_isRep`, `sextdToWord_eq`, `schckToWord_eq`: they are exact;
* `zchckToWord_eq_iff`: where the check of unsigned words is; a small integer is checked as a signed
  one.
-/

namespace MultiMLton.Basis

open MultiMLton.Lib MultiMLton.Lib.Limbs List BitVec Int

variable {c : Config} {n : ℕ}

namespace BigInt

/-- `make`, for `extdFromWord8` to `extdFromWord64` -/
def extdFromWordN (sextd : Bool) (w : BitVec n) : BigInt c :=
  let upperBits := w.sshiftRight (c.objptr - 2)
  if c.objptr > n ∨ upperBits = 0 ∨ sextd ∧ upperBits = ~~~0 then
    if sextd then Prim.fromWord (addTag (w.signExtend c.objptr))
    else Prim.fromWord (addTag (w.setWidth c.objptr))
  else if sextd ∧ w.slt 0 then vector (1 :: limbsOf (-w))
  else vector (0 :: limbsOf w)

/-- `sextdFromWord8` to `sextdFromWord64` -/
def sextdFromWord (w : BitVec n) : BigInt c := extdFromWordN true w

/-- `zextdFromWord8` to `zextdFromWord64` -/
def zextdFromWord (w : BitVec n) : BigInt c := extdFromWordN false w

variable (c n) in
/-- `ans` -/
inductive Ans
  | big (isneg extra : Bool) (ans : BitVec n)
  | small (w : BitVec c.objptr)

/-- The loop of `chckToWordAux` over the limbs from the place `i` down. -/
def chckToWordLoop (v : List (BitVec c.limb)) : ℕ → BitVec n → BitVec n
  | 0, ans => ans
  | i + 1, ans => chckToWordLoop v i (ans <<< c.limb ||| (v.getD (i + 1) 0).setWidth n)

variable (n) in
/-- `make`, for `chckToWord8Aux` to `chckToWord64Aux` -/
def chckToWordAux (i : BigInt c) : Ans c n :=
  if isSmall i then .small (dropTagCoerce i)
  else
    let v := Prim.toVector i
    let isneg := isneg v
    if c.limb ≥ n then
      let limbsPer := 1
      let limb := v.getD 1 0
      let extra := decide (v.length > limbsPer + 1 ∨ limb >>> n ≠ 0)
      .big isneg extra (limb.setWidth n)
    else
      let limbsPer := n / c.limb
      let extra := decide (v.length > limbsPer + 1)
      .big isneg extra (chckToWordLoop v (min (v.length - 1) limbsPer) 0)

variable (n) in
/-- `sextdToWord8` to `sextdToWord64` -/
def sextdToWord (i : BigInt c) : BitVec n :=
  match chckToWordAux n i with
  | .small w => w.signExtend n
  | .big isneg _ ans => if isneg then -ans else ans

variable (n) in
/-- `zextdToWord8` to `zextdToWord64` -/
def zextdToWord (i : BigInt c) : BitVec n := sextdToWord n i

variable (n) in
/-- `schckToWord8` to `schckToWord64` of `integer/iwconv0.sml`, for a word of `m` bits -/
def schckWord {m : ℕ} (detectOverflow : Bool) (w : BitVec m) : Except Exn (BitVec n) :=
  if detectOverflow ∧ n < m then
    let res := w.signExtend n
    if w = res.signExtend m then .ok res else .error .overflow
  else .ok (w.signExtend n)

variable (n) in
/-- `schckToWord8` to `schckToWord64` -/
def schckToWord (detectOverflow : Bool) (i : BigInt c) : Except Exn (BitVec n) :=
  if !detectOverflow then .ok (sextdToWord n i)
  else
    match chckToWordAux n i with
    | .small w => schckWord n detectOverflow w
    | .big isneg extra ans =>
      if extra then .error .overflow
      else if isneg then
        let ans := -ans
        if BitVec.slt 0 ans then .error .overflow else .ok ans
      else if ans.slt 0 then .error .overflow else .ok ans

variable (n) in
/-- `zchckToWord8` to `zchckToWord64` -/
def zchckToWord (detectOverflow : Bool) (i : BigInt c) : Except Exn (BitVec n) :=
  if !detectOverflow then .ok (zextdToWord n i)
  else
    match chckToWordAux n i with
    | .small w => schckWord n detectOverflow w
    | .big isneg extra ans => if isneg || extra then .error .overflow else .ok ans

/-! ### From words -/

section From

/-- The widths of the words. -/
def Width (n : ℕ) : Prop := n = 8 ∨ n = 16 ∨ n = 32 ∨ n = 64

instance (n : ℕ) : Decidable (Width n) := inferInstanceAs (Decidable (_ ∨ _))

variable (hn : Width n)

theorem vector_isRep {sign : BitVec c.limb} {w : BitVec n} {i : ℤ} (hs : sign = 0 ∨ sign = 1)
    (hi : i = if sign ≠ 0 then -(w.toNat : ℤ) else w.toNat) (hlarge : ¬Fits c.objptr i) :
    IsRep (vector (sign :: limbsOf w)) i := by
  have htoInt : toInt (vector (sign :: limbsOf w) : BigInt c) = i := by
    rw [toInt, isneg_cons, tail_cons, magnitude_limbsOf, hi]
    simp only [decide_eq_true_iff]
  exact ⟨⟨⟨_, _, rfl, hs⟩, trimmed_limbsOf w, htoInt.symm ▸ hlarge⟩, htoInt⟩

/-- The upper bits are zero for the integers below a power. -/
theorem upperBits_eq_zero_iff (w : BitVec n) (k : ℕ) :
    w.sshiftRight k = 0 ↔ 0 ≤ w.toInt ∧ w.toInt < 2 ^ k := by
  have hpos : (0 : ℤ) < 2 ^ k := by positivity
  rw [← toInt_inj, toInt_sshiftRight, shiftRight_eq_div_pow]
  push_cast
  rw [ofNat_eq_ofNat, toInt_zero, ediv_eq_iff_of_pos hpos]
  omega

theorem upperBits_eq_ones_iff (hn : 0 < n) (w : BitVec n) (k : ℕ) :
    w.sshiftRight k = ~~~0 ↔ -2 ^ k ≤ w.toInt ∧ w.toInt < 0 := by
  have hpos : (0 : ℤ) < 2 ^ k := by positivity
  rw [← toInt_inj, toInt_sshiftRight, shiftRight_eq_div_pow, toInt_not_eq _ hn]
  push_cast
  rw [ofNat_eq_ofNat, toInt_zero, ediv_eq_iff_of_pos hpos]
  omega

include hn

theorem Width.bounds : 8 ≤ n ∧ (c.objptr > n → n ≤ c.objptr - 2) ∧ (¬ c.objptr > n → c.objptr ≤ n) := by
  have hobjptr := c.objptr_eq
  rw [Width] at hn
  omega

omit hn in
theorem toInt_eq_toNat_iff (w : BitVec n) (hpos : 0 < n) :
    (0 ≤ w.toInt ↔ w.toNat < 2 ^ (n - 1)) ∧ (0 ≤ w.toInt → w.toInt = w.toNat) := by
  have hlt := w.isLt
  have hpow : 2 ^ n = 2 * 2 ^ (n - 1) := by
    rw [← Nat.pow_succ', Nat.succ_eq_add_one, Nat.sub_add_cancel hpos]
  rw [toInt_eq_toNat_cond]
  split_ifs <;> omega

/-- A word becomes a small integer if it fits. -/
theorem sextd_small_iff (w : BitVec n) :
    (c.objptr > n ∨ w.sshiftRight (c.objptr - 2) = 0 ∨ w.sshiftRight (c.objptr - 2) = ~~~0) ↔
      Fits c.objptr w.toInt := by
  obtain ⟨hn8, hless, -⟩ := Width.bounds (c := c) hn
  have hpos : (0 : ℤ) < 2 ^ (c.objptr - 2) := by positivity
  rw [upperBits_eq_zero_iff, upperBits_eq_ones_iff (by omega), Fits]
  constructor
  · rintro (hlt | h | h)
    · have hlo := le_toInt w
      have hhi := toInt_lt (x := w)
      have hle : (2 : ℤ) ^ (n - 1) ≤ 2 ^ (c.objptr - 2) :=
        pow_le_pow_right₀ (by norm_num) (by have := hless hlt; omega)
      omega
    · omega
    · omega
  · intro h
    omega

theorem zextd_small_iff (w : BitVec n) :
    (c.objptr > n ∨ w.sshiftRight (c.objptr - 2) = 0) ↔ Fits c.objptr w.toNat := by
  obtain ⟨hn8, hless, hge⟩ := Width.bounds (c := c) hn
  obtain ⟨hsign, hnonneg⟩ := toInt_eq_toNat_iff w (by omega)
  have hcast (k : ℕ) : ((2 ^ k : ℕ) : ℤ) = 2 ^ k := by push_cast; rfl
  have hpos : (0 : ℤ) < 2 ^ (c.objptr - 2) := by positivity
  rw [upperBits_eq_zero_iff, Fits]
  constructor
  · rintro (hlt | ⟨hlo, hhi⟩)
    · have hle : 2 ^ n ≤ 2 ^ (c.objptr - 2) := Nat.pow_le_pow_right two_pos (hless hlt)
      have hw := w.isLt
      have h := hcast (c.objptr - 2)
      omega
    · rw [hnonneg hlo] at hhi
      omega
  · rintro ⟨-, hhi⟩
    by_cases hlt : c.objptr > n
    · exact .inl hlt
    · have hle : 2 ^ (c.objptr - 2) ≤ 2 ^ (n - 1) :=
        Nat.pow_le_pow_right two_pos (by have := hge hlt; omega)
      have h := hcast (c.objptr - 2)
      have hw : 0 ≤ w.toInt := hsign.2 (by omega)
      exact .inr ⟨hw, by rwa [hnonneg hw]⟩

theorem sextdFromWord_isRep (w : BitVec n) : IsRep (sextdFromWord w : BigInt c) w.toInt := by
  have hiff := sextd_small_iff (c := c) hn w
  obtain ⟨hn8, -⟩ := Width.bounds (c := c) hn
  rw [sextdFromWord, extdFromWordN]
  simp only [true_and, if_true]
  by_cases hfits : Fits c.objptr w.toInt
  · rw [if_pos (hiff.2 hfits)]
    exact addTag_isRep hfits
  · rw [if_neg (mt hiff.1 hfits)]
    obtain ⟨hsign, hnonneg⟩ := toInt_eq_toNat_iff w (by omega)
    by_cases hneg : w.slt 0
    · rw [if_pos hneg]
      rw [slt_iff_toInt_lt, ofNat_eq_ofNat, toInt_zero] at hneg
      refine vector_isRep (.inr rfl) ?_ hfits
      have hw := w.isLt
      have hlt : 2 ^ (n - 1) ≤ w.toNat := by omega
      have htoInt : w.toInt = (w.toNat : ℤ) - (2 ^ n : ℕ) := by
        rw [toInt_eq_toNat_cond, if_neg]
        intro hlt
        have hpow : 2 ^ n = 2 * 2 ^ (n - 1) := by
          rw [← Nat.pow_succ', Nat.succ_eq_add_one, Nat.sub_add_cancel (by omega)]
        omega
      have hminus : (-w).toNat = 2 ^ n - w.toNat := by
        rw [toNat_neg, Nat.mod_eq_of_lt]
        have := Nat.two_pow_pos (n - 1)
        omega
      rw [if_pos one_ne_zero, hminus, htoInt]
      omega
    · rw [if_neg hneg]
      rw [slt_iff_toInt_lt, ofNat_eq_ofNat, toInt_zero, not_lt] at hneg
      refine vector_isRep (.inl rfl) ?_ hfits
      rw [if_neg (not_not.2 rfl), hnonneg hneg]

theorem zextdFromWord_isRep (w : BitVec n) : IsRep (zextdFromWord w : BigInt c) w.toNat := by
  have hiff := zextd_small_iff (c := c) hn w
  rw [zextdFromWord, extdFromWordN]
  simp only [Bool.false_eq_true, false_and, or_false, if_false]
  by_cases hfits : Fits c.objptr w.toNat
  · rw [if_pos (hiff.2 hfits)]
    have hword : w.setWidth c.objptr = BitVec.ofInt c.objptr w.toNat := by
      rw [ofInt_natCast]
      exact eq_of_toNat_eq (by simp)
    rw [hword]
    exact addTag_isRep hfits
  · rw [if_neg (mt hiff.1 hfits)]
    exact vector_isRep (.inl rfl) (if_neg (not_not.2 rfl)).symm hfits

end From

/-! ### To words -/

section To

variable {x : BigInt c} {i : ℤ}

theorem magnitude_take_succ {limbs : List (BitVec c.limb)} {k : ℕ} (hk : k < limbs.length) :
    magnitude (limbs.take (k + 1)) =
      magnitude (limbs.take k) + 2 ^ (c.limb * k) * (limbs.getD k 0).toNat := by
  rw [take_succ_eq_append_getElem hk, magnitude_append, length_take,
    min_eq_left hk.le, getD_eq_getElem _ _ hk]

/-- A limb goes where there are no bits after the shift. -/
theorem shiftLeft_and_setWidth {m : ℕ} (ans : BitVec n) (limb : BitVec m) :
    ans <<< m &&& limb.setWidth n = 0#n := by
  ext j hj
  by_cases hlt : j < m
  · simp [hlt]
  · have hhigh := getLsbD_of_ge limb j (not_lt.1 hlt)
    simp [hhigh]

/-- The limbs below a place, and what is above it already. -/
theorem chckToWordLoop_eq {sign : BitVec c.limb} {limbs : List (BitVec c.limb)} {k : ℕ}
    (hk : k ≤ limbs.length) (ans : BitVec n) :
    chckToWordLoop (sign :: limbs) k ans =
      BitVec.ofNat n (2 ^ (c.limb * k) * ans.toNat + magnitude (limbs.take k)) := by
  induction k generalizing ans with
  | zero => simp [chckToWordLoop]
  | succ k ih =>
    have hand := shiftLeft_and_setWidth ans (limbs.getD k 0)
    rw [chckToWordLoop, ih (by omega), getD_cons_succ,
      ← add_eq_or_of_and_eq_zero _ _ hand, magnitude_take_succ hk]
    apply eq_of_toNat_eq
    simp only [toNat_ofNat, BitVec.toNat_add, BitVec.toNat_shiftLeft, BitVec.toNat_setWidth,
      Nat.shiftLeft_eq]
    refine Nat.ModEq.trans (b := 2 ^ (c.limb * k) * (ans.toNat * 2 ^ c.limb +
      (limbs.getD k 0).toNat) + magnitude (limbs.take k)) ?_ ?_
    · refine Nat.ModEq.add_right _ (Nat.ModEq.mul_left _ ?_)
      refine (Nat.mod_modEq _ _).trans ?_
      exact (Nat.mod_modEq _ _).add (Nat.mod_modEq _ _)
    · refine congrArg (· % 2 ^ n) ?_
      rw [Nat.mul_succ, pow_add]
      ring

section Vector

variable (hn : Width n) {v : List (BitVec c.limb)} (h : NormalVector v)

include hn h

omit hn in
/-- The limb of a small word, or the first one of a larger one. -/
theorem chckToWordAux_narrow (hle : c.limb ≥ n) :
    (v.length > 2 ∨ v.getD 1 0 >>> n ≠ 0 ↔ 2 ^ n ≤ magnitude v.tail) ∧
      (v.getD 1 0).setWidth n = BitVec.ofNat n (magnitude v.tail) := by
  obtain ⟨sign, limbs, rfl, -⟩ := h.head
  have htrim : Trimmed limbs := h.trimmed
  obtain ⟨l, rest, rfl⟩ := exists_cons_of_ne_nil (h.tail_ne_nil : limbs ≠ [])
  have hmag : magnitude (l :: rest) = l.toNat + 2 ^ c.limb * magnitude rest := magnitude_cons l rest
  have hpow : 2 ^ n ≤ 2 ^ c.limb := Nat.pow_le_pow_right two_pos hle
  have hshift : l >>> n ≠ 0 ↔ 2 ^ n ≤ l.toNat := by
    rw [ne_eq, ← toNat_inj, toNat_ushiftRight, Nat.shiftRight_eq_div_pow,
      ofNat_eq_ofNat, toNat_ofNat, Nat.zero_mod,
      Nat.div_eq_zero_iff_lt (Nat.two_pow_pos n), not_lt]
  have hget : (sign :: l :: rest).getD 1 0 = l := rfl
  rw [hget, tail_cons, hmag]
  constructor
  · rw [hshift]
    cases rest with
    | nil => simp
    | cons l' rest =>
      have hpos := magnitude_pos c.limb_pos
        (fun d hd => htrim d (by rwa [getLast?_cons_cons])) (by simp)
      have hmul := Nat.le_mul_of_pos_right (2 ^ c.limb) hpos
      refine iff_of_true (.inl (by simp)) (by omega)
  · apply eq_of_toNat_eq
    obtain ⟨t, ht⟩ : 2 ^ n ∣ 2 ^ c.limb := pow_dvd_pow 2 hle
    rw [BitVec.toNat_setWidth, toNat_ofNat, ht, Nat.mul_assoc, Nat.add_mul_mod_self_left]

/-- So many limbs are a word. -/
theorem chckToWordAux_wide (hlt : ¬ c.limb ≥ n) :
    (v.length > n / c.limb + 1 ↔ 2 ^ n ≤ magnitude v.tail) ∧
      chckToWordLoop v (min (v.length - 1) (n / c.limb)) 0 =
        BitVec.ofNat n (magnitude v.tail) := by
  obtain ⟨k, hk⟩ : ∃ k, n = c.limb * k := by
    rcases c.limb_eq with hl | hl
    · refine ⟨2, ?_⟩
      rw [Width] at hn
      omega
    · rw [Width] at hn
      omega
  have hdiv : n / c.limb = k := by rw [hk, Nat.mul_div_cancel_left k c.limb_pos]
  obtain ⟨sign, limbs, rfl, -⟩ := h.head
  have htrim : Trimmed limbs := h.trimmed
  have hne : limbs ≠ [] := h.tail_ne_nil
  have hpow : 2 ^ n = (2 ^ c.limb) ^ k := by rw [← pow_mul, ← hk]
  rw [hdiv, length_cons, Nat.add_sub_cancel, tail_cons]
  constructor
  · constructor
    · intro hlen
      have hle := pow_le_magnitude c.limb_pos htrim hne
      rw [hpow]
      exact (Nat.pow_le_pow_right (Nat.two_pow_pos _) (by omega)).trans hle
    · intro hle
      by_contra hlen
      have hmag := magnitude_lt c.limb_pos limbs
      have hpow' : (2 ^ c.limb) ^ limbs.length ≤ (2 ^ c.limb) ^ k :=
        Nat.pow_le_pow_right (Nat.two_pow_pos _) (by omega)
      omega
  · rw [chckToWordLoop_eq (min_le_left _ _)]
    apply eq_of_toNat_eq
    rw [toNat_ofNat, toNat_ofNat, ofNat_eq_ofNat, toNat_ofNat,
      Nat.zero_mod, Nat.mul_zero, Nat.zero_add]
    -- the limbs that are left out are multiples of the modulus
    have hsplit : magnitude limbs =
        magnitude (limbs.take k) + 2 ^ (c.limb * (limbs.take k).length) * magnitude (limbs.drop k) := by
      conv_lhs => rw [← take_append_drop k limbs]
      rw [magnitude, map_append, Nat.ofDigits_append, length_map, ← pow_mul]
      rfl
    have htake : limbs.take (min limbs.length k) = limbs.take k := by
      rcases le_total limbs.length k with hle | hle
      · rw [min_eq_left hle, take_length, take_of_length_le hle]
      · rw [min_eq_right hle]
    rw [htake, hsplit]
    rcases le_total limbs.length k with hle | hle
    · rw [drop_eq_nil_of_le hle, magnitude_nil, Nat.mul_zero, Nat.add_zero]
    · rw [length_take, min_eq_left hle, ← hk]
      exact (Nat.add_mul_mod_self_left _ _ _).symm

/-- The sign of a vector, whether its magnitude has bits beyond the word, and the bits of the word. -/
theorem chckToWordAux_vector :
    chckToWordAux n (vector v) = .big (decide (toInt (vector v) < 0))
      (decide (2 ^ n ≤ magnitude v.tail)) (BitVec.ofNat n (magnitude v.tail)) := by
  have hsign : isneg v = decide (toInt (vector v) < 0) := by
    rw [Bool.eq_iff_iff, decide_eq_true_iff, h.toInt_neg_iff]
  rw [chckToWordAux, isSmall_vector, if_neg Bool.false_ne_true]
  simp only [Prim.toVector, hsign]
  by_cases hle : c.limb ≥ n
  · obtain ⟨hextra, hans⟩ := chckToWordAux_narrow h hle
    rw [if_pos hle, hans]
    simp only [hextra]
  · obtain ⟨hextra, hans⟩ := chckToWordAux_wide hn h hle
    rw [if_neg hle, hans]
    simp only [hextra]

end Vector

theorem chckToWordAux_word {w : BitVec c.objptr} (h : isTagged w = true) :
    chckToWordAux n (word w) = .small (dropTag w) := if_pos h

/-- The check of a signed word, from a wider or a narrower one. -/
theorem schckWord_eq {m : ℕ} (hpos : 0 < n) (hm : 0 < m) (w : BitVec m) :
    schckWord n true w = I.check n w.toInt := by
  have hlo := le_toInt w
  have hhi := toInt_lt (x := w)
  rw [schckWord, I.check]
  by_cases hlt : n < m
  · rw [if_pos ⟨rfl, hlt⟩]
    have hiff : w = (w.signExtend n).signExtend m ↔ -2 ^ (n - 1) ≤ w.toInt ∧ w.toInt < 2 ^ (n - 1) := by
      constructor
      · intro heq
        have hback : w.toInt = (w.signExtend n).toInt := by
          rw [heq, toInt_signExtend_of_le hlt.le, ← heq]
        rw [hback]
        exact ⟨le_toInt _, toInt_lt⟩
      · rintro ⟨hlo, hhi⟩
        rw [← toInt_inj, toInt_signExtend_of_le hlt.le, signExtend,
          toInt_ofInt_eq_self hpos hlo hhi]
    simp only [hiff]
    rfl
  · have hle : (2 : ℤ) ^ (m - 1) ≤ 2 ^ (n - 1) := pow_le_pow_right₀ (by norm_num) (by omega)
    rw [if_neg fun h => hlt h.2, if_pos ⟨by omega, by omega⟩]
    rfl

/-- A sign and a magnitude as a word. -/
theorem ofInt_eq_of_neg (hneg : i < 0) : -BitVec.ofNat n i.natAbs = BitVec.ofInt n i := by
  have heq : i = -(i.natAbs : ℤ) := by omega
  conv_rhs => rw [heq]
  rw [ofInt_neg, ofInt_natCast]

theorem ofInt_eq_of_nonneg (hneg : ¬i < 0) : BitVec.ofNat n i.natAbs = BitVec.ofInt n i := by
  have heq : i = (i.natAbs : ℤ) := by omega
  conv_rhs => rw [heq]
  rw [ofInt_natCast]

/-- An integer whose magnitude is a word is in range if it keeps its sign in the word. -/
theorem check_of_natAbs_lt (hpos : 0 < n) (hlt : i.natAbs < 2 ^ n) :
    (i < 0 → (0 < (BitVec.ofInt n i).toInt ↔ i < -2 ^ (n - 1))) ∧
      (0 < i → ((BitVec.ofInt n i).toInt < 0 ↔ 2 ^ (n - 1) ≤ i)) := by
  have hpow : (2 ^ n : ℕ) = 2 * 2 ^ (n - 1) := by
    rw [← Nat.pow_succ', Nat.succ_eq_add_one, Nat.sub_add_cancel hpos]
  have hcast : ((2 ^ (n - 1) : ℕ) : ℤ) = 2 ^ (n - 1) := by push_cast; rfl
  rw [toInt_ofInt]
  by_cases hrange : -2 ^ (n - 1) ≤ i ∧ i < 2 ^ (n - 1)
  · rw [bmod_eq_of_le_mul_two (by omega) (by omega)]
    omega
  · constructor
    · intro hneg
      rw [← add_bmod_right, bmod_eq_of_le_mul_two (by omega) (by omega)]
      omega
    · intro hpos
      rw [← sub_bmod_right, bmod_eq_of_le_mul_two (by omega) (by omega)]
      omega

section Exact

variable (hn : Width n) (h : IsRep x i)

include hn h

/-- The integer modulo the size of the words. -/
theorem sextdToWord_eq : sextdToWord n x = BitVec.ofInt n i := by
  obtain ⟨hx, rfl⟩ := h
  cases x with
  | word w =>
    rw [sextdToWord, chckToWordAux_word hx]
    rfl
  | vector v =>
    rw [sextdToWord, chckToWordAux_vector hn hx, ← natAbs_toInt_vector v]
    by_cases hneg : toInt (vector v) < 0
    · simp only [hneg, decide_true, if_true]
      exact ofInt_eq_of_neg hneg
    · simp only [hneg, decide_false, Bool.false_eq_true, if_false]
      exact ofInt_eq_of_nonneg hneg

/-- The word of an integer in the signed range, or `Overflow`. -/
theorem schckToWord_eq : schckToWord n true x = I.check n i := by
  obtain ⟨hn8, -⟩ := Width.bounds (c := c) hn
  have hobjptr := c.two_le
  obtain ⟨hx, rfl⟩ := h
  cases x with
  | word w =>
    rw [schckToWord, chckToWordAux_word hx]
    exact schckWord_eq (by omega) (by omega) _
  | vector v =>
    have hne : toInt (vector v) ≠ 0 := fun hzero => hx.large (by
      have hpos : (0 : ℤ) < 2 ^ (c.objptr - 2) := by positivity
      rw [hzero, Fits]
      omega)
    have hpow : (2 ^ n : ℕ) = 2 * 2 ^ (n - 1) := by
      rw [← Nat.pow_succ', Nat.succ_eq_add_one, Nat.sub_add_cancel (by omega)]
    have hcast : ((2 ^ (n - 1) : ℕ) : ℤ) = 2 ^ (n - 1) := by push_cast; rfl
    have hsmall := Nat.two_pow_pos (n - 1)
    rw [schckToWord, chckToWordAux_vector hn hx, ← natAbs_toInt_vector v, I.check]
    simp only [Bool.not_true, Bool.false_eq_true, if_false, decide_eq_true_iff]
    by_cases hextra : 2 ^ n ≤ (toInt (vector v)).natAbs
    · rw [if_pos hextra, if_neg (by omega)]
    · rw [if_neg hextra]
      obtain ⟨hnegative, hpositive⟩ := check_of_natAbs_lt (n := n) (by omega) (not_le.1 hextra)
      by_cases hneg : toInt (vector v) < 0
      · have hslt : BitVec.slt 0 (BitVec.ofInt n (toInt (vector v))) = true ↔
            toInt (vector v) < -2 ^ (n - 1) := by
          rw [slt_iff_toInt_lt, ofNat_eq_ofNat, toInt_zero, hnegative hneg]
        rw [if_pos hneg, ofInt_eq_of_neg hneg]
        by_cases hlow : toInt (vector v) < -2 ^ (n - 1)
        · rw [if_pos (hslt.2 hlow), if_neg (by omega)]
        · rw [if_neg (mt hslt.1 hlow), if_pos (by omega)]
      · have hslt : (BitVec.ofInt n (toInt (vector v))).slt 0 = true ↔
            2 ^ (n - 1) ≤ toInt (vector v) := by
          rw [slt_iff_toInt_lt, ofNat_eq_ofNat, toInt_zero,
            hpositive (by omega)]
        rw [if_neg hneg, ofInt_eq_of_nonneg hneg]
        by_cases hhigh : 2 ^ (n - 1) ≤ toInt (vector v)
        · rw [if_pos (hslt.2 hhigh), if_neg (by omega)]
        · rw [if_neg (mt hslt.1 hhigh), if_pos (by omega)]

/-- A large integer is checked as an unsigned one, a small one as a signed one. -/
theorem zchckToWord_eq : zchckToWord n true x =
    if Fits c.objptr i then I.check n i
    else if 0 ≤ i ∧ i < 2 ^ n then .ok (BitVec.ofInt n i) else .error .overflow := by
  obtain ⟨hn8, -⟩ := Width.bounds (c := c) hn
  have hobjptr := c.two_le
  obtain ⟨hx, rfl⟩ := h
  cases x with
  | word w =>
    rw [zchckToWord, chckToWordAux_word hx, if_pos (fits_word w)]
    exact schckWord_eq (by omega) (by omega) _
  | vector v =>
    have hcast : ((2 ^ n : ℕ) : ℤ) = 2 ^ n := by push_cast; rfl
    rw [zchckToWord, chckToWordAux_vector hn hx, ← natAbs_toInt_vector v, if_neg hx.large]
    simp only [Bool.not_true, Bool.false_eq_true, if_false, Bool.or_eq_true, decide_eq_true_iff]
    by_cases hrange : 0 ≤ toInt (vector v) ∧ toInt (vector v) < 2 ^ n
    · rw [if_pos hrange, if_neg (by omega), ofInt_eq_of_nonneg (by omega)]
    · rw [if_neg hrange, if_pos (by omega)]

end Exact

end To

/-! ### The conversions -/

/-- A check that says of an integer whether it is an unsigned word. -/
def ZchckExact (n : ℕ) (i : ℤ) (r : Except Exn (BitVec n)) : Prop :=
  r = if 0 ≤ i ∧ i < 2 ^ n then .ok (BitVec.ofInt n i) else .error .overflow

/-- The integers that are small, and signed words or unsigned words but not both. -/
def OneRange (c : Config) (n : ℕ) (i : ℤ) : Prop :=
  Fits c.objptr i ∧ (-2 ^ (n - 1) ≤ i ∧ i < 0 ∨ 2 ^ (n - 1) ≤ i ∧ i < 2 ^ n)

theorem zchckToWord_iff (hn : Width n) {x : BigInt c} {i : ℤ} (h : IsRep x i) :
    ZchckExact n i (zchckToWord n true x) ↔ ¬OneRange c n i := by
  obtain ⟨hn8, -⟩ := Width.bounds (c := c) hn
  have hpow : (2 : ℤ) ^ n = 2 * 2 ^ (n - 1) := by
    rw [← pow_succ', Nat.sub_add_cancel (by omega)]
  have hpos : (0 : ℤ) < 2 ^ (n - 1) := by positivity
  rw [ZchckExact, zchckToWord_eq hn h, OneRange]
  by_cases hfits : Fits c.objptr i
  · rw [if_pos hfits, I.check]
    by_cases hs : -2 ^ (n - 1) ≤ i ∧ i < 2 ^ (n - 1)
    · rw [if_pos hs]
      by_cases hz : 0 ≤ i ∧ i < 2 ^ n
      · rw [if_pos hz]
        exact iff_of_true rfl (by omega)
      · rw [if_neg hz]
        exact iff_of_false (fun h => by cases h) fun hnot => hnot ⟨hfits, by omega⟩
    · rw [if_neg hs]
      by_cases hz : 0 ≤ i ∧ i < 2 ^ n
      · rw [if_pos hz]
        exact iff_of_false (fun h => by cases h) fun hnot => hnot ⟨hfits, by omega⟩
      · rw [if_neg hz]
        exact iff_of_true rfl (by omega)
  · rw [if_neg hfits]
    exact iff_of_true rfl fun hone => hfits hone.1

/-- The conversions are exact for all words and integers, with one exception: the check of unsigned
words is so if and only if a small integer is in both ranges or in none. -/
theorem conversions_exact (c : Config) (hn : Width n) :
    (∀ w : BitVec n, IsRep (sextdFromWord w : BigInt c) w.toInt ∧
      IsRep (zextdFromWord w : BigInt c) w.toNat) ∧
    ∀ (x : BigInt c) (i : ℤ), IsRep x i →
      sextdToWord n x = BitVec.ofInt n i ∧ zextdToWord n x = BitVec.ofInt n i ∧
      (schckToWord n true x = if -2 ^ (n - 1) ≤ i ∧ i < 2 ^ (n - 1) then .ok (BitVec.ofInt n i)
        else .error .overflow) ∧
      (ZchckExact n i (zchckToWord n true x) ↔ ¬OneRange c n i) := by
  refine ⟨fun w => ⟨sextdFromWord_isRep hn w, zextdFromWord_isRep hn w⟩, fun x i h => ?_⟩
  exact ⟨sextdToWord_eq hn h, sextdToWord_eq hn h, schckToWord_eq hn h, zchckToWord_iff hn h⟩

/-- Words of 8 bits. -/
theorem conversions_exact_byte :
    IsRep (zextdFromWord (200 : BitVec 8) : BigInt native64) 200 ∧
      zchckToWord 8 true (zextdFromWord (100 : BitVec 8) : BigInt native64) = .ok 100 := by
  have hexact := conversions_exact native64 (n := 8) (by decide)
  refine ⟨(hexact.1 200).2, ?_⟩
  have hcheck := (hexact.2 _ 100 (hexact.1 100).2).2.2.2.2
  exact hcheck (by rintro ⟨-, h⟩; omega)

/-- 200 is an unsigned byte and is refused; -1 is none and is returned as 255. -/
theorem zchckToWord_byte :
    (IsRep (sextdFromWord (200 : BitVec 16) : BigInt native64) 200 ∧
      zchckToWord 8 true (sextdFromWord (200 : BitVec 16) : BigInt native64) = .error .overflow) ∧
    IsRep (sextdFromWord (-1 : BitVec 16) : BigInt native64) (-1) ∧
      zchckToWord 8 true (sextdFromWord (-1 : BitVec 16) : BigInt native64) = .ok 255 := by
  have hlarge : IsRep (sextdFromWord (200 : BitVec 16) : BigInt native64) 200 :=
    sextdFromWord_isRep (by decide) 200
  have hneg : IsRep (sextdFromWord (-1 : BitVec 16) : BigInt native64) (-1) :=
    sextdFromWord_isRep (by decide) (-1)
  exact ⟨⟨hlarge, (zchckToWord_eq (by decide) hlarge).trans (by decide)⟩,
    hneg, (zchckToWord_eq (by decide) hneg).trans (by decide)⟩

end BigInt

end MultiMLton.Basis
