import MultiMLton.Basis.IntInf

/-!
# What integers stand for

* `BigInt.toInt`: the integer of a word or a vector;
* `BigInt.Normal`: small integers are words, and vectors have no limbs to spare; an integer has one
  representation (`Normal.toInt_inj`);
* `fillIntInfArg_computes`, `finiIntInfRes_isRep`: GnuMP is given the integers and its results are
  normal again, if an object pointer is no wider than a limb.
-/

namespace MultiMLton.Basis

open MultiMLton.Lib.Limbs

variable {c : Config}

namespace BigInt

def toInt : BigInt c → ℤ
  | word w => (dropTag w).toInt
  | vector v => if isneg v then -magnitude v.tail else magnitude v.tail

/-- A vector has a sign, its last limb is not zero, and its integer is not small. -/
structure NormalVector (v : List (BitVec c.limb)) : Prop where
  head : ∃ sign limbs, v = sign :: limbs ∧ (sign = 0 ∨ sign = 1)
  trimmed : Trimmed v.tail
  large : ¬Fits c.objptr (toInt (vector v))

def Normal : BigInt c → Prop
  | word w => isTagged w = true
  | vector v => NormalVector v

/-- `x` is the representation of `i`. -/
structure IsRep (x : BigInt c) (i : ℤ) : Prop where
  normal : x.Normal
  toInt : x.toInt = i

theorem Normal.isRep {x : BigInt c} (h : x.Normal) : IsRep x x.toInt := ⟨h, rfl⟩

/-! ### Small and large integers -/

section Small

variable {x y : BigInt c}

@[simp] theorem isSmall_vector (v : List (BitVec c.limb)) : isSmall (vector v) = false := by
  simp [isSmall, Prim.toWord, isTagged]

theorem isSmall_word {w : BitVec c.objptr} (h : (word w).Normal) : isSmall (word w) = true := h

theorem areSmall_eq (x y : BigInt c) : areSmall x y = (isSmall x && isSmall y) :=
  isTagged_and c.two_le _ _

theorem one_ne_zero : (1 : BitVec c.limb) ≠ 0 := fun h =>
  c.limb_pos.ne' (BitVec.one_eq_zero_iff.1 h)

/-- The sign of a vector. -/
theorem isneg_cons (sign : BitVec c.limb) (limbs : List (BitVec c.limb)) :
    isneg (sign :: limbs) = decide (sign ≠ 0) := rfl

theorem natAbs_toInt_vector (v : List (BitVec c.limb)) :
    (toInt (vector v)).natAbs = magnitude v.tail := by
  rw [toInt]
  split_ifs <;> simp

theorem NormalVector.tail_ne_nil {v : List (BitVec c.limb)} (h : NormalVector v) : v.tail ≠ [] := by
  intro hnil
  refine h.large ?_
  have hzero : toInt (vector v) = 0 := by
    rw [← Int.natAbs_eq_zero, natAbs_toInt_vector, hnil, magnitude_nil]
  have hpos : (0 : ℤ) < 2 ^ (c.objptr - 2) := by positivity
  rw [hzero, Fits]
  omega

theorem fits_word (w : BitVec c.objptr) : Fits c.objptr (toInt (word w)) := fits_dropTag c.two_le w

theorem NormalVector.toInt_neg_iff {v : List (BitVec c.limb)} (h : NormalVector v) :
    toInt (vector v) < 0 ↔ isneg v = true := by
  have hpos := magnitude_pos c.limb_pos h.trimmed h.tail_ne_nil
  rw [toInt]
  split_ifs with hneg
  · simp only [hneg, iff_true]
    omega
  · exact ⟨fun hlt => by omega, fun htrue => absurd htrue hneg⟩

/-- An integer has one representation. -/
theorem Normal.toInt_inj (hx : x.Normal) (hy : y.Normal) (h : x.toInt = y.toInt) : x = y := by
  cases x with
  | word w =>
    cases y with
    | word w' =>
      have hdrop : dropTag w = dropTag w' := BitVec.eq_of_toInt_eq h
      rw [← addTag_dropTag c.two_le hx, ← addTag_dropTag c.two_le hy, hdrop]
    | vector v => exact (hy.large (h ▸ fits_word w)).elim
  | vector v =>
    cases y with
    | word w' => exact (hx.large (h ▸ fits_word w')).elim
    | vector v' =>
      have hsign : isneg v = isneg v' := by
        rw [Bool.eq_iff_iff, ← hx.toInt_neg_iff, ← hy.toInt_neg_iff, h]
      have htail : v.tail = v'.tail := by
        refine magnitude_inj c.limb_pos hx.trimmed hy.trimmed ?_
        rw [← natAbs_toInt_vector, ← natAbs_toInt_vector, h]
      obtain ⟨sign, limbs, rfl, hs⟩ := hx.head
      obtain ⟨sign', limbs', rfl, hs'⟩ := hy.head
      simp only [isneg_cons, decide_eq_decide] at hsign
      have hsame : sign = sign' := by
        rcases hs with rfl | rfl <;> rcases hs' with rfl | rfl
        · rfl
        · exact (hsign.2 one_ne_zero rfl).elim
        · exact (hsign.1 one_ne_zero rfl).elim
        · rfl
      rw [hsame, show limbs = limbs' from htail]

end Small

end BigInt

/-- GnuMP has computed `i`. -/
structure Mpz.Computes (m : Mpz c) (i : ℤ) : Prop where
  sound : m.Sound
  value : m.value = i

/-- The routines of GnuMP are exact. -/
structure GnuMP.Exact (g : GnuMP c) : Prop where
  mpz_add : ∀ a b, a.Sound → b.Sound → (g.mpz_add a b).Computes (a.value + b.value)
  mpz_and : ∀ a b, a.Sound → b.Sound → (g.mpz_and a b).Computes (a.value.land b.value)
  mpz_cmp : ∀ a b, a.Sound → b.Sound → (g.mpz_cmp a b).sign = (a.value - b.value).sign
  mpz_com : ∀ a, a.Sound → (g.mpz_com a).Computes (-a.value - 1)
  mpz_gcd : ∀ a b, a.Sound → b.Sound → (g.mpz_gcd a b).Computes (a.value.gcd b.value)
  mpz_ior : ∀ a b, a.Sound → b.Sound → (g.mpz_ior a b).Computes (a.value.lor b.value)
  mpz_mul : ∀ a b, a.Sound → b.Sound → (g.mpz_mul a b).Computes (a.value * b.value)
  mpz_neg : ∀ a, a.Sound → (g.mpz_neg a).Computes (-a.value)
  mpz_sub : ∀ a b, a.Sound → b.Sound → (g.mpz_sub a b).Computes (a.value - b.value)
  mpz_tdiv_q : ∀ a b, a.Sound → b.Sound → b.value ≠ 0 →
    (g.mpz_tdiv_q a b).Computes (a.value.tdiv b.value)
  mpz_tdiv_r : ∀ a b, a.Sound → b.Sound → b.value ≠ 0 →
    (g.mpz_tdiv_r a b).Computes (a.value.tmod b.value)
  mpz_xor : ∀ a b, a.Sound → b.Sound → (g.mpz_xor a b).Computes (a.value.xor b.value)

namespace BigInt

section Fill

variable {x : BigInt c}

theorem fillIntInfArg_vector {v : List (BitVec c.limb)} (h : NormalVector v) :
    (fillIntInfArg (vector v)).Computes (toInt (vector v)) := by
  obtain ⟨sign, limbs, rfl, -⟩ := h.head
  have htrim : Trimmed limbs := h.trimmed
  have hne : limbs ≠ [] := h.tail_ne_nil
  have hlen : 0 < limbs.length := List.length_pos_iff.2 hne
  cases hneg : isneg (sign :: limbs) <;>
    refine ⟨⟨?_, ?_⟩, ?_⟩ <;>
    simp [fillIntInfArg, Mpz.limbs, Mpz.value, toInt, hneg, htrim, hne]

/-- A small integer becomes one limb with a sign. -/
theorem fillIntInfArg_word (hwide : c.objptr ≤ c.limb) {w : BitVec c.objptr}
    (h : isTagged w = true) : (fillIntInfArg (word w)).Computes (toInt (word w)) := by
  have hone : c.limbsPerObjptr = 1 := if_pos hwide
  have htag := (isTagged_iff c.two_le w).1 h
  by_cases hw : w = 1
  · have htoInt : toInt (word w) = 0 := by
      rw [toInt, dropTag_toInt, hw, BitVec.ofNat_eq_ofNat, one_toInt c.two_le]
      rfl
    rw [htoInt, BigInt.fillIntInfArg, if_pos hw]
    exact ⟨⟨le_rfl, fun l hl => by cases hl⟩, rfl⟩
  · -- the magnitude is the only limb
    have hbit : (w &&& 1#c.objptr <<< (c.objptr - 1) ≠ 0) ↔ w.msb = true := by
      rw [← BitVec.twoPow_eq, BitVec.and_twoPow, BitVec.msb_eq_getLsbD_last]
      have hpow : BitVec.twoPow c.objptr (c.objptr - 1) ≠ 0 := fun hzero => by
        have hget := congrArg (·.getLsbD (c.objptr - 1)) hzero
        have := c.two_le
        simp [BitVec.getLsbD_twoPow] at hget
        omega
      split_ifs with hlast
      · exact iff_of_true hpow hlast
      · exact iff_of_false (fun hzero => hzero rfl) hlast
    have harg : (if w.msb then -(w >>> 1 ||| 1#c.objptr <<< (c.objptr - 1)) else w >>> 1) =
        if (dropTag w).msb then -dropTag w else dropTag w := by
      rw [msb_dropTag]
      cases hmsb : w.msb with
      | false => simp [dropTag_of_msb_false hmsb]
      | true => simp [dropTag_of_msb_true c.two_le hmsb]
    have hmag := toNat_magnitude c.two_le (fits_dropTag c.two_le w)
    have hne : (dropTag w).toInt ≠ 0 := fun hzero => hw <| by
      rw [← addTag_dropTag c.two_le h, addTag_eq, hzero]
      rfl
    rw [BigInt.fillIntInfArg, if_neg hw]
    simp only [hbit, Bool.decide_eq_true, hone, List.range_one, List.map_cons, List.map_nil,
      Nat.zero_mul, BitVec.ushiftRight_zero, harg]
    generalize (if (dropTag w).msb then -dropTag w else dropTag w) = arg at hmag
    have hlimb : (arg.setWidth c.limb).toNat = (dropTag w).toInt.natAbs := by
      rw [BitVec.toNat_setWidth_of_le hwide, hmag]
    have hsign : w.msb = true ↔ (dropTag w).toInt < 0 := by
      rw [← msb_dropTag, BitVec.msb_eq_toInt, decide_eq_true_iff]
    have htrim : Trimmed [arg.setWidth c.limb] := fun l hl hzero => by
      rw [List.getLast?_singleton, Option.mem_some_iff] at hl
      rw [hl, hzero] at hlimb
      exact hne (Int.natAbs_eq_zero.1 (by simpa using hlimb.symm))
    cases hmsb : w.msb with
    | false =>
      refine ⟨⟨by simp, by simpa [Mpz.limbs] using htrim⟩, ?_⟩
      rw [hmsb] at hsign
      simp [Mpz.value, Mpz.limbs, hlimb, toInt] at hsign ⊢
      omega
    | true =>
      refine ⟨⟨by simp, by simpa [Mpz.limbs] using htrim⟩, ?_⟩
      rw [hmsb] at hsign
      simp [Mpz.value, Mpz.limbs, hlimb, toInt] at hsign ⊢
      rw [abs_of_neg hsign, neg_neg]

theorem Normal.fillIntInfArg (hwide : c.objptr ≤ c.limb) (h : x.Normal) :
    (BigInt.fillIntInfArg x).Computes x.toInt := by
  cases x with
  | word w => exact fillIntInfArg_word hwide h
  | vector v => exact fillIntInfArg_vector h

end Fill

section Fini

theorem setWidth_ofInt {n : ℕ} (hn : n ≤ 64) (i : ℤ) :
    (BitVec.ofInt 64 i).setWidth n = .ofInt n i := by
  apply BitVec.eq_of_toNat_eq
  have hdvd : (2 ^ n : ℤ) ∣ 2 ^ 64 := pow_dvd_pow 2 hn
  zify
  simp only [BitVec.toNat_setWidth, BitVec.toNat_ofInt]
  push_cast
  rw [Int.toNat_of_nonneg (Int.emod_nonneg _ (by positivity)),
    Int.toNat_of_nonneg (Int.emod_nonneg _ (by positivity))]
  exact Int.emod_emod_of_dvd i hdvd

theorem setWidth_addTag {n : ℕ} (hn : n ≤ 64) (v : BitVec 64) :
    (v <<< 1 ||| 1).setWidth n = addTag (v.setWidth n) := by
  ext k hk
  simp only [addTag, BitVec.ofNat_eq_ofNat, BitVec.getElem_setWidth, BitVec.getLsbD_or,
    BitVec.getLsbD_shiftLeft, BitVec.getLsbD_one, BitVec.getElem_or, BitVec.getElem_shiftLeft,
    BitVec.getElem_one]
  have hlt : k < 64 := hk.trans_le hn
  cases k <;> simp [hlt]

theorem objptr_le : c.objptr ≤ 64 := by
  rcases c.objptr_eq with h | h <;> omega

theorem limb_le : c.limb ≤ 64 := by
  rcases c.limb_eq with h | h <;> omega

/-- The word that a small integer becomes. -/
theorem addTag_isRep {i : ℤ} (hfits : Fits c.objptr i) :
    IsRep (word (addTag (BitVec.ofInt c.objptr i))) i := by
  have hpos : (0 : ℤ) < 2 ^ (c.objptr - 2) := by positivity
  have htoInt : (BitVec.ofInt c.objptr i).toInt = i := by
    obtain ⟨hlo, hhi⟩ := hfits
    exact toInt_ofInt_of_range c.two_le (by omega) (by omega)
  refine ⟨isTagged_addTag c.two_le _, ?_⟩
  rw [toInt, dropTag_addTag c.two_le (by rwa [htoInt]), htoInt]

/-- The word that a small result becomes. -/
theorem word_of_val {i : ℤ} (hfits : Fits c.objptr i) :
    IsRep (word ((BitVec.ofInt 64 i <<< 1 ||| 1).setWidth c.objptr)) i := by
  rw [setWidth_addTag objptr_le, setWidth_ofInt objptr_le]
  exact addTag_isRep hfits

/-- The vector that a large result becomes. -/
theorem vector_of_limbs {m : Mpz c} {i : ℤ} (h : m.Computes i) (hlarge : ¬Fits c.objptr i) :
    IsRep (vector ((if decide (m.size < 0) then 1 else 0) :: m.d.take m.size.natAbs)) i := by
  have htoInt : toInt (vector ((if decide (m.size < 0) then 1 else 0) ::
      m.d.take m.size.natAbs)) = i := by
    rw [← h.value, toInt, Mpz.value, isneg_cons, List.tail_cons]
    by_cases hneg : m.size < 0
    · simp only [hneg, decide_true, if_true, ne_eq, one_ne_zero, not_false_eq_true]
      rfl
    · simp only [hneg, decide_false, Bool.false_eq_true, if_false, ne_eq, not_true_eq_false]
      rfl
  exact ⟨⟨⟨_, _, rfl, by split_ifs <;> simp⟩, h.sound.trimmed, htoInt ▸ hlarge⟩, htoInt⟩

theorem natAbs_of_computes {m : Mpz c} {i : ℤ} (h : m.Computes i) :
    i.natAbs = magnitude m.limbs := by
  rw [← h.value, Mpz.value]
  split_ifs <;> simp

/-- What GnuMP has computed in one limb is small if and only if it fits. -/
theorem finiIntInfRes_one {m : Mpz c} {i : ℤ} (h : m.Computes i) (hsize : m.size.natAbs = 1) :
    IsRep (finiIntInfRes m) i := by
  obtain ⟨l, ls, hd⟩ : ∃ l ls, m.d = l :: ls :=
    List.exists_cons_of_length_pos (by have := h.sound.size_le; omega)
  have hlimbs : m.limbs = [l] := by rw [Mpz.limbs, hd, hsize, List.take_one]; rfl
  have hl : l ≠ 0 := h.sound.trimmed l (by rw [hlimbs]; rfl)
  have hlpos : 0 < l.toNat := Nat.pos_of_ne_zero fun hzero =>
    hl (BitVec.eq_of_toNat_eq (by simpa using hzero))
  have hllt : l.toNat < 2 ^ 64 := l.isLt.trans_le (Nat.pow_le_pow_right two_pos limb_le)
  have hval : (l.setWidth 64).toNat = l.toNat := BitVec.toNat_setWidth_of_le limb_le
  have hbound : (1#64 <<< (c.objptr - 2)).toNat = 2 ^ (c.objptr - 2) := by
    have hle := objptr_le (c := c)
    have htwo := c.two_le
    rw [← BitVec.twoPow_eq, BitVec.toNat_twoPow_of_lt (by omega)]
  have hcast : ((2 ^ (c.objptr - 2) : ℕ) : ℤ) = 2 ^ (c.objptr - 2) := by push_cast; rfl
  have hi := h.value
  rw [Mpz.value, hlimbs, magnitude_singleton] at hi
  have hbig := fun hlarge => vector_of_limbs h hlarge
  rw [finiIntInfRes]
  simp only [hd, List.headD_cons, hsize, le_refl, if_true, Nat.one_ne_zero, if_false] at hbig ⊢
  by_cases hneg : m.size < 0
  · rw [if_pos hneg] at hi
    have hpred : (l.setWidth 64 - 1).toNat = l.toNat - 1 := by
      rw [BitVec.toNat_sub_of_le (by rw [BitVec.le_def, hval]; exact hlpos), hval]
      rfl
    have hans : -(l.setWidth 64) = BitVec.ofInt 64 i := by
      rw [← hi, BitVec.ofInt_neg, BitVec.ofInt_natCast, ← hval, BitVec.ofNat_toNat,
        BitVec.setWidth_eq]
    simp only [hneg, decide_true, if_true, hans] at hbig ⊢
    split_ifs with hult
    · rw [BitVec.ult_iff_lt, BitVec.lt_def, hpred, hbound] at hult
      exact word_of_val ⟨by omega, by omega⟩
    · rw [BitVec.ult_iff_lt, BitVec.lt_def, hpred, hbound] at hult
      exact hbig fun hfits => by
        obtain ⟨hlo, -⟩ := hfits
        omega
  · rw [if_neg hneg] at hi
    have hans : l.setWidth 64 = BitVec.ofInt 64 i := by
      rw [← hi, BitVec.ofInt_natCast, ← hval, BitVec.ofNat_toNat, BitVec.setWidth_eq]
    simp only [hneg, decide_false, Bool.false_eq_true, if_false] at hbig ⊢
    split_ifs with hult
    · rw [BitVec.ult_iff_lt, BitVec.lt_def, hval, hbound] at hult
      rw [hans]
      exact word_of_val ⟨by omega, by omega⟩
    · rw [BitVec.ult_iff_lt, BitVec.lt_def, hval, hbound] at hult
      exact hbig fun hfits => by
        obtain ⟨-, hhi⟩ := hfits
        omega

/-- What GnuMP has computed is returned in its representation. -/
theorem finiIntInfRes_isRep (hwide : c.objptr ≤ c.limb) {m : Mpz c} {i : ℤ} (h : m.Computes i) :
    IsRep (finiIntInfRes m) i := by
  rcases Nat.lt_trichotomy m.size.natAbs 1 with hsize | hsize | hsize
  · have hzero : m.size = 0 := by omega
    have hi : i = 0 := by rw [← h.value, Mpz.value, hzero, Mpz.limbs, hzero]; rfl
    subst hi
    have hpos : (0#64).ult (1#64 <<< (c.objptr - 2)) = true := by
      rcases c.objptr_eq with h | h <;> rw [h] <;> decide
    have hrep := word_of_val (c := c) (i := 0) ⟨by simp, by positivity⟩
    rw [finiIntInfRes]
    simpa [hzero, hpos] using hrep
  · exact finiIntInfRes_one h hsize
  · -- two limbs are more than a word
    have hlen : m.limbs.length = m.size.natAbs := by
      rw [Mpz.limbs, List.length_take, min_eq_left h.sound.size_le]
    have hle : 2 ^ c.objptr ≤ i.natAbs := by
      have hpow := pow_le_magnitude c.limb_pos h.sound.trimmed
        (List.ne_nil_of_length_pos (by omega))
      rw [hlen, ← pow_mul] at hpow
      rw [natAbs_of_computes h]
      exact (Nat.pow_le_pow_right two_pos
        (hwide.trans (Nat.le_mul_of_pos_right _ (by omega)))).trans hpow
    have hpow := (two_pow_eq c.two_le).1
    have hcast : ((2 ^ c.objptr : ℕ) : ℤ) = 2 ^ c.objptr := by push_cast; rfl
    have hpos : (0 : ℤ) < 2 ^ (c.objptr - 2) := by positivity
    have hrep := vector_of_limbs h fun hfits => by
      obtain ⟨hlo, hhi⟩ := hfits
      omega
    rw [finiIntInfRes]
    simpa only [not_le.2 hsize, if_false] using hrep

end Fini

end BigInt

end MultiMLton.Basis
