import MultiMLton.Basis.IntInfOps

/-!
# Division is exact

`quot` and `rem` round to zero, `div` and `mod` down; each is undefined if the divisor is zero.
-/

namespace MultiMLton.Basis

open MultiMLton.Lib MultiMLton.Lib.Limbs

variable {c : Config}

namespace BigInt

/-! ### Small quotients -/

theorem fits_tdiv {n : ℕ} {i j : ℤ} (h : Fits n i) (hbad : ¬(i = -2 ^ (n - 2) ∧ j = -1)) :
    Fits n (i.tdiv j) := by
  obtain ⟨hlo, hhi⟩ := h
  have hpos : (0 : ℤ) < 2 ^ (n - 2) := by positivity
  rcases Nat.lt_or_ge j.natAbs 2 with hj | hj
  · obtain rfl | rfl | rfl : j = 0 ∨ j = 1 ∨ j = -1 := by omega
    · rw [Int.tdiv_zero]
      exact ⟨by omega, hpos⟩
    · rw [Int.tdiv_one]
      exact ⟨hlo, hhi⟩
    · have hne : i ≠ -2 ^ (n - 2) := fun h => hbad ⟨h, rfl⟩
      rw [Int.tdiv_neg, Int.tdiv_one]
      exact ⟨by omega, by omega⟩
  · -- the magnitude is halved at least
    have hle : (i.tdiv j).natAbs ≤ i.natAbs / 2 := by
      rw [Int.natAbs_tdiv]
      exact Nat.div_le_div_left hj two_pos
    exact ⟨by omega, by omega⟩

theorem fits_tmod {n : ℕ} {i : ℤ} (j : ℤ) (h : Fits n i) : Fits n (i.tmod j) := by
  obtain ⟨hlo, hhi⟩ := h
  have hpos : (0 : ℤ) < 2 ^ (n - 2) := by positivity
  have hle : (i.tmod j).natAbs ≤ i.natAbs := by
    rw [Int.natAbs_tmod]
    exact Nat.mod_le _ _
  rcases le_total 0 i with hi | hi
  · have hsign := Int.tmod_nonneg j hi
    exact ⟨by omega, by omega⟩
  · have hsign := Int.tmod_nonneg j (neg_nonneg.2 hi)
    rw [Int.neg_tmod] at hsign
    exact ⟨by omega, by omega⟩

section

variable (hwide : c.objptr ≤ c.limb) {x y : BigInt c} (hx : x.Normal) (hy : y.Normal)

theorem numLimbs_word {w : BitVec c.objptr} (h : (word w).Normal) : numLimbs (word w) = 1 :=
  if_pos h

theorem numLimbs_vector (v : List (BitVec c.limb)) : numLimbs (vector v) = v.tail.length := by
  simp [numLimbs, Prim.toVector]

include hwide hx in
/-- The limbs of an integer are enough for it. -/
theorem natAbs_lt_pow : x.toInt.natAbs < (2 ^ c.limb) ^ numLimbs x := by
  cases x with
  | word w =>
    obtain ⟨hlo, hhi⟩ := fits_word w
    have hpow := (two_pow_nat c.two_le).1
    have hle : 2 ^ c.objptr ≤ 2 ^ c.limb := Nat.pow_le_pow_right two_pos hwide
    have hcast : ((2 ^ (c.objptr - 2) : ℕ) : ℤ) = 2 ^ (c.objptr - 2) := by push_cast; rfl
    have hpos : 0 < 2 ^ (c.objptr - 2) := by positivity
    rw [numLimbs_word hx, pow_one]
    omega
  | vector v =>
    rw [natAbs_toInt_vector, numLimbs_vector]
    exact magnitude_lt c.limb_pos v.tail

include hwide hx hy in
/-- An integer with fewer limbs is smaller. -/
theorem natAbs_lt_of_numLimbs_lt (h : numLimbs x < numLimbs y) :
    x.toInt.natAbs < y.toInt.natAbs := by
  have hlt := natAbs_lt_pow hwide hx
  cases y with
  | word w' =>
    rw [numLimbs_word hy] at h
    cases x with
    | word w => rw [numLimbs_word hx] at h; omega
    | vector v =>
      rw [numLimbs_vector] at h
      exact absurd (List.length_eq_zero_iff.1 (by omega)) hx.tail_ne_nil
  | vector v' =>
    rw [numLimbs_vector] at h
    rw [natAbs_toInt_vector v']
    have hle := pow_le_magnitude c.limb_pos hy.trimmed hy.tail_ne_nil
    exact hlt.trans_le ((Nat.pow_le_pow_right (by positivity) (by omega)).trans hle)

end

section

variable {g : GnuMP c} (hg : g.Exact) (hwide : c.objptr ≤ c.limb) {x y : BigInt c}
  (hx : x.Normal) (hy : y.Normal)

theorem ne_minInt' {x : BigInt c} (h : isSmall x = true) : dropTagCoerce x ≠ I.minInt' := fun hmin => by
  obtain ⟨hlo, -⟩ := fits_of_isSmall h
  have hpos : (0 : ℤ) < 2 ^ (c.objptr - 2) := by positivity
  have hpow := (two_pow_eq c.two_le).2
  rw [← dropTagCoerce_toInt h, hmin, I.minInt',
    BitVec.toInt_intMin_of_pos (by have := c.two_le; omega)] at hlo
  omega

theorem neg_one_toInt : (-1 : BitVec c.objptr).toInt = -1 := by
  rw [← BitVec.ofInt_toInt (x := (1 : BitVec c.objptr)), ← BitVec.ofInt_neg, BitVec.ofNat_eq_ofNat,
    one_toInt c.two_le]
  exact toInt_ofInt_of_range c.two_le (by
    have hpos : (0 : ℤ) < 2 ^ (c.objptr - 2) := by positivity
    omega) (by
    have hpos : (0 : ℤ) < 2 ^ (c.objptr - 2) := by positivity
    omega)

theorem dropTagCoerce_eq_zero_iff {y : BigInt c} (h : isSmall y = true) :
    dropTagCoerce y = 0 ↔ y.toInt = 0 := by
  rw [← BitVec.toInt_inj, dropTagCoerce_toInt h, BitVec.ofNat_eq_ofNat, BitVec.toInt_zero]

/-- Quotients and remainders are there if the divisor is not zero. -/
def partialOp (op : ℤ → ℤ → ℤ) (i j : ℤ) : Except Exn ℤ := if j = 0 then .error .div else .ok (op i j)

include hg hwide hy

theorem equal_zero_iff : Prim.equal g y zero = true ↔ y.toInt = 0 := by
  rw [equal_iff hg hwide hy zero_isRep.normal, zero_isRep.toInt]

include hx

/-- `bigQuot` and `bigRem` of integers that are not both small. -/
theorem large_returns {op : ℤ → ℤ → ℤ} {f : Mpz c → Mpz c → Mpz c} {z : BigInt c}
    (hz : x.toInt.tdiv y.toInt = 0 → IsRep z (op x.toInt y.toInt))
    (hf : ∀ a b, a.Sound → b.Sound → b.value ≠ 0 → (f a b).Computes (op a.value b.value)) :
    Returns (if numLimbs x < numLimbs y then .ok z
      else if Prim.equal g y zero then .error .div else .ok (binary f x y))
      (partialOp op x.toInt y.toInt) := by
  have hzero := equal_zero_iff hg hwide hy
  split_ifs with hlt hden
  · have hlt := natAbs_lt_of_numLimbs_lt hwide hx hy hlt
    rw [partialOp, if_neg (by omega)]
    refine hz ?_
    rw [← Int.natAbs_eq_zero, Int.natAbs_tdiv]
    exact Nat.div_eq_of_lt hlt
  · rw [partialOp, if_pos (hzero.1 hden)]
    rfl
  · rw [hzero] at hden
    rw [partialOp, if_neg hden]
    refine binary_isRep hwide hx hy fun a b ha hb => ?_
    rw [← ha.value, ← hb.value]
    exact hf a b ha.sound hb.sound (hb.value ▸ hden)

theorem bigQuot_returns : Returns (bigQuot g x y) (partialOp Int.tdiv x.toInt y.toInt) := by
  rw [bigQuot, areSmall_eq]
  by_cases hareSmall : (isSmall x && isSmall y) = true
  · have hand := Bool.and_eq_true_iff.1 hareSmall
    have hnum := dropTagCoerce_toInt hand.1
    have hden := dropTagCoerce_toInt hand.2
    have hmin : dropTagCoerce x ≠ I.minInt' := ne_minInt' hand.1
    have hbad : dropTagCoerce x = badObjptrInt ∧ dropTagCoerce y = -1 ↔
        x.toInt = -2 ^ (c.objptr - 2) ∧ y.toInt = -1 := by
      rw [← BitVec.toInt_inj, ← BitVec.toInt_inj, badObjptrInt_toInt, neg_one_toInt, hnum, hden]
    rw [if_pos hareSmall]
    dsimp only
    by_cases hneg : dropTagCoerce x = badObjptrInt ∧ dropTagCoerce y = -1
    · rw [if_pos hneg]
      obtain ⟨hxbad, hyneg⟩ := hbad.1 hneg
      have hrep : IsRep (negBadIntInf : BigInt c) _ := negBadIntInf_isRep
      rw [partialOp, hyneg, if_neg (by omega), hxbad]
      rwa [← neg_neg ((2 : ℤ) ^ (c.objptr - 2)), ← Int.tdiv_one (-2 ^ (c.objptr - 2)),
        ← Int.tdiv_neg] at hrep
    · rw [if_neg hneg, I.quot, partialOp]
      simp only [dropTagCoerce_eq_zero_iff hand.2]
      split_ifs with hyzero hover
      · rfl
      · exact absurd hover.1 hmin
      · refine addTagCoerce_isRep (fits_tdiv (fits_of_isSmall hand.1) (mt hbad.2 hneg)) ?_
        rw [BitVec.toInt_sdiv_of_ne_or_ne _ _ (.inl hmin), hnum, hden]
  · rw [if_neg hareSmall]
    exact large_returns hg hwide hx hy (fun htdiv => htdiv ▸ zero_isRep) hg.mpz_tdiv_q

theorem bigRem_returns : Returns (bigRem g x y) (partialOp Int.tmod x.toInt y.toInt) := by
  rw [bigRem, areSmall_eq]
  by_cases hareSmall : (isSmall x && isSmall y) = true
  · have hand := Bool.and_eq_true_iff.1 hareSmall
    rw [if_pos hareSmall, I.rem, partialOp]
    simp only [dropTagCoerce_eq_zero_iff hand.2]
    split_ifs with hyzero hover
    · rfl
    · exact absurd hover.1 (ne_minInt' hand.1)
    · refine addTagCoerce_isRep (fits_tmod _ (fits_of_isSmall hand.1)) ?_
      rw [BitVec.toInt_srem, dropTagCoerce_toInt hand.1, dropTagCoerce_toInt hand.2]
  · rw [if_neg hareSmall]
    refine large_returns hg hwide hx hy (fun htdiv => ?_) hg.mpz_tdiv_r
    rw [Int.tmod_def, htdiv, mul_zero, sub_zero]
    exact hx.isRep

end

/-! ### Rounding down -/

theorem Returns.map {r : Except Exn (BigInt c)} {e : Except Exn ℤ} (h : Returns r e)
    {f : BigInt c → BigInt c} (f' : ℤ → ℤ) (hf : ∀ x i, IsRep x i → IsRep (f x) (f' i)) :
    Returns (r.map f) (e.map f') := by
  cases r <;> cases e
  · exact h
  · exact h
  · exact h
  · exact hf _ _ h

section

variable {g : GnuMP c} (hg : g.Exact) (hwide : c.objptr ≤ c.limb) {x y : BigInt c}
  (hx : x.Normal) (hy : y.Normal)

include hg hwide hx hy

/-- `bigDiv` and `bigMod`, by a division `r` that rounds to zero and what is added to its results. -/
theorem floor_returns {op : ℤ → ℤ → ℤ} {r : BigInt c → Except Exn (BigInt c)}
    (hr : ∀ z : BigInt c, z.Normal → Returns (r z) (partialOp op z.toInt y.toInt))
    {f f' : BigInt c → BigInt c} {k k' : ℤ} (hf : ∀ z i, IsRep z i → IsRep (f z) (i + k))
    (hf' : ∀ z i, IsRep z i → IsRep (f' z) (i + k')) :
    Returns (if bigGE g x zero then
        if bigGT g y zero then r x
        else if bigLT g y zero then
          if Prim.equal g x zero then .ok zero else (r (bigSub g x one)).map f
        else .error .div
      else if bigLT g y zero then r x
      else if bigGT g y zero then (r (bigAdd g x one)).map f'
      else .error .div)
      (if y.toInt = 0 then .error .div else .ok (if 0 ≤ x.toInt then
          if 0 < y.toInt then op x.toInt y.toInt
          else if x.toInt = 0 then 0 else op (x.toInt - 1) y.toInt + k
        else if y.toInt < 0 then op x.toInt y.toInt else op (x.toInt + 1) y.toInt + k')) := by
  have hop {z : BigInt c} {i : ℤ} (hz : IsRep z i) (hj : y.toInt ≠ 0) :
      Returns (r z) (.ok (op i y.toInt)) := by
    have h := hr z hz.normal
    rwa [hz.toInt, partialOp, if_neg hj] at h
  have hpred := bigSub_isRep hwide hg hx one_isRep.normal
  have hsucc := bigAdd_isRep hwide hg hx one_isRep.normal
  rw [one_isRep.toInt] at hpred hsucc
  rw [bigGE_eq hg hwide hx zero_isRep.normal, bigGT_eq hg hwide hy zero_isRep.normal,
    bigLT_eq hg hwide hy zero_isRep.normal, zero_isRep.toInt]
  simp only [decide_eq_true_eq, ge_iff_le, gt_iff_lt, equal_zero_iff hg hwide hx]
  rcases lt_trichotomy y.toInt 0 with hj | hj | hj
  · simp only [hj, hj.ne, not_lt.2 hj.le, if_true, if_false]
    split_ifs with hi hzero
    · exact zero_isRep
    · exact (hop hpred hj.ne).map (· + k) hf
    · exact hop hx.isRep hj.ne
  · simp only [hj, lt_irrefl, if_true, if_false, ite_self]
    rfl
  · simp only [hj, hj.ne', not_lt.2 hj.le, if_true, if_false]
    split_ifs with hi
    · exact hop hx.isRep hj.ne'
    · exact (hop hsucc hj.ne').map (· + k') hf'

theorem bigDiv_returns : Returns (bigDiv g x y) (partialOp Int.fdiv x.toInt y.toInt) := by
  have hpred (z : BigInt c) (i : ℤ) (hz : IsRep z i) : IsRep (bigSub g z one) (i + -1) := by
    have h := bigSub_isRep hwide hg hz.normal one_isRep.normal
    rwa [hz.toInt, one_isRep.toInt] at h
  have h := floor_returns hg hwide hx hy (fun z hz => bigQuot_returns hg hwide hz hy) hpred hpred
  rw [partialOp]
  split_ifs with hj
  · rwa [if_pos hj] at h
  · simp only [if_neg hj, ← sub_eq_add_neg] at h
    rwa [← (fdiv_fmod_eq x.toInt hj).1] at h

theorem bigMod_returns : Returns (bigMod g x y) (partialOp Int.fmod x.toInt y.toInt) := by
  have hadd {w : BigInt c} {j : ℤ} (hw : IsRep w j) (z : BigInt c) (i : ℤ) (hz : IsRep z i) :
      IsRep (bigAdd g z w) (i + j) := by
    have h := bigAdd_isRep hwide hg hz.normal hw.normal
    rwa [hz.toInt, hw.toInt] at h
  have hsub := bigSub_isRep hwide hg hy one_isRep.normal
  rw [one_isRep.toInt] at hsub
  have h := floor_returns hg hwide hx hy (fun z hz => bigRem_returns hg hwide hz hy)
    (hadd (hadd hy.isRep one 1 one_isRep)) (hadd hsub)
  rw [partialOp]
  split_ifs with hj
  · rwa [if_pos hj] at h
  · rwa [if_neg hj, ← (fdiv_fmod_eq x.toInt hj).2] at h

end

end BigInt

end MultiMLton.Basis
