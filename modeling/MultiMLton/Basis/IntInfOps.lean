import MultiMLton.Basis.IntInfLoops
import MultiMLton.Basis.IntInfRep

/-!
# The operations are exact

One theorem for each operation of `Basis.IntInf`: with exact routines of GnuMP and object pointers
no wider than limbs, it returns the representation of the exact result.
-/

namespace MultiMLton.Basis

open MultiMLton.Lib MultiMLton.Lib.Limbs

variable {c : Config}

namespace BigInt

/-- A result of an operation and the exact result. -/
def Returns : Except Exn (BigInt c) → Except Exn ℤ → Prop
  | .ok x, .ok i => IsRep x i
  | .error e, .error e' => e = e'
  | _, _ => False

/-! ### Small arguments -/

section Small

variable {x y : BigInt c}

theorem eq_word_of_isSmall (h : isSmall x = true) : ∃ w, x = word w := by
  cases x with
  | word w => exact ⟨w, rfl⟩
  | vector v => simp at h

theorem dropTagCoerce_toInt (h : isSmall x = true) : (dropTagCoerce x).toInt = x.toInt := by
  obtain ⟨w, rfl⟩ := eq_word_of_isSmall h
  rfl

theorem fits_of_isSmall (h : isSmall x = true) : Fits c.objptr x.toInt := by
  obtain ⟨w, rfl⟩ := eq_word_of_isSmall h
  exact fits_word w

theorem not_fits_of_not_isSmall (hx : x.Normal) (h : isSmall x = false) :
    ¬Fits c.objptr x.toInt := by
  cases x with
  | word w => exact absurd (isSmall_word hx) (by simp [h])
  | vector v => exact hx.large

theorem toWord_toInt (hx : x.Normal) (h : isSmall x = true) :
    (Prim.toWord x).toInt = 2 * x.toInt + 1 := by
  obtain ⟨w, rfl⟩ := eq_word_of_isSmall h
  have htag := addTag_toInt c.two_le (fits_word w)
  rwa [addTag_dropTag c.two_le hx] at htag

/-- A small result. -/
theorem word_isRep {w : BitVec c.objptr} {i : ℤ} (hfits : Fits c.objptr i)
    (hw : w = .ofInt c.objptr (2 * i + 1)) : IsRep (word w) i := by
  have hrep := addTag_isRep hfits
  have htoInt : (BitVec.ofInt c.objptr i).toInt = i := by
    obtain ⟨hlo, hhi⟩ := hfits
    have hpos : (0 : ℤ) < 2 ^ (c.objptr - 2) := by positivity
    exact toInt_ofInt_of_range c.two_le (by omega) (by omega)
  rwa [addTag_eq, htoInt, ← hw] at hrep

theorem addTagCoerce_isRep {w : BitVec c.objptr} {i : ℤ} (hfits : Fits c.objptr i)
    (hw : w.toInt = i) : IsRep (addTagCoerce w) i :=
  word_isRep hfits (by rw [addTag_eq, hw])

theorem zero_isRep : IsRep (zero : BigInt c) 0 :=
  word_isRep ⟨by simp, by positivity⟩ (by simp)

theorem one_isRep : IsRep (one : BigInt c) 1 := by
  have hlt : 2 < c.objptr := by rcases c.objptr_eq with h | h <;> omega
  have htwo : (2 : ℤ) ≤ 2 ^ (c.objptr - 2) :=
    (pow_one (2 : ℤ)).symm.le.trans (pow_le_pow_right₀ one_le_two (by omega))
  exact word_isRep ⟨by omega, by omega⟩ (by rfl)

theorem badObjptrInt_toInt : (badObjptrInt : BitVec c.objptr).toInt = -2 ^ (c.objptr - 2) := by
  have hpow := two_pow_eq c.two_le
  have hmin : (I.minInt' : BitVec c.objptr).toInt = -2 ^ (c.objptr - 1) := by
    rw [I.minInt', BitVec.toInt_intMin_of_pos (by have := c.two_le; omega)]
  have hdrop := dropTag_toInt (I.minInt' : BitVec c.objptr)
  rw [hmin] at hdrop
  rw [show (badObjptrInt : BitVec c.objptr) = dropTag I.minInt' from rfl, hdrop]
  omega

end Small

theorem toWord_eq_bad_iff {x : BigInt c} (hx : x.Normal) (h : isSmall x = true) :
    Prim.toWord x = addTag badObjptrInt ↔ x.toInt = -2 ^ (c.objptr - 2) := by
  have hbad : (addTag (badObjptrInt : BitVec c.objptr)).toInt = 2 * -2 ^ (c.objptr - 2) + 1 := by
    rw [← badObjptrInt_toInt]
    exact addTag_toInt c.two_le (badObjptrInt_toInt ▸ ⟨le_rfl, by
      have hpos : (0 : ℤ) < 2 ^ (c.objptr - 2) := by positivity
      omega⟩)
  rw [← BitVec.toInt_inj, hbad, toWord_toInt hx h]
  omega

/-! ### The limbs of a word -/

theorem magnitude_limbsOf {n : ℕ} (w : BitVec n) :
    magnitude (limbsOf w : List (BitVec c.limb)) = w.toNat := by
  induction w using limbsOf.induct (c := c) with
  | case1 => rw [limbsOf]; simp
  | case2 w hw ih =>
    rw [limbsOf, if_neg hw, magnitude_cons, ih, BitVec.toNat_setWidth, BitVec.toNat_ushiftRight,
      Nat.shiftRight_eq_div_pow]
    exact Nat.mod_add_div _ _

theorem trimmed_limbsOf {n : ℕ} (w : BitVec n) :
    Trimmed (limbsOf w : List (BitVec c.limb)) := by
  induction w using limbsOf.induct (c := c) with
  | case1 => rw [limbsOf]; simp [Trimmed]
  | case2 w hw ih =>
    have hmag := magnitude_limbsOf (c := c) w
    rw [limbsOf, if_neg hw] at hmag ⊢
    intro l hl hzero
    cases hrest : (limbsOf (w >>> c.limb) : List (BitVec c.limb)) with
    | nil =>
      -- the word is its last limb
      rw [hrest] at hl hmag
      rw [List.getLast?_singleton, Option.mem_some_iff] at hl
      rw [hl, hzero] at hmag
      exact hw (BitVec.eq_of_toNat_eq (by simpa using hmag.symm))
    | cons l' ls =>
      rw [hrest] at hl ih
      rw [List.getLast?_cons_cons] at hl
      exact ih l hl hzero

/-- The negation of the least small integer. -/
theorem negBadIntInf_isRep : IsRep (negBadIntInf : BigInt c) (2 ^ (c.objptr - 2)) := by
  have hpos : (0 : ℤ) < 2 ^ (c.objptr - 2) := by positivity
  have hneg : -(badObjptrInt : BitVec c.objptr) = .ofInt _ (2 ^ (c.objptr - 2)) := by
    rw [← BitVec.ofInt_toInt (x := (badObjptrInt : BitVec c.objptr)), ← BitVec.ofInt_neg,
      badObjptrInt_toInt, neg_neg]
  have htoInt : (-(badObjptrInt : BitVec c.objptr)).toInt = 2 ^ (c.objptr - 2) := by
    rw [hneg]
    exact toInt_ofInt_of_range c.two_le (by omega) (by omega)
  have hupper : ((-(badObjptrInt : BitVec c.objptr)).sshiftRight (c.objptr - 2)).toInt = 1 := by
    rw [BitVec.toInt_sshiftRight, htoInt, Int.shiftRight_eq_div_pow]
    push_cast
    exact Int.ediv_self hpos.ne'
  have hslt : ¬(-(badObjptrInt : BitVec c.objptr)).slt 0 = true := by
    rw [BitVec.slt_iff_toInt_lt, htoInt]
    simp [hpos.le]
  have hzero : (-(badObjptrInt : BitVec c.objptr)).sshiftRight (c.objptr - 2) ≠ 0 := fun h => by
    rw [h] at hupper
    simp at hupper
  have hones : (-(badObjptrInt : BitVec c.objptr)).sshiftRight (c.objptr - 2) ≠ ~~~0 := fun h => by
    rw [h, toInt_not_eq _ (by have := c.two_le; omega)] at hupper
    simp at hupper
  have hvec : (negBadIntInf : BigInt c) =
      vector (0 :: limbsOf (-(badObjptrInt : BitVec c.objptr))) := by
    rw [negBadIntInf, sextdFromObjptrInt, extdFromWord]
    simp only [hzero, hones, hslt, and_false, or_false, if_false, Bool.false_eq_true]
  have hvalue : toInt (vector (0 :: limbsOf (-badObjptrInt : BitVec c.objptr)) : BigInt c) =
      2 ^ (c.objptr - 2) := by
    have hmsb : (-(badObjptrInt : BitVec c.objptr)).msb = false := by
      rw [BitVec.msb_eq_toInt, htoInt, decide_eq_false_iff_not]
      omega
    rw [toInt, isneg_cons, List.tail_cons, magnitude_limbsOf, ← htoInt,
      BitVec.toInt_eq_toNat_of_msb hmsb]
    simp
  rw [hvec]
  refine ⟨⟨⟨_, _, rfl, .inl rfl⟩, trimmed_limbsOf _, ?_⟩, hvalue⟩
  rw [hvalue]
  exact fun hfits => by
    obtain ⟨-, hhi⟩ := hfits
    omega

/-! ### Arithmetic -/

/-- The negation of a small integer. -/
theorem negWord_isRep {x : BigInt c} (hx : x.Normal) (h : isSmall x = true) :
    IsRep (let argw := Prim.toWord x
      if argw = addTag badObjptrInt then negBadIntInf else Prim.fromWord (2 - argw)) (-x.toInt) := by
  dsimp only
  split_ifs with hbad
  · rw [toWord_eq_bad_iff hx h] at hbad
    rw [hbad, neg_neg]
    exact negBadIntInf_isRep
  · rw [toWord_eq_bad_iff hx h] at hbad
    obtain ⟨hlo, hhi⟩ := fits_of_isSmall h
    refine word_isRep ⟨by omega, by omega⟩ ?_
    have htwo : (2 : BitVec c.objptr) = .ofInt c.objptr 2 := by simp
    rw [show 2 * -x.toInt + 1 = 2 + -(2 * x.toInt + 1) by ring, ← toWord_toInt hx h,
      BitVec.ofInt_add, BitVec.ofInt_neg, BitVec.ofInt_toInt, htwo, BitVec.sub_eq_add_neg]

theorem bigArith_isRep {smallOp : BitVec c.objptr → BitVec c.objptr → Except Exn (BitVec c.objptr)}
    {bigOp : BigInt c → BigInt c → BigInt c} (op : ℤ → ℤ → ℤ) {x y : BigInt c}
    (hsmall : ∀ a b, smallOp a b = I.check _ (op a.toInt b.toInt))
    (hbig : IsRep (bigOp x y) (op x.toInt y.toInt)) :
    IsRep (bigArith smallOp bigOp x y) (op x.toInt y.toInt) := by
  rw [bigArith, areSmall_eq]
  by_cases hareSmall : (isSmall x && isSmall y) = true
  · have hand := Bool.and_eq_true_iff.1 hareSmall
    rw [if_pos hareSmall, hsmall, dropTagCoerce_toInt hand.1, dropTagCoerce_toInt hand.2, I.check]
    by_cases hrange : -2 ^ (c.objptr - 1) ≤ op x.toInt y.toInt ∧
        op x.toInt y.toInt < 2 ^ (c.objptr - 1)
    · have htoInt : (BitVec.ofInt c.objptr (op x.toInt y.toInt)).toInt = op x.toInt y.toInt := by
        rw [(two_pow_eq c.two_le).2] at hrange
        exact toInt_ofInt_of_range c.two_le (by omega) (by omega)
      rw [if_pos hrange]
      dsimp only
      by_cases hsign : sameSignBit (addTag (BitVec.ofInt c.objptr (op x.toInt y.toInt)))
          (BitVec.ofInt c.objptr (op x.toInt y.toInt)) = true
      · rw [if_pos hsign]
        rw [sameSignBit_addTag c.two_le, htoInt] at hsign
        exact addTag_isRep hsign
      · rw [if_neg hsign]
        exact hbig
    · rw [if_neg hrange]
      exact hbig
  · rw [if_neg hareSmall]
    exact hbig

section

variable (hwide : c.objptr ≤ c.limb) {g : GnuMP c} (hg : g.Exact) {x y : BigInt c}
  (hx : x.Normal) (hy : y.Normal)

include hwide hx

theorem unary_isRep {f : Mpz c → Mpz c} {i : ℤ}
    (hf : ∀ a, a.Computes x.toInt → (f a).Computes i) : IsRep (unary f x) i :=
  finiIntInfRes_isRep hwide (hf _ (hx.fillIntInfArg hwide))

include hy

theorem binary_isRep {f : Mpz c → Mpz c → Mpz c} {i : ℤ}
    (hf : ∀ a b, a.Computes x.toInt → b.Computes y.toInt → (f a b).Computes i) :
    IsRep (binary f x y) i :=
  finiIntInfRes_isRep hwide (hf _ _ (hx.fillIntInfArg hwide) (hy.fillIntInfArg hwide))

include hg

theorem bigAdd_isRep : IsRep (bigAdd g x y) (x.toInt + y.toInt) := by
  refine bigArith_isRep (fun i j => i + j) (fun _ _ => rfl)
    (binary_isRep hwide hx hy fun a b ha hb => ?_)
  rw [← ha.value, ← hb.value]
  exact hg.mpz_add a b ha.sound hb.sound

theorem bigSub_isRep : IsRep (bigSub g x y) (x.toInt - y.toInt) := by
  refine bigArith_isRep (fun i j => i - j) (fun _ _ => rfl)
    (binary_isRep hwide hx hy fun a b ha hb => ?_)
  rw [← ha.value, ← hb.value]
  exact hg.mpz_sub a b ha.sound hb.sound

theorem bigMul_isRep : IsRep (bigMul g x y) (x.toInt * y.toInt) := by
  refine bigArith_isRep (fun i j => i * j) (fun _ _ => rfl)
    (binary_isRep hwide hx hy fun a b ha hb => ?_)
  rw [← ha.value, ← hb.value]
  exact hg.mpz_mul a b ha.sound hb.sound

omit hy

theorem unary_neg_isRep : IsRep (unary g.mpz_neg x) (-x.toInt) :=
  unary_isRep hwide hx fun a ha => by
    rw [← ha.value]
    exact hg.mpz_neg a ha.sound

theorem bigNeg_isRep : IsRep (bigNeg g x) (-x.toInt) := by
  rw [bigNeg]
  by_cases hsmall : isSmall x = true
  · rw [if_pos hsmall]
    exact negWord_isRep hx hsmall
  · rw [if_neg hsmall]
    exact unary_neg_isRep hwide hg hx

theorem bigAbs_isRep : IsRep (bigAbs g x) |x.toInt| := by
  rw [bigAbs]
  by_cases hsmall : isSmall x = true
  · have hneg := negWord_isRep hx hsmall
    have hslt : (Prim.toWord x).slt 0 = true ↔ x.toInt < 0 := by
      rw [BitVec.slt_iff_toInt_lt, toWord_toInt hx hsmall]
      simp only [BitVec.ofNat_eq_ofNat, BitVec.toInt_zero]
      omega
    rw [if_pos hsmall]
    dsimp only at hneg ⊢
    split_ifs at hneg ⊢ with hbad hlt
    · rw [toWord_eq_bad_iff hx hsmall] at hbad
      rwa [abs_of_neg]
      rw [hbad, neg_lt_zero]
      positivity
    · rw [hslt] at hlt
      rwa [abs_of_neg hlt]
    · rw [hslt] at hlt
      rw [abs_of_nonneg (not_lt.1 hlt)]
      exact hx.isRep
  · obtain ⟨v, rfl⟩ : ∃ v, x = vector v := by
      cases x with
      | word w => exact absurd hx hsmall
      | vector v => exact ⟨v, rfl⟩
    have hsign := NormalVector.toInt_neg_iff hx
    rw [if_neg hsmall, bigIsNeg, show Prim.toVector (vector v) = v from rfl]
    split_ifs with hneg
    · rw [abs_of_neg (hsign.2 hneg)]
      exact unary_neg_isRep hwide hg hx
    · rw [abs_of_nonneg (not_lt.1 (mt hsign.1 hneg))]
      exact hx.isRep

end

/-! ### Comparisons -/

section

variable {g : GnuMP c} (hg : g.Exact) (hwide : c.objptr ≤ c.limb) {x y : BigInt c}
  (hx : x.Normal) (hy : y.Normal)

include hg hwide hx hy

theorem compare_eq : Prim.compare g x y = (x.toInt - y.toInt).sign := by
  have hfx := hx.fillIntInfArg hwide
  have hfy := hy.fillIntInfArg hwide
  rw [Prim.compare, ← hfx.value, ← hfy.value, ← hg.mpz_cmp _ _ hfx.sound hfy.sound]
  rcases lt_trichotomy (g.mpz_cmp (fillIntInfArg x) (fillIntInfArg y)) 0 with h | h | h
  · rw [if_pos h, Int.sign_eq_neg_one_of_neg h]
  · rw [h]
    rfl
  · rw [if_neg (by omega), if_pos h, Int.sign_eq_one_of_pos h]

/-- Integers are equal if and only if their representations are. -/
theorem equal_iff : Prim.equal g x y = true ↔ x.toInt = y.toInt := by
  have hcmp := compare_eq hg hwide hx hy
  cases x with
  | word w =>
    cases y with
    | word w' =>
      refine decide_eq_true_iff.trans ⟨fun h => by rw [h], fun h => ?_⟩
      exact BigInt.word.inj (hx.toInt_inj hy h)
    | vector v => exact iff_of_false Bool.false_ne_true fun h => hy.large (h ▸ fits_word w)
  | vector v =>
    cases y with
    | word w' => exact iff_of_false Bool.false_ne_true fun h => hx.large (h ▸ fits_word w')
    | vector v' =>
      rw [Prim.equal, hcmp, decide_eq_true_iff, Int.sign_eq_zero_iff_zero, sub_eq_zero]

/-- A test that looks at the order only. -/
theorem bigTest_eq {β : Type} {smallTest : ℤ → ℤ → β}
    (horder : ∀ i j i' j', (i - j).sign = (i' - j').sign → smallTest i j = smallTest i' j') :
    bigTest g smallTest x y = smallTest x.toInt y.toInt := by
  rw [bigTest, areSmall_eq]
  split_ifs with hsmall
  · have hand := Bool.and_eq_true_iff.1 hsmall
    rw [toWord_toInt hx hand.1, toWord_toInt hy hand.2]
    apply horder
    rw [show 2 * x.toInt + 1 - (2 * y.toInt + 1) = 2 * (x.toInt - y.toInt) by ring, Int.sign_mul]
    exact one_mul _
  · apply horder
    rw [compare_eq hg hwide hx hy, sub_zero, Int.sign_sign]

theorem bigCompare_eq : bigCompare g x y = compare x.toInt y.toInt :=
  bigTest_eq hg hwide hx hy fun i j i' j' h => by
    rcases lt_trichotomy i j with hij | hij | hij
    · rw [Int.sign_eq_neg_one_of_neg (by omega)] at h
      have := Int.sign_eq_neg_one_iff_neg.1 h.symm
      rw [compare_lt_iff_lt.2 hij, compare_lt_iff_lt.2 (by omega : i' < j')]
    · rw [hij, sub_self, Int.sign_zero] at h
      have := Int.sign_eq_zero_iff_zero.1 h.symm
      rw [compare_eq_iff_eq.2 hij, compare_eq_iff_eq.2 (by omega : i' = j')]
    · rw [Int.sign_eq_one_of_pos (by omega)] at h
      have := Int.sign_eq_one_iff_pos.1 h.symm
      rw [compare_gt_iff_gt.2 hij, compare_gt_iff_gt.2 (by omega : i' > j')]

omit hg hwide hx hy in
theorem lt_iff_sign (i j : ℤ) : i < j ↔ (i - j).sign = -1 := by
  rw [Int.sign_eq_neg_one_iff_neg, sub_neg]

omit hg hwide hx hy in
theorem gt_iff_sign (i j : ℤ) : i > j ↔ (i - j).sign = 1 := by
  rw [Int.sign_eq_one_iff_pos, sub_pos]

theorem bigLT_eq : bigLT g x y = decide (x.toInt < y.toInt) :=
  bigTest_eq hg hwide hx hy fun i j i' j' h => by rw [decide_eq_decide, lt_iff_sign, lt_iff_sign, h]

theorem bigGT_eq : bigGT g x y = decide (x.toInt > y.toInt) :=
  bigTest_eq hg hwide hx hy fun i j i' j' h => by rw [decide_eq_decide, gt_iff_sign, gt_iff_sign, h]

theorem bigLE_eq : bigLE g x y = decide (x.toInt ≤ y.toInt) :=
  bigTest_eq hg hwide hx hy fun i j i' j' h => by
    rw [decide_eq_decide, ← not_lt, ← not_lt, ← gt_iff_lt, gt_iff_sign, ← gt_iff_lt, gt_iff_sign, h]

theorem bigGE_eq : bigGE g x y = decide (x.toInt ≥ y.toInt) :=
  bigTest_eq hg hwide hx hy fun i j i' j' h => by
    rw [decide_eq_decide, ge_iff_le, ge_iff_le, ← not_lt, ← not_lt, lt_iff_sign, lt_iff_sign, h]

end

/-! ### Bitwise operations -/

section

variable {g : GnuMP c} (hg : g.Exact) (hwide : c.objptr ≤ c.limb) {x y : BigInt c}
  (hx : x.Normal) (hy : y.Normal)

theorem oneTagCoerce_isRep {w : BitVec c.objptr} {i : ℤ} (hw : (dropTag w).toInt = i) :
    IsRep (oneTagCoerce w : BigInt c) i := by
  refine ⟨isTagged_oneTag c.two_le w, ?_⟩
  have hdrop : dropTag (oneTag w) = dropTag w := by
    ext k hk
    have htwo := c.two_le
    simp only [dropTag, oneTag, BitVec.ofNat_eq_ofNat, BitVec.getElem_sshiftRight, BitVec.msb_or,
      BitVec.getElem_or, BitVec.getElem_one]
    have hmsb : (1#c.objptr).msb = false := by
      rw [BitVec.msb_eq_toInt, one_toInt htwo]
      rfl
    simp [hmsb]
  rw [oneTagCoerce, Prim.fromWord, toInt, hdrop, hw]

theorem bigBitwise_isRep {smallOp : BitVec c.objptr → BitVec c.objptr → BitVec c.objptr}
    {bigOp : BigInt c → BigInt c → BigInt c} (op : ℤ → ℤ → ℤ)
    (hdrop : ∀ w w', dropTag (smallOp w w') = smallOp (dropTag w) (dropTag w'))
    (hsmall : ∀ w w', (smallOp w w').toInt = op w.toInt w'.toInt)
    (hbig : IsRep (bigOp x y) (op x.toInt y.toInt)) :
    IsRep (bigBitwise smallOp bigOp x y) (op x.toInt y.toInt) := by
  rw [bigBitwise, areSmall_eq]
  split_ifs with hareSmall
  · have hand := Bool.and_eq_true_iff.1 hareSmall
    refine oneTagCoerce_isRep ?_
    rw [hdrop, hsmall, ← dropTagCoerce_toInt hand.1, ← dropTagCoerce_toInt hand.2]
    rfl
  · exact hbig

include hg hwide hx

theorem bigNotb_isRep : IsRep (bigNotb g x) (-x.toInt - 1) := by
  rw [bigNotb]
  split_ifs with hsmall
  · refine oneTagCoerce_isRep ?_
    have hpos : 0 < c.objptr := by have := c.two_le; omega
    rw [dropTag, ← BitVec.not_sshiftRight, toInt_not_eq _ hpos, ← dropTagCoerce_toInt hsmall]
    rfl
  · exact unary_isRep hwide hx fun a ha => by
      rw [← ha.value]
      exact hg.mpz_com a ha.sound

include hy

theorem bigAndb_isRep : IsRep (bigAndb g x y) (x.toInt.land y.toInt) :=
  bigBitwise_isRep Int.land (fun _ _ => BitVec.sshiftRight_and_distrib ..) toInt_and_eq_land
    (binary_isRep hwide hx hy fun a b ha hb => by
      rw [← ha.value, ← hb.value]
      exact hg.mpz_and a b ha.sound hb.sound)

theorem bigOrb_isRep : IsRep (bigOrb g x y) (x.toInt.lor y.toInt) :=
  bigBitwise_isRep Int.lor (fun _ _ => BitVec.sshiftRight_or_distrib ..) toInt_or_eq_lor
    (binary_isRep hwide hx hy fun a b ha hb => by
      rw [← ha.value, ← hb.value]
      exact hg.mpz_ior a b ha.sound hb.sound)

theorem bigXorb_isRep : IsRep (bigXorb g x y) (x.toInt.xor y.toInt) :=
  bigBitwise_isRep Int.xor (fun _ _ => BitVec.sshiftRight_xor_distrib ..) toInt_xor_eq_xor
    (binary_isRep hwide hx hy fun a b ha hb => by
      rw [← ha.value, ← hb.value]
      exact hg.mpz_xor a b ha.sound hb.sound)

end

end BigInt

end MultiMLton.Basis
