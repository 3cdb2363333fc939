import MultiMLton.Basis.IntInf

/-!
# The loops of the small operations

* `smallGcd_eq`: `smallGcd` computes the greatest common divisor, in a turn for each bit of its
  arguments;
* `W.log2_eq`: `Word.log2` is the logarithm, rounded down.
-/

namespace MultiMLton.Basis

variable {n : ℕ}

/-! ### Natural numbers in words -/

section Words

variable (hn : 2 ≤ n)

include hn

theorem two_pow_nat : 2 ^ n = 4 * 2 ^ (n - 2) ∧ 2 ^ (n - 1) = 2 * 2 ^ (n - 2) := by
  have h := two_pow_eq hn
  exact_mod_cast h

theorem toInt_of_toNat_le {w : BitVec n} (h : w.toNat ≤ 2 ^ (n - 2)) : w.toInt = w.toNat := by
  have hpos : 0 < 2 ^ (n - 2) := by positivity
  have hpow := (two_pow_nat hn).1
  exact BitVec.toInt_eq_toNat_of_lt (by omega)

theorem toNat_ofNat_of_le {k : ℕ} (h : k ≤ 2 ^ (n - 2)) : (BitVec.ofNat n k).toNat = k := by
  have hpos : 0 < 2 ^ (n - 2) := by positivity
  have hpow := (two_pow_nat hn).1
  rw [BitVec.toNat_ofNat, Nat.mod_eq_of_lt (by omega)]

theorem I.check_of_range {i : ℤ} (hlo : -(2 * 2 ^ (n - 2)) ≤ i) (hhi : i < 2 * 2 ^ (n - 2)) :
    I.check n i = .ok (.ofInt n i) := by
  have hpow := (two_pow_eq hn).2
  exact if_pos ⟨by omega, by omega⟩

theorem I.check_natCast {k : ℕ} (h : k ≤ 2 ^ (n - 2)) : I.check n k = .ok (.ofNat n k) := by
  have hpos : (0 : ℤ) < 2 ^ (n - 2) := by positivity
  have hcast : ((2 ^ (n - 2) : ℕ) : ℤ) = 2 ^ (n - 2) := by push_cast; rfl
  rw [I.check_of_range hn (by omega) (by omega), BitVec.ofInt_natCast]

theorem I.mul_of_le {x y : BitVec n} (hx : x.toNat ≤ 2 ^ (n - 2)) (hy : y.toNat ≤ 2 ^ (n - 2))
    (h : x.toNat * y.toNat ≤ 2 ^ (n - 2)) : I.mul x y = .ok (.ofNat n (x.toNat * y.toNat)) := by
  rw [I.mul, toInt_of_toNat_le hn hx, toInt_of_toNat_le hn hy, ← Nat.cast_mul]
  exact I.check_natCast hn h

theorem I.add_of_le {x y : BitVec n} (hx : x.toNat ≤ 2 ^ (n - 2)) (hy : y.toNat ≤ 2 ^ (n - 2))
    (h : x.toNat + y.toNat ≤ 2 ^ (n - 2)) : I.add x y = .ok (.ofNat n (x.toNat + y.toNat)) := by
  rw [I.add, toInt_of_toNat_le hn hx, toInt_of_toNat_le hn hy, ← Nat.cast_add]
  exact I.check_natCast hn h

theorem I.sub_of_le {x y : BitVec n} (hx : x.toNat ≤ 2 ^ (n - 2)) (h : y.toNat ≤ x.toNat) :
    I.sub x y = .ok (.ofNat n (x.toNat - y.toNat)) := by
  rw [I.sub, toInt_of_toNat_le hn hx, toInt_of_toNat_le hn (h.trans hx), ← Nat.cast_sub h]
  exact I.check_natCast hn ((Nat.sub_le _ _).trans hx)

omit hn in
theorem eq_zero_iff (w : BitVec n) : w = 0 ↔ w.toNat = 0 := by simp [← BitVec.toNat_inj]

theorem eq_one_iff (w : BitVec n) : w = 1 ↔ w.toNat = 1 := by
  have hlt := Nat.one_lt_two_pow (by omega : n ≠ 0)
  simp [← BitVec.toNat_inj, Nat.mod_eq_of_lt hlt]

theorem and_one_eq_zero_iff (w : BitVec n) : w &&& 1 = 0 ↔ w.toNat % 2 = 0 := by
  have htag := isTagged_iff hn w
  rw [emod_two_eq hn, isTagged, decide_eq_true_iff] at htag
  constructor <;> intro h
  · by_contra hodd
    exact htag.2 (by omega) h
  · by_contra hne
    have := htag.1 hne
    omega

end Words

/-! ### Greatest common divisors -/

namespace BigInt

/-- What keeps `smallGcd` from overflowing. -/
structure GcdBound (a b acc : BitVec n) : Prop where
  pos : 0 < acc.toNat
  acc_le : acc.toNat ≤ 2 ^ (n - 2)
  left : acc.toNat * a.toNat ≤ 2 ^ (n - 2)
  right : acc.toNat * b.toNat ≤ 2 ^ (n - 2)

namespace GcdBound

variable {a b acc : BitVec n} (h : GcdBound a b acc)

include h

theorem left_le : a.toNat ≤ 2 ^ (n - 2) := (Nat.le_mul_of_pos_left _ h.pos).trans h.left

theorem right_le : b.toNat ≤ 2 ^ (n - 2) := (Nat.le_mul_of_pos_left _ h.pos).trans h.right

end GcdBound

theorem gcd_div_two {a b : ℕ} (ha : a % 2 = 0) (hb : b % 2 = 1) : Nat.gcd (a / 2) b = Nat.gcd a b := by
  obtain ⟨k, rfl⟩ := Nat.dvd_of_mod_eq_zero ha
  rw [Nat.mul_div_cancel_left k two_pos]
  exact (Nat.Coprime.gcd_mul_left_cancel k (Nat.coprime_two_left.2 (Nat.odd_iff.2 hb))).symm

section Gcd

variable (hn : 2 ≤ n) {a b acc : BitVec n} (h : GcdBound a b acc)

include hn h

/-- Where `smallGcd` stops. -/
theorem smallGcd_stop (fuel : ℕ) (hstop : a = 0 ∨ b = 0 ∨ b = 1 ∨ a = 1 ∨ a = b) :
    smallGcd (fuel + 1) a b acc =
      some (.ok (.ofNat n (acc.toNat * Nat.gcd a.toNat b.toNat))) := by
  have hleft := I.mul_of_le hn h.left_le h.acc_le (by rw [Nat.mul_comm]; exact h.left)
  have hright := I.mul_of_le hn h.right_le h.acc_le (by rw [Nat.mul_comm]; exact h.right)
  rw [Nat.mul_comm] at hleft hright
  rw [smallGcd, hleft, hright]
  split_ifs with ha0 hb0 hb1 ha1 hab
  · rw [(eq_zero_iff a).1 ha0, Nat.gcd_zero_left]
  · rw [(eq_zero_iff b).1 hb0, Nat.gcd_zero_right]
  · rw [(eq_one_iff hn b).1 hb1, Nat.gcd_one_right, Nat.mul_one, BitVec.ofNat_toNat,
      BitVec.setWidth_eq]
  · rw [(eq_one_iff hn a).1 ha1, Nat.gcd_one_left, Nat.mul_one, BitVec.ofNat_toNat,
      BitVec.setWidth_eq]
  · rw [hab, Nat.gcd_self]
  all_goals tauto

/-- A turn keeps the result and halves the product of the arguments. -/
theorem smallGcd_turn (fuel : ℕ) (hgo : ¬(a = 0 ∨ b = 0 ∨ b = 1 ∨ a = 1 ∨ a = b)) :
    ∃ a' b' acc', smallGcd (fuel + 1) a b acc = smallGcd fuel a' b' acc' ∧ GcdBound a' b' acc' ∧
      acc'.toNat * Nat.gcd a'.toNat b'.toNat = acc.toNat * Nat.gcd a.toNat b.toNat ∧
      2 * (a'.toNat * b'.toNat) ≤ a.toNat * b.toNat := by
  simp only [not_or] at hgo
  obtain ⟨ha0, hb0, hb1, ha1, hab⟩ := hgo
  rw [smallGcd, if_neg ha0, if_neg hb0, if_neg hb1, if_neg ha1, if_neg hab]
  rw [eq_zero_iff] at ha0 hb0
  rw [eq_one_iff hn] at ha1 hb1
  have hhalf (w : BitVec n) : (w >>> 1).toNat = w.toNat / 2 := by
    rw [BitVec.toNat_ushiftRight, Nat.shiftRight_one]
  obtain ⟨hpos, hacc, hleft, hright⟩ := h
  have hale := GcdBound.left_le ⟨hpos, hacc, hleft, hright⟩
  have hble := GcdBound.right_le ⟨hpos, hacc, hleft, hright⟩
  have hsle : b.sle a = true ↔ b.toNat ≤ a.toNat := by
    rw [BitVec.sle_iff_toInt_le, toInt_of_toNat_le hn hale, toInt_of_toNat_le hn hble,
      Nat.cast_le]
  have hmono {x y : ℕ} (hxy : x ≤ y) : acc.toNat * x ≤ acc.toNat * y := Nat.mul_le_mul_left _ hxy
  split_ifs with ha2 hb2 hb2 hle
  · -- both are even, and so is their greatest common divisor
    rw [and_one_eq_zero_iff hn] at ha2 hb2
    obtain ⟨k, hk⟩ := Nat.dvd_of_mod_eq_zero ha2
    obtain ⟨l, hl⟩ := Nat.dvd_of_mod_eq_zero hb2
    have htwice : acc.toNat + acc.toNat ≤ 2 ^ (n - 2) := by
      have htwo := hmono (show 2 ≤ a.toNat by omega)
      omega
    have hsum := toNat_ofNat_of_le hn htwice
    rw [I.add_of_le hn hacc hacc htwice]
    refine ⟨a >>> 1, b >>> 1, _, rfl, ⟨?_, ?_, ?_, ?_⟩, ?_, ?_⟩
    · rw [hsum]
      omega
    · rwa [hsum]
    · rw [hsum, hhalf, hk, Nat.mul_div_cancel_left k two_pos]
      rw [hk] at hleft
      linarith
    · rw [hsum, hhalf, hl, Nat.mul_div_cancel_left l two_pos]
      rw [hl] at hright
      linarith
    · rw [hsum, hhalf, hhalf, hk, hl, Nat.mul_div_cancel_left k two_pos,
        Nat.mul_div_cancel_left l two_pos, Nat.gcd_mul_left]
      ring
    · rw [hhalf, hhalf, hk, hl, Nat.mul_div_cancel_left k two_pos,
        Nat.mul_div_cancel_left l two_pos]
      nlinarith
  · rw [and_one_eq_zero_iff hn] at ha2 hb2
    refine ⟨a >>> 1, b, acc, rfl, ⟨hpos, hacc, ?_, hright⟩, ?_, ?_⟩
    · rw [hhalf]
      exact (hmono (Nat.div_le_self _ _)).trans hleft
    · rw [hhalf, gcd_div_two ha2 (by omega)]
    · rw [hhalf]
      nlinarith [Nat.mul_div_le a.toNat 2]
  · rw [and_one_eq_zero_iff hn] at ha2 hb2
    refine ⟨a, b >>> 1, acc, rfl, ⟨hpos, hacc, hleft, ?_⟩, ?_, ?_⟩
    · rw [hhalf]
      exact (hmono (Nat.div_le_self _ _)).trans hright
    · rw [hhalf, Nat.gcd_comm, gcd_div_two hb2 (by omega), Nat.gcd_comm]
    · rw [hhalf]
      nlinarith [Nat.mul_div_le b.toNat 2]
  · rw [and_one_eq_zero_iff hn] at ha2 hb2
    rw [hsle] at hle
    have hdiff := toNat_ofNat_of_le hn ((Nat.sub_le a.toNat b.toNat).trans hale)
    have hquot : (a.toNat - b.toNat) / 2 ≤ a.toNat := by omega
    rw [I.sub_of_le hn hale hle]
    refine ⟨_, b, acc, rfl, ⟨hpos, hacc, ?_, hright⟩, ?_, ?_⟩
    · rw [hhalf, hdiff]
      exact (hmono hquot).trans hleft
    · rw [hhalf, hdiff, gcd_div_two (by omega) (by omega), Nat.gcd_sub_self_left hle]
    · rw [hhalf, hdiff]
      nlinarith [Nat.mul_div_le (a.toNat - b.toNat) 2, Nat.sub_le a.toNat b.toNat]
  · rw [and_one_eq_zero_iff hn] at ha2 hb2
    rw [hsle] at hle
    have hdiff := toNat_ofNat_of_le hn ((Nat.sub_le b.toNat a.toNat).trans hble)
    have hquot : (b.toNat - a.toNat) / 2 ≤ b.toNat := by omega
    rw [I.sub_of_le hn hble (by omega)]
    refine ⟨a, _, acc, rfl, ⟨hpos, hacc, hleft, ?_⟩, ?_, ?_⟩
    · rw [hhalf, hdiff]
      exact (hmono hquot).trans hright
    · rw [hhalf, hdiff, Nat.gcd_comm, gcd_div_two (by omega) (by omega),
        Nat.gcd_sub_self_left (by omega), Nat.gcd_comm]
    · rw [hhalf, hdiff]
      nlinarith [Nat.mul_div_le (b.toNat - a.toNat) 2, Nat.sub_le b.toNat a.toNat]

/-- `smallGcd` computes the greatest common divisor, in so many turns as the product has bits. -/
theorem smallGcd_eq {fuel : ℕ} (hfuel : a.toNat * b.toNat < 2 ^ fuel) :
    smallGcd (fuel + 1) a b acc =
      some (.ok (.ofNat n (acc.toNat * Nat.gcd a.toNat b.toNat))) := by
  induction fuel generalizing a b acc with
  | zero =>
    refine smallGcd_stop hn h 0 ?_
    rcases Nat.mul_eq_zero.1 (show a.toNat * b.toNat = 0 by omega) with ha | hb
    · exact .inl ((eq_zero_iff a).2 ha)
    · exact .inr (.inl ((eq_zero_iff b).2 hb))
  | succ fuel ih =>
    by_cases hstop : a = 0 ∨ b = 0 ∨ b = 1 ∨ a = 1 ∨ a = b
    · exact smallGcd_stop hn h _ hstop
    · obtain ⟨a', b', acc', hturn, hbound, hgcd, hprod⟩ := smallGcd_turn hn h (fuel + 1) hstop
      rw [hturn, ih hbound (by rw [pow_succ] at hfuel; omega), hgcd]

end Gcd

end BigInt

/-! ### Logarithms -/

namespace W

/-- The loop halves the bits that are left at each turn. -/
theorem log2Loop_eq {k fuel : ℕ} (hk : 2 ^ k < n) (hk32 : k < 32) (hfuel : k + 2 ≤ fuel)
    {w : BitVec n} (acc : BitVec 32) (hpos : w.toNat ≠ 0) (hlt : w.toNat < 2 ^ 2 ^ (k + 1)) :
    log2Loop fuel w (.ofNat 32 (2 ^ k)) acc = some (acc + .ofNat 32 (Nat.log 2 w.toNat)) := by
  have hshift (k : ℕ) (hk32 : k < 32) : (BitVec.ofNat 32 (2 ^ k)).toNat = 2 ^ k :=
    Nat.mod_eq_of_lt (Nat.pow_lt_pow_right one_lt_two hk32)
  have hn : 2 ≤ n := by
    have hpos : 0 < 2 ^ k := by positivity
    omega
  have hstop (w : BitVec n) (fuel : ℕ) (s acc : BitVec 32) (hw : w = 1) :
      log2Loop (fuel + 1) w s acc = some (acc + .ofNat 32 (Nat.log 2 w.toNat)) := by
    rw [log2Loop, if_pos hw, (eq_one_iff hn w).1 hw, Nat.log_one_right]
    simp
  induction k generalizing fuel w acc with
  | zero =>
    obtain ⟨fuel, rfl⟩ := Nat.exists_eq_add_of_le' hfuel
    by_cases hw : w = 1
    · exact hstop w _ _ acc hw
    · -- the word is 2 or 3
      rw [eq_one_iff hn] at hw
      have hle : (1#n <<< 1).ule w = true := by
        rw [← BitVec.twoPow_eq, BitVec.ule_iff_le, BitVec.le_def,
          BitVec.toNat_twoPow_of_lt (by omega)]
        omega
      have hhalf : (w >>> 1).toNat = 1 := by
        rw [BitVec.toNat_ushiftRight, Nat.shiftRight_one]
        norm_num at hlt
        omega
      have hlog : Nat.log 2 w.toNat = 1 :=
        Nat.log_eq_of_pow_le_of_lt_pow (by omega) (by simpa using hlt)
      rw [log2Loop, if_neg (mt (eq_one_iff hn w).1 hw), hshift 0 (by omega), pow_zero, if_pos hle]
      dsimp only
      rw [hstop _ _ _ _ ((eq_one_iff hn _).2 hhalf), hhalf, hlog]
      simp
  | succ k ih =>
    obtain ⟨fuel, rfl⟩ := Nat.exists_eq_add_of_le' (show 1 ≤ fuel by omega)
    by_cases hw : w = 1
    · exact hstop w _ _ acc hw
    · have hpow : (2 : ℕ) ^ 2 ^ (k + 2) = 2 ^ 2 ^ (k + 1) * 2 ^ 2 ^ (k + 1) := by
        rw [← pow_add, ← two_mul, ← pow_succ']
      have hhalf : BitVec.ofNat 32 (2 ^ (k + 1)) >>> 1 = .ofNat 32 (2 ^ k) := by
        apply BitVec.eq_of_toNat_eq
        rw [BitVec.toNat_ushiftRight, hshift _ hk32, hshift _ (by omega), Nat.shiftRight_one,
          pow_succ, Nat.mul_div_cancel _ two_pos]
      have hle : (1#n <<< 2 ^ (k + 1)).ule w = true ↔ 2 ^ 2 ^ (k + 1) ≤ w.toNat := by
        rw [← BitVec.twoPow_eq, BitVec.ule_iff_le, BitVec.le_def, BitVec.toNat_twoPow_of_lt hk]
      rw [log2Loop, if_neg hw, hshift _ hk32, hhalf]
      rw [pow_succ] at hk
      split_ifs with hif <;> dsimp only <;> rw [hle] at hif
      · have hquot : (w >>> 2 ^ (k + 1)).toNat = w.toNat / 2 ^ 2 ^ (k + 1) := by
          rw [BitVec.toNat_ushiftRight, Nat.shiftRight_eq_div_pow]
        have hlog : 2 ^ (k + 1) ≤ Nat.log 2 w.toNat := Nat.le_log_of_pow_le one_lt_two hif
        rw [ih (by omega) (by omega) (by omega), hquot, Nat.log_div_base_pow, BitVec.add_assoc,
          ← BitVec.ofNat_add, Nat.add_sub_cancel' hlog]
        · rw [hquot]
          exact (Nat.div_pos hif (by positivity)).ne'
        · rw [hquot]
          exact Nat.div_lt_of_lt_mul (hpow ▸ hlt)
      · exact ih (by omega) (by omega) (by omega) acc hpos (not_le.1 hif)

/-- `Word.log2` is the logarithm of a word of 32 or 64 bits, rounded down. -/
theorem log2_eq (hn : n = 32 ∨ n = 64) {fuel : ℕ} (hfuel : 7 ≤ fuel) {w : BitVec n} (hw : w ≠ 0) :
    log2 fuel w = some (.ok (.ofNat 32 (Nat.log 2 w.toNat))) := by
  have hpos : w.toNat ≠ 0 := fun hzero => hw ((eq_zero_iff w).2 hzero)
  have hlt := w.isLt
  rw [log2, if_neg hw]
  rcases hn with rfl | rfl
  · have hloop := log2Loop_eq (k := 4) (by norm_num) (by omega) (show 4 + 2 ≤ fuel by omega) 0#32
      hpos (hlt.trans_le (by norm_num))
    rw [BitVec.zero_add] at hloop
    exact congrArg (Option.map Except.ok) hloop
  · have hloop := log2Loop_eq (k := 5) (by norm_num) (by omega) (show 5 + 2 ≤ fuel by omega) 0#32
      hpos (hlt.trans_le (by norm_num))
    rw [BitVec.zero_add] at hloop
    exact congrArg (Option.map Except.ok) hloop

end W

end MultiMLton.Basis
