import MultiMLton.Atoms.PrimConsts

/-!
# Constant folding is sound, but for four rows

Which applications `Prim.apply` answers correctly. `Prim.Misfolds` names those it does not:

* a rotation of a variable by a constant that is a multiple of 32 but not of the size of the
  rotated word, since the amount is reduced by its own size;
* a checked unsigned subtraction from the constant zero, which becomes a negation that checks for the
  overflow of signed words;
* a checked signed multiplication of words of one bit by the constant one, which is minus one;
* a division of the real constant one half by a variable, which is answered like the variable's
  division by one half.

`Prim.apply_sound_iff` shows that all other applications are answered correctly, and none of these.
-/

namespace MultiMLton.Atoms

open WordX Value
open Int (land lor natCast_dvd_natCast)

variable {ν κ β : Type}

namespace Prim

variable {T : Target}

/-- The applications that `apply` answers wrongly. -/
def Misfolds (T : Target) : Prim ν → List (ApplyArg κ β) → Prop
  | wordRol s, [.var _, .const (.word w)] | wordRor s, [.var _, .const (.word w)] =>
    w.size = .shiftArg ∧ 32 ∣ w.value ∧ ¬ (s.bits : ℤ) ∣ w.value
  | wordSubCheck s false, [.const (.word w), .var _] => w.size = s ∧ w.value = 0 ∧ s.bits ≠ 1
  | wordMulCheck s true, [.var _, .const (.word w)]
  | wordMulCheck s true, [.const (.word w), .var _] => w.size = s ∧ w.value = 1 ∧ s.bits = 1
  | realArith .div s, [.const (.real r), .var _] =>
    r.size = s ∧ r.decon T.disableCF = some (.pow2 false 0)
  | _, _ => False

section Equations

attribute [local simp] Misfolds

end Equations

section Variables

variable {E : Runtime κ} {ρ : β → Value κ} {p : Prim ν} {o : Outcome κ}

/-- An answer that stands for what the application comes to. -/
def Answers (T : Target) (E : Runtime κ) (ρ : β → Value κ)
    (answer : Except Exn (ApplyResult ν β)) (o : Outcome κ) : Prop :=
  ∃ r, answer = .ok r ∧ ResultMeans T E ρ r o

theorem Answers.unknown : Answers T E ρ (.ok .unknown : Except Exn (ApplyResult ν β)) o :=
  ⟨_, rfl, trivial⟩

variable {v : Value κ}

theorem Answers.var {x : β} (h : ρ x = v) :
    Answers T E ρ (.ok (.var x) : Except Exn (ApplyResult ν β)) (.value v) :=
  ⟨_, rfl, by rw [ResultMeans, h]⟩

theorem Answers.bool {b : Bool} (h : v = .bool b) :
    Answers T E ρ (.ok (.bool b) : Except Exn (ApplyResult ν β)) (.value v) :=
  ⟨_, rfl, by rw [h]; rfl⟩

variable {s : WordSize}

theorem Answers.word {b : BitVec s.bits} (h : v = .word s b) :
    Answers T E ρ (.ok (Prim.word (ofBits s b)) : Except Exn (ApplyResult ν β)) (.value v) :=
  ⟨_, rfl, by rw [h, Prim.word, ResultMeans, constValue, ofWordX_ofBits]⟩

theorem Answers.intInf {i : ℤ} (h : v = .intInf i) :
    Answers T E ρ (.ok (Prim.intInf i) : Except Exn (ApplyResult ν β)) (.value v) := by
  unfold Prim.intInf
  split_ifs
  · exact .unknown
  · exact ⟨_, rfl, by rw [h]; rfl⟩

theorem Answers.apply {p' : Prim ν} {xs : List β} (h : eval T E p' (xs.map ρ) = some o) :
    Answers T E ρ (.ok (.apply p' xs) : Except Exn (ApplyResult ν β)) o :=
  ⟨_, rfl, h⟩

/-- The integer of a word fits, so that it is returned. -/
theorem exactly_sgInt (signed : Bool) (b : BitVec s.bits) :
    exactly s signed (sgInt b signed) = some (Outcome.value (.word s b : Value κ)) := by
  have hfits : Fits s.bits signed (sgInt b signed) := by
    rw [← isInRange_iff]
    simp [WordSize.isInRange, min_le_sgInt, sgInt_le_max]
  rw [exactly, if_pos hfits, ofInt_sgInt, returns]

section Identities

variable {s : WordSize} {a : BitVec s.bits} {x : β}

@[simp] theorem sgInt_zero {n : ℕ} (signed : Bool) : sgInt 0#n signed = 0 := by
  cases signed <;> simp [sgInt]

@[simp] theorem sgInt_allOnes (s : WordSize) : sgInt (BitVec.allOnes s.bits) true = -1 := by
  have hpos := s.pos.ne'
  simp [sgInt, BitVec.toInt_allOnes, hpos]

/-- The word one is the integer one, apart from the signed word of one bit. -/
theorem sgInt_one (s : WordSize) {signed : Bool} (h : signed = true → s.bits ≠ 1) :
    sgInt 1#s.bits signed = 1 := by
  have hpos := s.pos
  cases signed with
  | true =>
    have hbits := h rfl
    rw [sgInt, if_pos rfl, BitVec.toInt_one (by omega)]
  | false =>
    have hone := Nat.mod_eq_of_lt (one_lt_two_pow s)
    simp [sgInt, hone]

theorem checked_value {signed : Bool} {b : BitVec s.bits} {i : ℤ} (hi : i = sgInt b signed)
    (h : exactly s signed i = some o) : o = .value (.word s b) := by
  rw [hi, exactly_sgInt] at h
  exact (Option.some.inj h).symm

/-- Products with zero, one and minus one. -/
theorem varMul_answers {b : BitVec s.bits} {signed : Bool} (ha : ρ x = .word s a)
    (ho : .value (.word s (a * b)) = o) :
    Answers T E ρ (.ok (varMul x (ofBits s b) signed (wordNeg s)) :
      Except Exn (ApplyResult ν β)) o := by
  subst ho
  simp only [varMul, isZero_ofBits, isOne_ofBits, isNegOne_ofBits, decide_eq_true_eq]
  split_ifs with h0 h1 h2
  · exact .word (by rw [h0, BitVec.mul_zero])
  · exact .var (by rw [ha, h1, BitVec.mul_one])
  · refine .apply ?_
    have hmul : a * BitVec.allOnes s.bits = -a := by
      rw [← BitVec.neg_one_eq_allOnes, BitVec.mul_neg, BitVec.mul_one]
    simp [eval, wordUnary, ha, toWord, returns, h2.2, hmul]
  · exact .unknown

theorem varMulCheck_answers {b : BitVec s.bits} {signed : Bool} (ha : ρ x = .word s a)
    (hone : b = 1#s.bits → signed = true → s.bits ≠ 1)
    (ho : exactly s signed (sgInt a signed * sgInt b signed) = some o) :
    Answers T E ρ (.ok (varMul x (ofBits s b) signed (wordNegCheck s)) :
      Except Exn (ApplyResult ν β)) o := by
  simp only [varMul, isZero_ofBits, isOne_ofBits, isNegOne_ofBits, decide_eq_true_eq]
  split_ifs with h0 h1 h2
  · subst h0
    rw [checked_value (b := 0#s.bits) (by simp) ho]
    exact .word rfl
  · rw [checked_value (b := a) (by rw [h1, sgInt_one s (hone h1), mul_one]) ho]
    exact .var ha
  · obtain ⟨rfl, rfl⟩ := h2
    refine .apply ?_
    simp only [sgInt_allOnes, mul_neg, mul_one] at ho
    simpa [eval, ha, toWord, sgInt] using ho
  · exact .unknown

/-- The size of a word is itself a shift amount. -/
theorem toNat_make_bits (s : WordSize) :
    (BitVec.ofInt WordSize.shiftArg.bits s.bits).toNat = s.bits := by
  have hle := s.le
  have hbits : 2 ^ WordSize.shiftArg.bits = 2 ^ 32 := rfl
  rw [BitVec.ofInt_natCast, BitVec.toNat_ofNat, hbits]
  exact Nat.mod_eq_of_lt (by omega)

variable {f : BitVec s.bits → ℕ → BitVec s.bits} {k : BitVec WordSize.shiftArg.bits}

/-- Shifting a variable by nothing, or by its size at least. -/
theorem varShift_right
    (ha : ρ x = .word s a) (hzero : f a 0 = a) (hbig : s.bits ≤ k.toNat → f a k.toNat = 0#s.bits)
    (ho : .value (.word s (f a k.toNat)) = o) :
    Answers T E ρ (varShift x (ofBits .shiftArg k) s true : Except Exn (ApplyResult ν β)) o := by
  subst ho
  simp only [varShift, isZero_ofBits, decide_eq_true_eq, if_true]
  split_ifs with h0
  · exact .var (by simp [ha, h0, hzero])
  · simp only [make_eq, ge_ofBits, ok_bind, sgInt, Bool.false_eq_true, if_false, Nat.cast_le,
      toNat_make_bits, decide_eq_true_eq, zero_eq]
    split_ifs with hk
    · exact .word (by rw [hbig hk])
    · exact .unknown

/-- Shifting zero. -/
theorem varShift_left
    (hzero : f 0#s.bits k.toNat = 0#s.bits) (ho : .value (.word s (f a k.toNat)) = o) :
    Answers T E ρ (varShift x (ofBits s a) s false : Except Exn (ApplyResult ν β)) o := by
  subst ho
  simp only [varShift, isZero_ofBits, decide_eq_true_eq, zero_eq, Bool.false_eq_true, if_false]
  split_ifs with h0
  · exact .word (by rw [h0, hzero])
  · exact .unknown

/-- The test on the amount of a rotation, which is about the 32 bits of the amount. -/
theorem varRo_eq (x : β) (k : BitVec WordSize.shiftArg.bits) :
    (varRo x (ofBits .shiftArg k) true : Except Exn (ApplyResult ν β)) =
      .ok (if 32 ∣ k.toNat then .var x else .unknown) := by
  have hrem : k.umod (BitVec.ofInt WordSize.shiftArg.bits WordSize.shiftArg.bits) =
      0#(WordSize.shiftArg.bits) ↔ 32 ∣ k.toNat := by
    rw [← BitVec.toNat_inj, BitVec.umod_eq, BitVec.toNat_umod, toNat_make_bits,
      Nat.dvd_iff_mod_eq_zero]
    rfl
  simp only [varRo, if_true, ofBits_size, make_eq, rem_ofBits, ok_bind, isZero_ofBits,
    decide_eq_true_eq, Bool.false_eq_true, if_false, hrem]
  split_ifs <;> rfl

/-- Rotating a variable by a multiple of its size. -/
theorem varRo_right (ha : ρ x = .word s a) (hmul : s.bits ∣ k.toNat → f a k.toNat = a)
    (hsound : 32 ∣ k.toNat → s.bits ∣ k.toNat) (ho : .value (.word s (f a k.toNat)) = o) :
    Answers T E ρ (varRo x (ofBits .shiftArg k) true : Except Exn (ApplyResult ν β)) o := by
  subst ho
  rw [varRo_eq]
  split_ifs with h32
  · exact .var (by rw [ha, hmul (hsound h32)])
  · exact .unknown

/-- Rotating words whose bits are all the same. -/
theorem varRo_left (hzero : f 0#s.bits k.toNat = 0#s.bits)
    (hones : f (BitVec.allOnes s.bits) k.toNat = BitVec.allOnes s.bits)
    (ho : .value (.word s (f a k.toNat)) = o) :
    Answers T E ρ (varRo x (ofBits s a) false : Except Exn (ApplyResult ν β)) o := by
  subst ho
  simp only [varRo, isZero_ofBits, isAllOnes_ofBits, Bool.or_eq_true, decide_eq_true_eq,
    Bool.false_eq_true, if_false]
  split_ifs with hw
  · rcases hw with rfl | rfl
    · exact .word (by rw [hzero])
    · exact .word (by rw [hones])
  · exact .unknown

theorem rotateLeft_of_dvd {n k : ℕ} (b : BitVec n) (h : n ∣ k) : b.rotateLeft k = b := by
  rw [← BitVec.rotateLeft_mod_eq_rotateLeft, Nat.mod_eq_zero_of_dvd h, BitVec.rotateLeft_def]
  simp [BitVec.ushiftRight_eq_zero]

theorem rotateRight_of_dvd {n k : ℕ} (b : BitVec n) (h : n ∣ k) : b.rotateRight k = b := by
  rw [← BitVec.rotateRight_mod_eq_rotateRight, Nat.mod_eq_zero_of_dvd h, BitVec.rotateRight_def]
  simp [BitVec.shiftLeft_eq_zero]

theorem rotateLeft_zero_bits (n k : ℕ) : (0#n).rotateLeft k = 0#n := by
  simp [BitVec.rotateLeft_def]

theorem rotateRight_zero_bits (n k : ℕ) : (0#n).rotateRight k = 0#n := by
  simp [BitVec.rotateRight_def]

theorem rotateLeft_allOnes (n k : ℕ) : (BitVec.allOnes n).rotateLeft k = BitVec.allOnes n := by
  ext i hi
  rw [BitVec.getElem_rotateLeft]
  split_ifs <;> simp

theorem rotateRight_allOnes (n k : ℕ) : (BitVec.allOnes n).rotateRight k = BitVec.allOnes n := by
  ext i hi
  rw [BitVec.getElem_rotateRight]
  split_ifs <;> simp

/-- Quotients by one and minus one. -/
theorem quot_one (signed : Bool) (b : BitVec s.bits) :
    (if signed then BitVec.sdiv else BitVec.udiv) b 1#s.bits = b := by
  cases signed
  · exact BitVec.udiv_one
  · exact BitVec.sdiv_one

theorem sdiv_allOnes (b : BitVec s.bits) : b.sdiv (BitVec.allOnes s.bits) = -b := by
  have hones := sgInt_allOnes s
  rw [sgInt, if_pos rfl] at hones
  rw [← BitVec.toInt_inj, BitVec.toInt_sdiv, hones, BitVec.toInt_neg]
  simp

/-- Remainders by one and minus one. -/
theorem rem_one (signed : Bool) (b : BitVec s.bits) :
    (if signed then BitVec.srem else BitVec.umod) b 1#s.bits = 0#s.bits := by
  cases signed
  · exact BitVec.umod_one
  · exact BitVec.srem_one

theorem srem_allOnes (b : BitVec s.bits) : b.srem (BitVec.allOnes s.bits) = 0#s.bits := by
  have hones := sgInt_allOnes s
  rw [sgInt, if_pos rfl] at hones
  rw [← BitVec.toInt_inj, BitVec.toInt_srem, hones]
  simp

theorem sshiftRight_allOnes (n k : ℕ) : (BitVec.allOnes n).sshiftRight k = BitVec.allOnes n := by
  ext i hi
  have hmsb : (BitVec.allOnes n).msb = true := BitVec.msb_allOnes (by omega)
  rw [BitVec.getElem_sshiftRight]
  split_ifs <;> simp [hmsb]

/-- With one bit, subtracting from zero overflows where negating does. -/
theorem negCheck_one_bit {b : BitVec s.bits} (hbits : s.bits = 1)
    (h : exactly s false (sgInt 0#s.bits false - sgInt b false) = some o) :
    exactly s true (-b.toInt) = some o := by
  obtain ⟨n, _, _⟩ := s
  obtain rfl : n = 1 := hbits
  rw [← h]
  rcases BitVec.eq_zero_or_eq_one b with rfl | rfl <;> rfl

end Identities

/-- A variable and a word on its right. -/
theorem varWord_right {x : β} {w : WordX} (h : eval T E p [ρ x, .ofWordX w] = some o)
    (hsound : ¬ Misfolds T p ([.var x, .const (.word w)] : List (ApplyArg κ β))) :
    Answers T E ρ (varWord p x w true) o := by
  cases p with
  | cpointerAdd | cpointerSub =>
    simp only [eval, Option.bind_eq_bind, Option.bind_eq_some_iff, toPointer_eq_some,
      toWord_eq_some, ofWordX_eq_word] at h
    obtain ⟨a, ha, b, rfl, h⟩ := h
    cases h
    simp only [varWord, isZero_ofBits, and_true, decide_eq_true_eq]
    split_ifs with hb
    · exact .var (by simp [ha, hb])
    · exact .unknown
  | wordAdd s | wordAndb s | wordOrb s | wordSub s | wordXorb s =>
    obtain ⟨a, b, ha, hb, rfl⟩ := wordBinary_eq_some.1 h
    obtain rfl := ofWordX_eq_word.1 hb
    simp only [varWord, varSub, isZero_ofBits, isAllOnes_ofBits, decide_eq_true_eq, if_true,
      zero_eq]
    split_ifs
    all_goals first
      | exact .unknown
      | exact .var (by simp [*])
      | exact .word (by simp [*])
      | exact .apply (by simp [eval, wordUnary, toWord, returns, *])
  | wordAddCheck s sg | wordSubCheck s sg =>
    obtain ⟨a, b, ha, hb, hexact⟩ := wordChecked_eq_some.1 h
    obtain rfl := ofWordX_eq_word.1 hb
    simp only [varWord, varSub, isZero_ofBits, decide_eq_true_eq, if_true]
    split_ifs with h0
    · rw [checked_value (b := a) (by simp [h0]) hexact]
      exact .var ha
    · exact .unknown
  | wordMul s sg =>
    obtain ⟨a, b, ha, hb, hmul⟩ := wordBinary_eq_some.1 h
    obtain rfl := ofWordX_eq_word.1 hb
    exact varMul_answers ha hmul
  | wordMulCheck s sg =>
    obtain ⟨a, b, ha, hb, hexact⟩ := wordChecked_eq_some.1 h
    obtain rfl := ofWordX_eq_word.1 hb
    refine varMulCheck_answers ha (fun hone hsg hbits => hsound ?_) hexact
    subst hone hsg
    have hval := Nat.mod_eq_of_lt (one_lt_two_pow s)
    exact ⟨rfl, by simp [hval], hbits⟩
  | wordQuot s sg =>
    obtain ⟨a, b, ha, hb, -, hdiv⟩ := wordDivision_eq_some.1 h
    obtain rfl := ofWordX_eq_word.1 hb
    simp only [varWord, isOne_ofBits, isNegOne_ofBits, decide_eq_true_eq, if_true]
    split_ifs with h1 hneg
    · subst h1 hdiv
      exact .var (by rw [ha, quot_one])
    · obtain ⟨rfl, rfl⟩ := hneg
      subst hdiv
      exact .apply (by simp [eval, wordUnary, ha, toWord, returns, sdiv_allOnes])
    · exact .unknown
  | wordRem s sg =>
    obtain ⟨a, b, ha, hb, -, hdiv⟩ := wordDivision_eq_some.1 h
    obtain rfl := ofWordX_eq_word.1 hb
    simp only [varWord, isOne_ofBits, isNegOne_ofBits, decide_eq_true_eq, true_and, zero_eq]
    split_ifs with h1
    · subst hdiv
      rcases h1 with rfl | ⟨rfl, rfl⟩
      · exact .word (by rw [rem_one])
      · exact .word (by rw [if_pos rfl, srem_allOnes])
    · exact .unknown
  | wordLshift s =>
    obtain ⟨a, k, ha, hk, hshift⟩ := wordShift_eq_some.1 h
    obtain rfl := ofWordX_eq_word.1 hk
    exact varShift_right ha (by simp) (fun hle => BitVec.shiftLeft_eq_zero hle) hshift
  | wordRshift s sg =>
    obtain ⟨a, k, ha, hk, hshift⟩ := wordShift_eq_some.1 h
    obtain rfl := ofWordX_eq_word.1 hk
    cases sg with
    | true =>
      simp only [varWord, if_true, isZero_ofBits, isAllOnes_ofBits, decide_eq_true_eq,
        Bool.not_true, Bool.false_eq_true, and_false, if_false]
      split_ifs with h0
      · subst hshift
        exact .var (by simp [ha, h0])
      · exact .unknown
    | false => exact varShift_right ha (by simp) (fun hle => BitVec.ushiftRight_eq_zero hle) hshift
  | wordRol s | wordRor s =>
    obtain ⟨a, k, ha, hk, hrot⟩ := wordShift_eq_some.1 h
    obtain rfl := ofWordX_eq_word.1 hk
    have hdvd : 32 ∣ k.toNat → s.bits ∣ k.toNat := by
      intro h32
      by_contra hs
      exact hsound ⟨rfl, by simpa using natCast_dvd_natCast.2 h32,
        fun h' => hs (natCast_dvd_natCast.1 h')⟩
    refine varRo_right ha (fun h' => ?_) hdvd hrot
    simp only [rotateLeft_of_dvd, rotateRight_of_dvd, h']
  | wordLt s sg =>
    obtain ⟨a, b, ha, hb, rfl⟩ := wordCompare_eq_some.1 h
    obtain rfl := ofWordX_eq_word.1 hb
    rw [lt_eq_decide]
    simp only [varWord, if_true, isMin_ofBits]
    split_ifs with hmin
    · have hle := min_le_sgInt s a sg
      exact .bool (by rw [hmin, decide_eq_false (by omega)])
    · exact .unknown
  | _ => exact .unknown

/-- A variable and a word on its left. -/
theorem varWord_left {x : β} {w : WordX} (h : eval T E p [.ofWordX w, ρ x] = some o)
    (hsound : ¬ Misfolds T p ([.const (.word w), .var x] : List (ApplyArg κ β))) :
    Answers T E ρ (varWord p x w false) o := by
  cases p with
  | cpointerAdd | cpointerSub =>
    simp [eval, toPointer, ofWordX] at h
  | wordAdd s | wordAndb s | wordOrb s | wordSub s | wordXorb s =>
    obtain ⟨a, b, ha, hb, rfl⟩ := wordBinary_eq_some.1 h
    obtain rfl := ofWordX_eq_word.1 ha
    simp only [varWord, varSub, isZero_ofBits, isAllOnes_ofBits, decide_eq_true_eq,
      Bool.false_eq_true, if_false, zero_eq]
    split_ifs
    all_goals first
      | exact .unknown
      | exact .var (by simp [*])
      | exact .word (by simp [*])
      | exact .apply (by simp [eval, wordUnary, toWord, returns, *])
  | wordAddCheck s sg =>
    obtain ⟨a, b, ha, hb, hexact⟩ := wordChecked_eq_some.1 h
    obtain rfl := ofWordX_eq_word.1 ha
    simp only [varWord, isZero_ofBits, decide_eq_true_eq]
    split_ifs with h0
    · rw [checked_value (b := b) (by simp [h0]) hexact]
      exact .var hb
    · exact .unknown
  | wordSubCheck s sg =>
    obtain ⟨a, b, ha, hb, hexact⟩ := wordChecked_eq_some.1 h
    obtain rfl := ofWordX_eq_word.1 ha
    simp only [varWord, varSub, isZero_ofBits, decide_eq_true_eq, Bool.false_eq_true, if_false]
    split_ifs with h0
    · subst h0
      cases sg with
      | true =>
        refine .apply ?_
        rw [sgInt_zero, zero_sub] at hexact
        simpa [eval, hb, toWord, sgInt] using hexact
      | false =>
        have hbits : s.bits = 1 := by
          by_contra hne
          exact hsound ⟨rfl, by simp, hne⟩
        exact .apply (by simpa [eval, hb, toWord] using negCheck_one_bit hbits hexact)
    · exact .unknown
  | wordMul s sg =>
    obtain ⟨a, b, ha, hb, hmul⟩ := wordBinary_eq_some.1 h
    obtain rfl := ofWordX_eq_word.1 ha
    exact varMul_answers hb (by rw [BitVec.mul_comm, hmul])
  | wordMulCheck s sg =>
    obtain ⟨a, b, ha, hb, hexact⟩ := wordChecked_eq_some.1 h
    obtain rfl := ofWordX_eq_word.1 ha
    refine varMulCheck_answers hb (fun hone hsg hbits => hsound ?_) (by rw [mul_comm, hexact])
    subst hone hsg
    have hval := Nat.mod_eq_of_lt (one_lt_two_pow s)
    exact ⟨rfl, by simp [hval], hbits⟩
  | wordQuot s sg | wordRem s sg =>
    simp only [varWord, Bool.false_eq_true, if_false, false_and]
    exact .unknown
  | wordLshift s =>
    obtain ⟨a, k, ha, hk, hshift⟩ := wordShift_eq_some.1 h
    obtain rfl := ofWordX_eq_word.1 ha
    exact varShift_left (by simp) hshift
  | wordRshift s sg =>
    obtain ⟨a, k, ha, hk, hshift⟩ := wordShift_eq_some.1 h
    obtain rfl := ofWordX_eq_word.1 ha
    cases sg with
    | true =>
      subst hshift
      simp only [varWord, if_true, isZero_ofBits, isAllOnes_ofBits, decide_eq_true_eq,
        Bool.not_false, Bool.false_eq_true, and_true, if_false, zero_eq]
      split_ifs with h0 h1
      · exact .word (by simp [h0])
      · exact .word (by rw [h1, sshiftRight_allOnes])
      · exact .unknown
    | false => exact varShift_left (x := x) (by simp) hshift
  | wordRol s =>
    obtain ⟨a, k, ha, hk, hrot⟩ := wordShift_eq_some.1 h
    obtain rfl := ofWordX_eq_word.1 ha
    exact varRo_left (rotateLeft_zero_bits _ _) (rotateLeft_allOnes _ _) hrot
  | wordRor s =>
    obtain ⟨a, k, ha, hk, hrot⟩ := wordShift_eq_some.1 h
    obtain rfl := ofWordX_eq_word.1 ha
    exact varRo_left (rotateRight_zero_bits _ _) (rotateRight_allOnes _ _) hrot
  | wordLt s sg =>
    obtain ⟨a, b, ha, hb, rfl⟩ := wordCompare_eq_some.1 h
    obtain rfl := ofWordX_eq_word.1 ha
    rw [lt_eq_decide]
    simp only [varWord, Bool.false_eq_true, if_false, isMax_ofBits]
    split_ifs with hmax
    · have hle := sgInt_le_max s b sg
      exact .bool (by rw [hmax, decide_eq_false (by omega)])
    · exact .unknown
  | _ => exact .unknown

/-! ### Reals -/

section Reals

variable {s : RealSize} {x : β} {a b : RealOf s}

theorem negIf_answers {c : Bool} (ha : ρ x = .real s a) (hb : b.1 = if c then a.1.neg else a.1) :
    Answers T E ρ (.ok (if c then .apply (realNeg s) [x] else .var x) :
      Except Exn (ApplyResult ν β)) (.value (.real s b)) := by
  cases c with
  | true =>
    obtain rfl : b = a.neg := Subtype.ext hb
    exact .apply (by simp [eval, ha, toReal, returns])
  | false =>
    obtain rfl : b = a := Subtype.ext hb
    exact .var ha

theorem double_answers (ha : ρ x = .real s a) (hb : b.1 = Datum.add s E.mode a.1 a.1) :
    Answers T E ρ (.ok (.apply (realArith .add s) [x, x]) : Except Exn (ApplyResult ν β))
      (.value (.real s b)) := by
  obtain rfl : b = RealOf.arith .add E.mode a a := Subtype.ext hb
  exact .apply (by simp [eval, realBinary, ha, toReal, returns])

variable {r : RealX}

theorem Answers.real (h : v = .real r.size r.value) :
    Answers T E ρ (.ok (.const (.real r)) : Except Exn (ApplyResult ν β)) (.value v) :=
  ⟨_, rfl, by rw [h]; rfl⟩

/-- A NaN on either side. -/
theorem varReal_nan {inOrder : Bool} {v' : Value κ} (hr : r.decon T.disableCF = some .nan)
    (hv : v = .real r.size r.value ∨ v' = .real r.size r.value) (h : eval T E p [v, v'] = some o) :
    Answers T E ρ (.ok (varReal T p x r inOrder)) o := by
  have hnan : r.value.1 = .nan := RealX.value_of_decon hr
  obtain ⟨s, c⟩ := r
  have hside {a b : RealOf s} (hv : Value.real s a = (.real s c : Value κ) ∨
      Value.real s b = (.real s c : Value κ)) : a.1 = .nan ∨ b.1 = .nan := by
    rcases hv with hv | hv <;> cases hv
    · exact .inl hnan
    · exact .inr hnan
  have hsize {s' : RealSize} {a b : RealOf s'} (hv : Value.real s' a = (.real s c : Value κ) ∨
      Value.real s' b = (.real s c : Value κ)) : s' = s := by
    rcases hv with hv | hv <;> cases hv <;> rfl
  have hconst {y : RealOf s} (hy : y.1 = .nan) :
      Answers T E ρ (.ok (.const (.real ⟨s, c⟩)) : Except Exn (ApplyResult ν β))
        (.value (.real s y)) :=
    .real (by rw [Subtype.ext (hy.trans hnan.symm)])
  simp only [varReal, hr]
  cases p with
  | realArith op s' =>
    obtain ⟨a, b, rfl, rfl, rfl⟩ := realBinary_eq_some.1 h
    obtain rfl := hsize hv
    exact hconst (Datum.arith_nan (hside hv))
  | realMath f s' =>
    obtain ⟨a, b, rfl, rfl, rfl⟩ := realBinary_eq_some.1 h
    obtain rfl := hsize hv
    cases f with
    | atan2 => exact hconst (congrArg Subtype.val (T.libm.atan2_nan _ _ _ _ (hside hv)))
    | _ => exact .unknown
  | realCompare c' s' =>
    simp only [eval, Option.bind_eq_bind, Option.bind_eq_some_iff, toReal_eq_some] at h
    obtain ⟨a, rfl, b, rfl, h⟩ := h
    cases h
    obtain rfl := hsize hv
    rw [RealCompare.holds_nan (hside hv)]
    cases c' <;> exact .bool rfl
  | _ => exact .unknown

/-- A variable and a real on its right. -/
theorem varReal_right (h : eval T E p [ρ x, .real r.size r.value] = some o) :
    Answers T E ρ (.ok (varReal T p x r true)) o := by
  cases hr : r.decon T.disableCF with
  | none =>
    simp only [varReal, hr]
    exact .unknown
  | some d =>
    have hd := RealX.value_of_decon hr
    cases d with
    | nan => exact varReal_nan hr (.inr rfl) h
    | one c =>
      simp only [varReal, hr]
      cases p with
      | realArith op s =>
        obtain ⟨a, b, ha, hb, rfl⟩ := realBinary_eq_some.1 h
        cases hb
        cases op with
        | mul => exact negIf_answers ha ((congrArg _ hd).trans (Datum.mul_unit a.2 c))
        | div => exact negIf_answers ha ((congrArg _ hd).trans (Datum.div_unit a.2 c))
        | _ => exact .unknown
      | _ => exact .unknown
    | pow2 c exp =>
      simp only [varReal, hr]
      cases p with
      | realArith op s =>
        obtain ⟨a, b, ha, hb, rfl⟩ := realBinary_eq_some.1 h
        cases hb
        cases op with
        | mul =>
          dsimp only
          split_ifs with hc
          · obtain ⟨hc, rfl⟩ := hc
            exact double_answers ha (Datum.mul_two hd (by simpa using hc) rfl)
          · exact .unknown
        | div =>
          dsimp only
          split_ifs with hc
          · obtain ⟨hc, rfl⟩ := hc
            exact double_answers ha (Datum.div_half hd (by simpa using hc) rfl)
          · exact .unknown
        | _ => exact .unknown
      | _ => exact .unknown
    | _ =>
      simp only [varReal, hr]
      exact .unknown

theorem realMul_swap (h : eval T E (realArith .mul s : Prim ν) [v, v'] = some o) :
    eval T E (realArith .mul s : Prim ν) [v', v] = some o := by
  obtain ⟨a, b, rfl, rfl, rfl⟩ := realBinary_eq_some.1 h
  refine realBinary_eq_some.2 ⟨b, a, rfl, rfl, ?_⟩
  have hswap : RealOf.arith .mul E.mode b a = RealOf.arith .mul E.mode a b :=
    Subtype.ext (Datum.mul_swap b.1 a.1)
  rw [hswap]

/-- A variable and a real on its left: a product is as with the real on its right. -/
theorem varReal_left (h : eval T E p [.real r.size r.value, ρ x] = some o)
    (hsound : ¬ Misfolds T p ([.const (.real r), .var x] : List (ApplyArg κ β))) :
    Answers T E ρ (.ok (varReal T p x r false)) o := by
  by_cases hmul : ∃ s, p = realArith .mul s
  · obtain ⟨s, rfl⟩ := hmul
    exact varReal_right (realMul_swap h)
  cases hr : r.decon T.disableCF with
  | none =>
    simp only [varReal, hr]
    exact .unknown
  | some d =>
    cases d with
    | nan => exact varReal_nan hr (.inl rfl) h
    | pow2 c exp =>
      simp only [varReal, hr]
      cases p with
      | realArith op s =>
        cases op with
        | mul => exact absurd ⟨s, rfl⟩ hmul
        | div =>
          dsimp only
          split_ifs with hc
          · obtain ⟨hc, rfl⟩ := hc
            obtain ⟨_, _, hb, -, -⟩ := realBinary_eq_some.1 h
            cases hb
            obtain rfl : c = false := by simpa using hc
            exact absurd ⟨rfl, hr⟩ hsound
          · exact .unknown
        | _ => exact .unknown
      | _ => exact .unknown
    | one c =>
      simp only [varReal, hr]
      cases p with
      | realArith op s =>
        cases op with
        | mul => exact absurd ⟨s, rfl⟩ hmul
        | _ => exact .unknown
      | _ => exact .unknown
    | _ =>
      simp only [varReal, hr]
      exact .unknown

end Reals

/-! ### Integers -/

section IntBits

variable (i i' : ℤ)

theorem land_comm : land i i' = land i' i := by
  rcases i with m | m <;> rcases i' with n | n <;> simp [land, Nat.and_comm, Nat.or_comm]

theorem lor_comm : lor i i' = lor i' i := by
  rcases i with m | m <;> rcases i' with n | n <;> simp [lor, Nat.and_comm, Nat.or_comm]

theorem xor_comm : Int.xor i i' = Int.xor i' i := by
  rcases i with m | m <;> rcases i' with n | n <;> simp [Int.xor, Nat.xor_comm]

theorem land_zero : land i 0 = 0 := by
  rcases i with m | m
  · simp [land]
  · change ((Nat.ldiff 0 m : ℕ) : ℤ) = 0
    simp [Nat.ldiff]

theorem land_neg_one : land i (-1) = i := by
  rcases i with m | m
  · change ((Nat.ldiff m 0 : ℕ) : ℤ) = m
    simp [Nat.ldiff]
  · change Int.negSucc (m ||| 0) = _
    simp

theorem land_self : land i i = i := by
  rcases i with m | m <;> simp [land]

theorem lor_zero : lor i 0 = i := by
  rcases i with m | m
  · simp [lor]
  · change Int.negSucc (Nat.ldiff m 0) = _
    simp [Nat.ldiff]

theorem lor_neg_one : lor i (-1) = -1 := by
  rcases i with m | m
  · change Int.negSucc (Nat.ldiff 0 m) = _
    simp [Nat.ldiff]
  · change Int.negSucc (m &&& 0) = _
    simp

theorem lor_self : lor i i = i := by
  rcases i with m | m <;> simp [lor]

theorem xor_zero : Int.xor i 0 = i := by
  rcases i with m | m
  · simp [Int.xor]
  · change Int.negSucc (m ^^^ 0) = _
    simp

theorem xor_neg_one : Int.xor i (-1) = -i - 1 := by
  rcases i with m | m
  · change Int.negSucc (m ^^^ 0) = _
    simp [Int.negSucc_eq]
    omega
  · change ((m ^^^ 0 : ℕ) : ℤ) = _
    simp [Int.negSucc_eq]

theorem xor_self : Int.xor i i = 0 := by
  rcases i with m | m <;> simp [Int.xor]

theorem neg_one_ediv_two_pow (k : ℕ) : (-1 : ℤ) / 2 ^ k = -1 := by
  rw [Int.neg_one_ediv, Int.sign_eq_one_of_pos (by positivity)]

end IntBits

theorem varIntInf_of_toInt {x space : β} {i : ℤ} {inOrder : Bool}
    (h : -2 ^ 31 ≤ i ∧ i < 2 ^ 31 → Answers T E ρ (.ok (varIntInf p x i space inOrder)) o) :
    Answers T E ρ (.ok (varIntInf p x i space inOrder)) o := by
  by_cases hi : -2 ^ 31 ≤ i ∧ i < 2 ^ 31
  · exact h hi
  · rw [varIntInf, IntInf.toInt, if_neg hi]
    exact .unknown

/-- A variable, an `IntInf` on its right and the space for the result. -/
theorem varIntInf_right {x space : β} {i : ℤ} (h : eval T E p [ρ x, .intInf i, ρ space] = some o) :
    Answers T E ρ (.ok (varIntInf p x i space true)) o := by
  refine varIntInf_of_toInt fun hi => ?_
  rw [varIntInf, IntInf.toInt, if_pos hi]
  cases p with
  | intInfAdd | intInfAndb | intInfMul | intInfOrb | intInfSub | intInfXorb =>
    obtain ⟨j, i', hj, hi', rfl⟩ := intInfOp_eq_some.1 h
    cases hi'
    simp only [if_true]
    split_ifs
    all_goals first
      | exact .unknown
      | exact .var (by simp [*, land_neg_one, lor_zero, xor_zero])
      | exact .intInf (by simp [*, land_zero, lor_neg_one])
      | exact .apply (by simp [eval, toIntInf, returns, *, xor_neg_one])
  | intInfGcd =>
    obtain ⟨j, i', hj, hi', rfl⟩ := intInfOp_eq_some.1 h
    cases hi'
    dsimp only
    split_ifs with hunit
    · rcases hunit with rfl | rfl <;> exact .intInf (by simp)
    · exact .unknown
  | intInfQuot =>
    obtain ⟨j, i', hj, hi', -, rfl⟩ := intInfDivision_eq_some.1 h
    cases hi'
    simp only [if_true]
    split_ifs with h1 h2
    · exact .var (by simp [hj, h1])
    · exact .apply (by simp [eval, toIntInf, returns, hj, h2])
    · exact .unknown
  | intInfRem =>
    obtain ⟨j, i', hj, hi', -, rfl⟩ := intInfDivision_eq_some.1 h
    cases hi'
    simp only [true_and]
    split_ifs with hunit
    · rcases hunit with rfl | rfl <;> exact .intInf (by simp)
    · exact .unknown
  | intInfArshift | intInfLshift =>
    simp [eval, intInfShift_eq_some] at h
  | _ => exact .unknown

/-- A variable, an `IntInf` on its left and the space for the result. -/
theorem varIntInf_left {x space : β} {i : ℤ} (h : eval T E p [.intInf i, ρ x, ρ space] = some o) :
    Answers T E ρ (.ok (varIntInf p x i space false)) o := by
  refine varIntInf_of_toInt fun hi => ?_
  rw [varIntInf, IntInf.toInt, if_pos hi]
  cases p with
  | intInfAdd | intInfAndb | intInfMul | intInfOrb | intInfSub | intInfXorb =>
    obtain ⟨i', j, hi', hj, rfl⟩ := intInfOp_eq_some.1 h
    cases hi'
    simp only [Bool.false_eq_true, if_false, land_comm i j, lor_comm i j, xor_comm i j]
    split_ifs
    all_goals first
      | exact .unknown
      | exact .var (by simp [*, land_neg_one, lor_zero, xor_zero])
      | exact .intInf (by simp [*, land_zero, lor_neg_one])
      | exact .apply (by simp [eval, toIntInf, returns, *, xor_neg_one])
  | intInfGcd =>
    obtain ⟨i', j, hi', hj, rfl⟩ := intInfOp_eq_some.1 h
    cases hi'
    dsimp only
    split_ifs with hunit
    · rcases hunit with rfl | rfl <;> exact .intInf (by simp)
    · exact .unknown
  | intInfQuot | intInfRem =>
    simp only [Bool.false_eq_true, if_false, false_and]
    exact .unknown
  | intInfArshift | intInfLshift =>
    simp only [eval, intInfShift_eq_some] at h
    obtain ⟨i', k, hi', hk, rfl⟩ := h
    cases hi'
    dsimp only
    split_ifs
    all_goals first
      | exact .unknown
      | exact .intInf (by simp [*, neg_one_ediv_two_pow])
  | _ => exact .unknown

/-- A variable and a constant word, with the space for the result. -/
theorem varWord3_answers {x : β} {w : WordX} (h : eval T E p [ρ x, .ofWordX w, v] = some o) :
    Answers T E ρ (.ok (varWord3 p x w)) o := by
  unfold varWord3
  split_ifs with h0
  · cases p with
    | intInfArshift | intInfLshift =>
      simp only [eval, intInfShift_eq_some] at h
      obtain ⟨i, k, hi, hk, rfl⟩ := h
      obtain rfl := ofWordX_eq_word.1 hk
      simp only [isZero_ofBits, decide_eq_true_eq] at h0
      exact .var (by simp [hi, h0])
    | _ => exact .unknown
  · exact .unknown

/-! ### Equal variables and constructors -/

theorem sameVars3_answers {x : β} (h : eval T E p [ρ x, ρ x, v] = some o) :
    Answers T E ρ (.ok (sameVars3 p x)) o := by
  cases p with
  | intInfAndb | intInfOrb =>
    obtain ⟨i, i', hi, hi', rfl⟩ := intInfOp_eq_some.1 h
    cases hi.symm.trans hi'
    exact .var (by simp [hi, land_self, lor_self])
  | intInfSub | intInfXorb =>
    obtain ⟨i, i', hi, hi', rfl⟩ := intInfOp_eq_some.1 h
    cases hi.symm.trans hi'
    exact .intInf (by simp [xor_self])
  | intInfQuot | intInfRem =>
    obtain ⟨i, i', hi, hi', hne, rfl⟩ := intInfDivision_eq_some.1 h
    cases hi.symm.trans hi'
    exact .intInf (by simp [Int.tdiv_self hne, Int.tmod_self])
  | _ => exact .unknown

theorem sameVars_answers {x : β} (h : eval T E p [ρ x, ρ x] = some o) :
    Answers T E ρ (.ok (sameVars T p x)) o := by
  cases p with
  | cpointerDiff =>
    simp only [eval, Option.bind_eq_bind, Option.bind_eq_some_iff, toPointer_eq_some] at h
    obtain ⟨a, ha, b, hb, h⟩ := h
    cases ha.symm.trans hb
    cases h
    rw [sameVars, zero_eq]
    exact .word (by rw [BitVec.sub_self])
  | cpointerEqual | cpointerLt =>
    simp only [eval, Option.bind_eq_bind, Option.bind_eq_some_iff, toPointer_eq_some] at h
    obtain ⟨a, ha, b, hb, h⟩ := h
    cases ha.symm.trans hb
    cases h
    exact .bool (by simp [BitVec.ult])
  | intInfCompare =>
    simp only [eval, Option.bind_eq_bind, Option.bind_eq_some_iff, toIntInf_eq_some] at h
    obtain ⟨i, hi, i', hi', h⟩ := h
    cases hi.symm.trans hi'
    cases h
    rw [sameVars, zero_eq]
    exact .word (by rw [if_neg (lt_irrefl _), if_pos rfl]; rfl)
  | intInfEqual =>
    simp only [eval, Option.bind_eq_bind, Option.bind_eq_some_iff, toIntInf_eq_some] at h
    obtain ⟨i, hi, i', hi', h⟩ := h
    cases hi.symm.trans hi'
    cases h
    exact .bool (by simp)
  | mltonEq =>
    cases h
    exact .bool (by rw [E.eq_refl])
  | mltonEqual =>
    cases h
    exact .bool (by rw [E.equal_refl])
  | realCompare c s =>
    simp only [eval, Option.bind_eq_bind, Option.bind_eq_some_iff, toReal_eq_some] at h
    obtain ⟨a, ha, b, hb, h⟩ := h
    cases ha.symm.trans hb
    cases h
    cases c with
    | lt => exact .bool (by rw [(RealCompare.holds_self a.1).1])
    | qequal => exact .bool (by rw [(RealCompare.holds_self a.1).2])
    | _ => exact .unknown
  | wordAndb s | wordOrb s =>
    obtain ⟨a, b, ha, hb, rfl⟩ := wordBinary_eq_some.1 h
    cases ha.symm.trans hb
    exact .var (by simp [ha])
  | wordSub s | wordXorb s =>
    obtain ⟨a, b, ha, hb, rfl⟩ := wordBinary_eq_some.1 h
    cases ha.symm.trans hb
    simp only [sameVars, zero_eq]
    exact .word (by simp)
  | wordSubCheck s sg =>
    obtain ⟨a, b, ha, hb, hexact⟩ := wordChecked_eq_some.1 h
    cases ha.symm.trans hb
    simp only [sameVars, zero_eq]
    rw [checked_value (b := 0#s.bits) (by simp) hexact]
    exact .word rfl
  | wordEqual s | wordLt s sg =>
    obtain ⟨a, b, ha, hb, rfl⟩ := wordCompare_eq_some.1 h
    cases ha.symm.trans hb
    exact .bool (by simp [lt_eq_decide])
  | wordQuot s sg | wordRem s sg =>
    obtain ⟨a, b, ha, hb, hne, rfl⟩ := wordDivision_eq_some.1 h
    cases ha.symm.trans hb
    simp only [sameVars, zero_eq, one_eq]
    cases sg
    all_goals exact .word (by simp [BitVec.sdiv_self, BitVec.udiv_self, hne])
  | _ => exact .unknown

theorem sameCons_answers [DecidableEq κ] {c c' : Con κ} {arg arg' : Option ℕ}
    (hsize : c = c' → arg.isSome = arg'.isSome)
    (h : eval T E p [.con c arg, .con c' arg'] = some o) :
    Answers T E ρ (.ok (sameCons p c c' arg.isSome)) o := by
  cases p with
  | mltonEq | mltonEqual =>
    cases h
    simp only [sameCons]
    split_ifs with hc hsome
    · exact .unknown
    · subst hc
      obtain rfl : arg = none := by simpa using hsome
      obtain rfl : arg' = none := by simpa using hsize rfl
      exact .bool (by simp [E.eq_refl, E.equal_refl])
    · exact .bool (by simp [E.eq_con _ _ _ _ hc, E.equal_con _ _ _ _ hc])
  | _ => exact .unknown

/-! ### All rows -/

theorem Folds.answers {answer : Except Exn (ApplyResult ν β)} (h : Folds T E ρ answer o) :
    Answers T E ρ answer o := by
  obtain ⟨r, hr, hmeans, -⟩ := h
  exact ⟨r, hr, hmeans⟩

variable {args : List (ApplyArg κ β)}

theorem someVars_answers [DecidableEq κ] {declared : Con κ → Bool}
    {varEquals : β → β → Bool} {vs : List (Value κ)} (hρ : ∀ x y, varEquals x y = true → ρ x = ρ y)
    (hargs : List.Forall₂ (ArgMeans T declared ρ) args vs) (h : eval T E p vs = some o)
    (hsound : ¬ Misfolds T p args) : Answers T E ρ (someVars T p args varEquals) o := by
  unfold someVars
  split
  -- two constructors
  · obtain _ | ⟨⟨arg, rfl, rfl, hc⟩, _ | ⟨⟨arg', rfl, rfl, hc'⟩, _ | _⟩⟩ := hargs
    refine sameCons_answers (fun heq => ?_) h
    rw [hc, hc', heq]
  -- a variable and a real
  · obtain _ | ⟨rfl, _ | ⟨rfl, _ | _⟩⟩ := hargs
    exact varReal_right h
  · obtain _ | ⟨rfl, _ | ⟨rfl, _ | _⟩⟩ := hargs
    exact varReal_left h hsound
  -- a variable and a word
  · obtain _ | ⟨rfl, _ | ⟨rfl, _ | _⟩⟩ := hargs
    exact varWord_right h hsound
  · obtain _ | ⟨rfl, _ | ⟨rfl, _ | _⟩⟩ := hargs
    exact varWord_left h hsound
  -- constants, and a variable for the space
  · obtain _ | ⟨rfl, _ | ⟨rfl, _ | ⟨-, _ | _⟩⟩⟩ := hargs
    exact (intInfBinary_folds h).answers
  · obtain _ | ⟨rfl, _ | ⟨rfl, _ | ⟨-, _ | _⟩⟩⟩ := hargs
    exact (intInfShiftOrToString_folds h).answers
  · obtain _ | ⟨rfl, _ | ⟨-, _ | _⟩⟩ := hargs
    exact (intInfUnary_folds h).answers
  -- a variable and an integer
  · obtain _ | ⟨rfl, _ | ⟨rfl, _ | ⟨rfl, _ | _⟩⟩⟩ := hargs
    exact varIntInf_right h
  · obtain _ | ⟨rfl, _ | ⟨rfl, _ | ⟨rfl, _ | _⟩⟩⟩ := hargs
    exact varIntInf_left h
  · obtain _ | ⟨rfl, _ | ⟨rfl, _ | ⟨-, _ | _⟩⟩⟩ := hargs
    exact varWord3_answers h
  -- two variables
  · obtain _ | ⟨rfl, _ | ⟨rfl, _ | ⟨-, _ | _⟩⟩⟩ := hargs
    split_ifs with heq
    · rw [← hρ _ _ heq] at h
      exact sameVars3_answers h
    · exact .unknown
  · obtain _ | ⟨rfl, _ | ⟨rfl, _ | _⟩⟩ := hargs
    split_ifs with heq
    · rw [← hρ _ _ heq] at h
      exact sameVars_answers h
    · exact .unknown
  · exact .unknown

theorem constArgs_values {declared : Con κ → Bool}
    {vs : List (Value κ)} {cs : List Const} (hcs : constArgs args = some cs)
    (hargs : List.Forall₂ (ArgMeans T declared ρ) args vs) : vs = cs.map (constValue T) := by
  induction hargs generalizing cs with
  | nil =>
    cases hcs
    rfl
  | @cons a v args vs ha _ ih =>
    cases a with
    | const c =>
      obtain ⟨cs, htail, rfl⟩ := Option.map_eq_some_iff.1 hcs
      rw [ih htail, show v = constValue T c from ha]
      rfl
    | _ => cases hcs

theorem apply_sound [DecidableEq κ] {declared : Con κ → Bool}
    {varEquals : β → β → Bool} (hsound : ¬ Misfolds T p args) :
    Sound T E declared p args varEquals := by
  intro ρ hρ vs hargs o h
  unfold Prim.apply
  cases hcs : constArgs args with
  | none =>
    obtain ⟨r, hr, hmeans⟩ := someVars_answers hρ hargs h hsound
    exact ⟨r, hr, hmeans, fun hsome => nomatch hsome⟩
  | some cs =>
    obtain rfl := constArgs_values hcs hargs
    obtain ⟨r, hr, hmeans, hover⟩ := allConsts_folds (ρ := ρ) h
    exact ⟨r, hr, hmeans, fun _ => hover⟩

/-! ### The rows that are not sound -/

theorem dvd_of_rotateLeft_one {n k : ℕ} (hn : 0 < n) (h : (1#n).rotateLeft k = 1#n) : n ∣ k := by
  have hlt := Nat.mod_lt k hn
  have hbit : (1#n).getLsbD (k % n) = true := by
    rw [← h, BitVec.getLsbD_rotateLeft]
    simp [hlt, hn]
  simp only [BitVec.getLsbD_one, Bool.and_eq_true, decide_eq_true_eq] at hbit
  exact Nat.dvd_of_mod_eq_zero hbit.2

theorem dvd_of_rotateRight_one {n k : ℕ} (hn : 0 < n) (h : (1#n).rotateRight k = 1#n) :
    n ∣ k := by
  have hlt := Nat.mod_lt k hn
  by_contra hdvd
  have hpos : k % n ≠ 0 := fun h0 => hdvd (Nat.dvd_of_mod_eq_zero h0)
  have hbit : (1#n).getLsbD (n - k % n) = true := by
    rw [← h, BitVec.getLsbD_rotateRight]
    simp [hn]
    omega
  simp only [BitVec.getLsbD_one, Bool.and_eq_true, decide_eq_true_eq] at hbit
  omega

theorem exists_ofBits {w : WordX} (h : w.size = s) : ∃ b, w = ofBits s b := by
  subst h
  exact ⟨w.bv, (ofBits_bv w).symm⟩

/-- The product of minus one with itself does not fit in one bit. -/
theorem mulCheck_one_bit (hs : s.bits = 1) :
    exactly s true (sgInt 1#s.bits true * sgInt 1#s.bits true) =
      some (.overflow : Outcome κ) := by
  obtain ⟨n, _, _⟩ := s
  obtain rfl : n = 1 := hs
  rfl

/-- Subtracting one from zero overflows without a sign, and with a sign from two bits on it does
not. -/
theorem subCheck_zero_one (s : WordSize) :
    exactly s false (-sgInt 1#s.bits false) = some (.overflow : Outcome κ) := by
  have hone : sgInt 1#s.bits false = 1 := sgInt_one s (fun h => nomatch h)
  rw [exactly, if_neg]
  simp [Fits, hone]

theorem negCheck_one (hs : s.bits ≠ 1) : exactly s true (-1) ≠ some (.overflow : Outcome κ) := by
  have hpos := s.pos
  have hpow : (2 : ℤ) ≤ 2 ^ (s.bits - 1) := by
    calc (2 : ℤ) = 2 ^ 1 := by norm_num
      _ ≤ 2 ^ (s.bits - 1) := pow_le_pow_right₀ (by norm_num) (by omega)
  rw [exactly, if_pos]
  · exact fun h => nomatch h
  · simp only [Fits, if_true]
    omega

theorem ofBits_of_value_one {b : BitVec s.bits} (h : (ofBits s b).value = 1) : b = 1#s.bits := by
  have hone : (ofBits s b).isOne = true := by rw [isOne, h]; rfl
  simpa using hone

theorem ofBits_of_value_zero {b : BitVec s.bits} (h : (ofBits s b).value = 0) : b = 0#s.bits := by
  have hzero : (ofBits s b).isZero = true := by rw [isZero, h]; rfl
  simpa using hzero

section Unsound

variable [DecidableEq κ] {declared : Con κ → Bool} {varEquals : β → β → Bool} {x : β}

/-- A sound answer, where the variable is one. -/
theorem Sound.right {w : WordX} {r : ApplyResult ν β}
    (h : Sound T E declared p [.var x, .const (.word w)] varEquals)
    (hr : varWord p x w true = .ok r) (ho : eval T E p [.word s 1#s.bits, .ofWordX w] = some o) :
    ResultMeans T E (fun _ => .word s 1#s.bits) r o := by
  obtain ⟨r', hr', hmeans, -⟩ := h (fun _ => .word s 1#s.bits) (fun _ _ _ => rfl)
    [.word s 1#s.bits, .ofWordX w] (.cons rfl (.cons rfl .nil)) o ho
  have happly : Prim.apply T p [(.var x : ApplyArg κ β), .const (.word w)] varEquals =
      varWord p x w true := rfl
  obtain rfl : r = r' := Except.ok.inj (hr.symm.trans (happly.symm.trans hr'))
  exact hmeans

theorem Sound.left {w : WordX} {r : ApplyResult ν β}
    (h : Sound T E declared p [.const (.word w), .var x] varEquals)
    (hr : varWord p x w false = .ok r) (ho : eval T E p [.ofWordX w, .word s 1#s.bits] = some o) :
    ResultMeans T E (fun _ => .word s 1#s.bits) r o := by
  obtain ⟨r', hr', hmeans, -⟩ := h (fun _ => .word s 1#s.bits) (fun _ _ _ => rfl)
    [.ofWordX w, .word s 1#s.bits] (.cons rfl (.cons rfl .nil)) o ho
  have happly : Prim.apply T p [(.const (.word w) : ApplyArg κ β), .var x] varEquals =
      varWord p x w false := rfl
  obtain rfl : r = r' := Except.ok.inj (hr.symm.trans (happly.symm.trans hr'))
  exact hmeans

/-- Where the variable is one, the answer is wrong. -/
theorem not_sound_of_misfolds (h : Misfolds T p args) : ¬ Sound T E declared p args varEquals := by
  intro hsound
  unfold Misfolds at h
  split at h
  · next s x w =>
    obtain ⟨hsize, h32, hs⟩ := h
    obtain ⟨k, rfl⟩ := exists_ofBits hsize
    rw [ofBits_value, natCast_dvd_natCast] at hs
    have hr : varWord (wordRol s : Prim ν) x (ofBits .shiftArg k) true = .ok (.var x) := by
      rw [varWord, varRo_eq, if_pos (natCast_dvd_natCast.1 h32)]
    have hmeans := hsound.right (s := s) hr (by
      simp [eval, wordShift, toWord, returns]
      rfl)
    simp only [ResultMeans, Outcome.value.injEq, Value.word.injEq, heq_eq_eq, true_and] at hmeans
    exact hs (dvd_of_rotateLeft_one s.pos hmeans)
  · next s x w =>
    obtain ⟨hsize, h32, hs⟩ := h
    obtain ⟨k, rfl⟩ := exists_ofBits hsize
    rw [ofBits_value, natCast_dvd_natCast] at hs
    have hr : varWord (wordRor s : Prim ν) x (ofBits .shiftArg k) true = .ok (.var x) := by
      rw [varWord, varRo_eq, if_pos (natCast_dvd_natCast.1 h32)]
    have hmeans := hsound.right (s := s) hr (by
      simp [eval, wordShift, toWord, returns]
      rfl)
    simp only [ResultMeans, Outcome.value.injEq, Value.word.injEq, heq_eq_eq, true_and] at hmeans
    exact hs (dvd_of_rotateRight_one s.pos hmeans)
  · next s w x =>
    obtain ⟨hsize, hw, hs⟩ := h
    obtain ⟨b, rfl⟩ := exists_ofBits hsize
    obtain rfl := ofBits_of_value_zero hw
    have hmeans := hsound.left (s := s) (r := .apply (wordNegCheck s) [x]) (o := .overflow)
      (by simp [varWord, varSub])
      (by simp [eval, wordChecked, toWord, subCheck_zero_one])
    have hone : (1#s.bits).toInt = sgInt 1#s.bits true := rfl
    simp [ResultMeans, eval, toWord, hone, sgInt_one s (fun _ => hs), negCheck_one hs] at hmeans
  · next s x w =>
    obtain ⟨hsize, hw, hs⟩ := h
    obtain ⟨b, rfl⟩ := exists_ofBits hsize
    obtain rfl := ofBits_of_value_one hw
    have hmeans := hsound.right (s := s) (r := .var x) (o := .overflow)
      (by simp [varWord, varMul, s.pos.ne'])
      (by simp [eval, wordChecked, toWord, mulCheck_one_bit hs])
    cases hmeans
  · next s w x =>
    obtain ⟨hsize, hw, hs⟩ := h
    obtain ⟨b, rfl⟩ := exists_ofBits hsize
    obtain rfl := ofBits_of_value_one hw
    have hmeans := hsound.left (s := s) (r := .var x) (o := .overflow)
      (by simp [varWord, varMul, s.pos.ne'])
      (by simp [eval, wordChecked, toWord, mulCheck_one_bit hs])
    cases hmeans
  -- one half divided by infinity is zero
  · next s r x =>
    obtain ⟨rfl, hr⟩ := h
    have hhalf : r.value.1 = .fin false (1 / 2) := by
      have hd : r.value.1 = .fin false (2 ^ ((0 : ℤ) - 1)) := RealX.value_of_decon hr
      simpa using hd
    let inf : RealOf r.size := ⟨.inf false, trivial⟩
    have hquot : RealOf.arith .div E.mode r.value inf = ⟨.fin false 0, r.size.representable_zero⟩ :=
      Subtype.ext (congrArg (Datum.div r.size E.mode · inf.1) hhalf)
    obtain ⟨r', hr', hmeans, -⟩ := hsound (fun _ => .real r.size inf) (fun _ _ _ => rfl)
      [.real r.size r.value, .real r.size inf] (.cons rfl (.cons rfl .nil))
      (.value (.real r.size ⟨.fin false 0, r.size.representable_zero⟩))
      (by simp [eval, realBinary, toReal, returns, hquot])
    have happly : Prim.apply T (realArith .div r.size : Prim ν)
        [(.const (.real r) : ApplyArg κ β), .var x] varEquals =
          .ok (.apply (realArith .add r.size) [x, x]) := by
      change Except.ok (varReal T _ x r false) = _
      simp [varReal, hr]
    obtain rfl := Except.ok.inj (happly.symm.trans hr')
    simp [ResultMeans, eval, realBinary, toReal, returns, inf] at hmeans
    cases hmeans
  · exact h

end Unsound

end Variables

end Prim

end MultiMLton.Atoms
