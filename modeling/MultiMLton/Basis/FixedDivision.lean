import MultiMLton.Basis.TaggedWord

/-!
# Division of integers of a fixed width

`quot`, `rem`, `div` and `mod` of the functor `MkNum0` of `integer/num0.sml`, with what the functor
gets as parameters: the flags of `Primitive.Controls` and the operations that wrap around.

* `quotUnsafe`, `remUnsafe`: undefined for a divisor of zero and for the least integer divided by
  `~1`;
* `Wrapping`: operations that are exact where the result fits; `wrapping` are the primitives, and for
  `noWrap` a result that does not fit is undefined;
* `division_exact`: the operations are exact, whichever of these are taken.
-/

namespace MultiMLton.Basis

open MultiMLton.Lib BitVec Int

/-- How an operation may fail to return. -/
inductive Fault
  | undefined
  | raise (e : Exn)
  deriving DecidableEq

/-- `Primitive.Controls` -/
structure Controls where
  safe : Bool
  detectOverflow : Bool

namespace FixedInt

variable {n : ℕ}

/-- The integers of the width. -/
def InRange (n : ℕ) (i : ℤ) : Prop := -2 ^ (n - 1) ≤ i ∧ i < 2 ^ (n - 1)

instance (n : ℕ) (i : ℤ) : Decidable (InRange n i) := inferInstanceAs (Decidable (_ ∧ _))

/-- `+?` and `-?` -/
structure Wrapping (n : ℕ) where
  add : BitVec n → BitVec n → Except Fault (BitVec n)
  sub : BitVec n → BitVec n → Except Fault (BitVec n)
  add_eq : ∀ x y, InRange n (x.toInt + y.toInt) → add x y = .ok (x + y)
  sub_eq : ∀ x y, InRange n (x.toInt - y.toInt) → sub x y = .ok (x - y)

/-- The primitives. -/
def wrapping (n : ℕ) : Wrapping n where
  add x y := .ok (x + y)
  sub x y := .ok (x - y)
  add_eq _ _ _ := rfl
  sub_eq _ _ _ := rfl

/-- Wrapping around is not defined. -/
def noWrap (n : ℕ) : Wrapping n where
  add x y := if InRange n (x.toInt + y.toInt) then .ok (x + y) else .error .undefined
  sub x y := if InRange n (x.toInt - y.toInt) then .ok (x - y) else .error .undefined
  add_eq _ _ h := if_pos h
  sub_eq _ _ h := if_pos h

/-! ### The code -/

/-- An operation that checks for overflow. -/
def checked (i : ℤ) : Except Fault (BitVec n) :=
  if InRange n i then .ok (.ofInt n i) else .error (.raise .overflow)

/-- `WordS<n>_quot` -/
def quotUnsafe (x y : BitVec n) : Except Fault (BitVec n) :=
  if y = 0 ∨ (x = BitVec.intMin n ∧ y = -1) then .error .undefined else .ok (x.sdiv y)

/-- `WordS<n>_rem` -/
def remUnsafe (x y : BitVec n) : Except Fault (BitVec n) :=
  if y = 0 ∨ (x = BitVec.intMin n ∧ y = -1) then .error .undefined else .ok (x.srem y)

def zero : BitVec n := 0

def one : BitVec n := 1

/-- `<<? (one, sizeInBitsWord - 0w1)` -/
def minInt' : BitVec n := one <<< (n - 1)

section

variable (c : Controls) (a : Wrapping n)

/-- `+` -/
def add (x y : BitVec n) : Except Fault (BitVec n) :=
  if c.detectOverflow then checked (x.toInt + y.toInt) else .ok (x + y)

/-- `~` -/
def neg (x : BitVec n) : Except Fault (BitVec n) :=
  if c.detectOverflow then checked (-x.toInt) else .ok (-x)

def quot (x y : BitVec n) : Except Fault (BitVec n) := do
  if c.safe ∧ y = zero then throw (.raise .div)
  else if (c.detectOverflow ∨ c.safe) ∧ x = minInt' ∧ y = (← neg c one) then
    if c.detectOverflow then throw (.raise .overflow) else return minInt'
  else quotUnsafe x y

def rem (x y : BitVec n) : Except Fault (BitVec n) := do
  if c.safe ∧ y = zero then throw (.raise .div)
  else if x = minInt' ∧ y = (← neg c one) then return zero
  else remUnsafe x y

def div (x y : BitVec n) : Except Fault (BitVec n) := do
  if zero.sle x then
    if zero.slt y then quotUnsafe x y
    else if y.slt zero then
      if x = zero then return zero
      else a.sub (← quotUnsafe (← a.sub x one) y) one
    else throw (.raise .div)
  else if y.slt zero then
    if (c.detectOverflow ∨ c.safe) ∧ x = minInt' ∧ y = (← neg c one) then
      if c.detectOverflow then throw (.raise .overflow) else return minInt'
    else quotUnsafe x y
  else if zero.slt y then a.sub (← quotUnsafe (← a.add x one) y) one
  else throw (.raise .div)

def mod (x y : BitVec n) : Except Fault (BitVec n) := do
  if zero.sle x then
    if zero.slt y then remUnsafe x y
    else if y.slt zero then
      if x = zero then return zero
      else a.add (← remUnsafe (← a.sub x one) y) (← add c y one)
    else throw (.raise .div)
  else if y.slt zero then
    if x = minInt' ∧ y = (← neg c one) then return zero
    else remUnsafe x y
  else if zero.slt y then a.add (← remUnsafe (← a.add x one) y) (← a.sub y one)
  else throw (.raise .div)

end

/-! ### The operations -/

section

variable (hn : 2 ≤ n)

include hn

theorem two_le_half : (2 : ℤ) ≤ 2 ^ (n - 1) := by
  obtain ⟨k, rfl⟩ := Nat.exists_eq_add_of_le hn
  have hone : (1 : ℤ) ≤ 2 ^ k := one_le_pow₀ (by norm_num)
  have hpow : (2 : ℤ) ^ (2 + k - 1) = 2 * 2 ^ k := by
    rw [show 2 + k - 1 = k + 1 by omega, pow_succ]
    ring
  omega

omit hn in
theorem inRange_toInt (x : BitVec n) : InRange n x.toInt :=
  ⟨le_toInt x, toInt_lt⟩

theorem toInt_ofInt {i : ℤ} (h : InRange n i) : (BitVec.ofInt n i).toInt = i :=
  toInt_ofInt_eq_self (by omega) h.1 h.2

theorem toInt_one : (one : BitVec n).toInt = 1 := one_toInt hn

variable {x y : BitVec n}

theorem toInt_add (h : InRange n (x.toInt + y.toInt)) : (x + y).toInt = x.toInt + y.toInt := by
  rw [← toInt_ofInt hn h, BitVec.ofInt_add, BitVec.ofInt_toInt, BitVec.ofInt_toInt]

theorem toInt_sub (h : InRange n (x.toInt - y.toInt)) : (x - y).toInt = x.toInt - y.toInt := by
  rw [← toInt_ofInt hn h, Int.sub_eq_add_neg, BitVec.ofInt_add, BitVec.ofInt_neg, BitVec.ofInt_toInt,
    BitVec.ofInt_toInt, BitVec.sub_eq_add_neg]

omit hn in
theorem minInt'_eq : (minInt' : BitVec n) = intMin n :=
  (twoPow_eq n (n - 1)).symm

theorem toInt_minInt' : (minInt' : BitVec n).toInt = -2 ^ (n - 1) := by
  have hlo : InRange n (-2 ^ (n - 1)) := by
    have := two_le_half hn
    exact ⟨le_rfl, by omega⟩
  rw [minInt'_eq, intMin_eq_neg_two_pow, toInt_ofInt hn hlo]

theorem toInt_neg_one : (-1 : BitVec n).toInt = -1 := by
  have hhalf := two_le_half hn
  have hone : InRange n (-1) := ⟨by omega, by omega⟩
  have heq : (-1 : BitVec n) = BitVec.ofInt n (-1) := by
    rw [BitVec.ofInt_neg]
    rfl
  rw [heq, toInt_ofInt hn hone]

theorem neg_one : neg ⟨true, true⟩ (one : BitVec n) = .ok (-1) := by
  have hhalf := two_le_half hn
  have hone : InRange n (-1) := ⟨by omega, by omega⟩
  rw [neg, if_pos rfl, toInt_one hn, checked, if_pos hone, BitVec.ofInt_neg]
  rfl

/-- The least integer divided by `~1`. -/
theorem least_iff : x = minInt' ∧ y = -1 ↔ x.toInt = -2 ^ (n - 1) ∧ y.toInt = -1 := by
  rw [← toInt_minInt' hn, ← toInt_neg_one hn, toInt_inj, toInt_inj]

omit hn in
theorem eq_zero_iff {x : BitVec n} : x = zero ↔ x.toInt = 0 := by
  rw [← toInt_inj, zero]
  simp

omit hn in
/-- An operation returns a certain integer. -/
def Returns (r : Except Fault (BitVec n)) (i : ℤ) : Prop := ∃ w, r = .ok w ∧ w.toInt = i

theorem unsafe_ok (hy : y.toInt ≠ 0) (hleast : ¬ (x.toInt = -2 ^ (n - 1) ∧ y.toInt = -1)) :
    Returns (quotUnsafe x y) (x.toInt.tdiv y.toInt) ∧
      Returns (remUnsafe x y) (x.toInt.tmod y.toInt) := by
  rw [← least_iff hn, minInt'_eq] at hleast
  have hdefined : ¬ (y = 0 ∨ (x = intMin n ∧ y = -1)) := by
    rintro (hzero | hmin)
    · exact hy (eq_zero_iff.1 hzero)
    · exact hleast hmin
  exact ⟨⟨_, if_neg hdefined, toInt_sdiv_of_ne_or_ne x y (not_and_or.1 hleast)⟩,
    ⟨_, if_neg hdefined, toInt_srem x y⟩⟩

variable (a : Wrapping n)

theorem Wrapping.add_returns (h : InRange n (x.toInt + y.toInt)) :
    Returns (a.add x y) (x.toInt + y.toInt) := ⟨_, a.add_eq x y h, toInt_add hn h⟩

theorem Wrapping.sub_one (h : -2 ^ (n - 1) < x.toInt) : Returns (a.sub x one) (x.toInt - 1) := by
  obtain ⟨-, hhi⟩ := inRange_toInt x
  have hrange : InRange n (x.toInt - (one : BitVec n).toInt) := by
    rw [toInt_one hn]
    exact ⟨by omega, by omega⟩
  exact ⟨_, a.sub_eq x one hrange, by rw [toInt_sub hn hrange, toInt_one hn]⟩

theorem Wrapping.add_one (h : x.toInt + 1 < 2 ^ (n - 1)) : Returns (a.add x one) (x.toInt + 1) := by
  obtain ⟨hlo, -⟩ := inRange_toInt x
  rw [← toInt_one hn]
  exact a.add_returns hn (by rw [toInt_one hn]; exact ⟨by omega, h⟩)

/-! ### Results -/

/-- The operations with both flags set, without the nested bindings. -/
theorem quot_eq (x y : BitVec n) : quot ⟨true, true⟩ x y =
    if y = zero then .error (.raise .div)
    else if x = minInt' ∧ y = -1 then .error (.raise .overflow)
    else quotUnsafe x y := by
  simp only [quot, neg_one hn, true_and, true_or, if_true]
  rfl

theorem rem_eq (x y : BitVec n) : rem ⟨true, true⟩ x y =
    if y = zero then .error (.raise .div)
    else if x = minInt' ∧ y = -1 then .ok zero
    else remUnsafe x y := by
  simp only [rem, neg_one hn, true_and]
  rfl

theorem div_eq (x y : BitVec n) : div ⟨true, true⟩ a x y =
    if zero.sle x then
      if zero.slt y then quotUnsafe x y
      else if y.slt zero then
        if x = zero then .ok zero
        else (a.sub x one).bind fun x' => (quotUnsafe x' y).bind fun q => a.sub q one
      else .error (.raise .div)
    else if y.slt zero then
      if x = minInt' ∧ y = -1 then .error (.raise .overflow) else quotUnsafe x y
    else if zero.slt y then
      (a.add x one).bind fun x' => (quotUnsafe x' y).bind fun q => a.sub q one
    else .error (.raise .div) := by
  simp only [div, neg_one hn, true_and, true_or, if_true]
  rfl

theorem mod_eq (x y : BitVec n) : mod ⟨true, true⟩ a x y =
    if zero.sle x then
      if zero.slt y then remUnsafe x y
      else if y.slt zero then
        if x = zero then .ok zero
        else (a.sub x one).bind fun x' => (remUnsafe x' y).bind fun r =>
          (checked (y.toInt + (one : BitVec n).toInt)).bind fun y' => a.add r y'
      else .error (.raise .div)
    else if y.slt zero then
      if x = minInt' ∧ y = -1 then .ok zero else remUnsafe x y
    else if zero.slt y then
      (a.add x one).bind fun x' => (remUnsafe x' y).bind fun r => (a.sub y one).bind fun y' =>
        a.add r y'
    else .error (.raise .div) := by
  simp only [mod, neg_one hn, add, if_true]
  rfl

omit hn in
theorem zero_sle_iff {x : BitVec n} : zero.sle x = true ↔ 0 ≤ x.toInt := by
  simp [BitVec.sle, zero]

omit hn in
theorem zero_slt_iff {x : BitVec n} : zero.slt x = true ↔ 0 < x.toInt := by
  simp [BitVec.slt, zero]

omit hn in
theorem slt_zero_iff {x : BitVec n} : x.slt zero = true ↔ x.toInt < 0 := by
  simp [BitVec.slt, zero]

theorem quot_returns (hy : y.toInt ≠ 0) (hleast : ¬ (x.toInt = -2 ^ (n - 1) ∧ y.toInt = -1)) :
    Returns (quot ⟨true, true⟩ x y) (x.toInt.tdiv y.toInt) := by
  rw [quot_eq hn, if_neg (fun h => hy (eq_zero_iff.1 h)), if_neg (mt (least_iff hn).1 hleast)]
  exact (unsafe_ok hn hy hleast).1

/-- The remainder of the least integer is zero, without a division. -/
theorem remOrZero_returns (hy : y.toInt ≠ 0) :
    Returns (if x = minInt' ∧ y = -1 then .ok zero else remUnsafe x y) (x.toInt.tmod y.toInt) := by
  by_cases hleast : x.toInt = -2 ^ (n - 1) ∧ y.toInt = -1
  · refine ⟨zero, if_pos ((least_iff hn).2 hleast), ?_⟩
    rw [hleast.2, eq_zero_iff.1 rfl]
    simp
  · rw [if_neg (mt (least_iff hn).1 hleast)]
    exact (unsafe_ok hn hy hleast).2

theorem rem_returns (hy : y.toInt ≠ 0) : Returns (rem ⟨true, true⟩ x y) (x.toInt.tmod y.toInt) := by
  rw [rem_eq hn, if_neg (fun h => hy (eq_zero_iff.1 h))]
  exact remOrZero_returns hn hy

/-- The quotient of a number that is nearer to zero, minus one. -/
theorem shifted_quot {r : Except Fault (BitVec n)} {i : ℤ} (hr : Returns r i) (hy : y.toInt ≠ 0)
    (hi : (i.natAbs : ℤ) < 2 ^ (n - 1)) :
    Returns (r.bind fun x' => (quotUnsafe x' y).bind fun q => a.sub q one) (i.tdiv y.toInt - 1) := by
  obtain ⟨x', rfl, rfl⟩ := hr
  obtain ⟨q, hq, hqi⟩ := (unsafe_ok hn (x := x') hy fun h => by omega).1
  have hle := natAbs_tdiv_le_natAbs x'.toInt y.toInt
  rw [← hqi] at hle ⊢
  simp only [Except.bind, hq]
  exact a.sub_one hn (by omega)

/-- The same for the remainder, plus a number that moves it to the other side of zero. -/
theorem shifted_rem {r s : Except Fault (BitVec n)} {i j : ℤ} (hr : Returns r i) (hs : Returns s j)
    (hy : y.toInt ≠ 0) (hi : (i.natAbs : ℤ) < 2 ^ (n - 1)) (hsum : InRange n (i.tmod y.toInt + j)) :
    Returns (r.bind fun x' => (remUnsafe x' y).bind fun m => s.bind fun y' => a.add m y')
      (i.tmod y.toInt + j) := by
  obtain ⟨x', rfl, rfl⟩ := hr
  obtain ⟨y', rfl, rfl⟩ := hs
  obtain ⟨m, hm, hmi⟩ := (unsafe_ok hn (x := x') hy fun h => by omega).2
  rw [← hmi] at hsum ⊢
  simp only [Except.bind, hm]
  exact a.add_returns hn hsum

theorem div_returns (hy : y.toInt ≠ 0) (hleast : ¬ (x.toInt = -2 ^ (n - 1) ∧ y.toInt = -1)) :
    Returns (div ⟨true, true⟩ a x y) (x.toInt.fdiv y.toInt) := by
  obtain ⟨hlo, hhi⟩ := inRange_toInt x
  have hquot := (unsafe_ok hn hy hleast).1
  rw [div_eq hn, (fdiv_fmod_eq x.toInt hy).1]
  simp only [zero_sle_iff, zero_slt_iff, slt_zero_iff, eq_zero_iff, least_iff hn, if_neg hleast]
  rcases lt_or_gt_of_ne hy with hneg | hpos
  · simp only [hneg, not_lt.2 hneg.le, if_true, if_false]
    split_ifs with hx hzero
    · exact ⟨zero, rfl, eq_zero_iff.1 rfl⟩
    · exact shifted_quot hn a (a.sub_one hn (by omega)) hy (by omega)
    · exact hquot
  · simp only [hpos, not_lt.2 hpos.le, if_true, if_false]
    split_ifs with hx
    · exact hquot
    · exact shifted_quot hn a (a.add_one hn (by omega)) hy (by omega)

theorem mod_returns (hy : y.toInt ≠ 0) :
    Returns (mod ⟨true, true⟩ a x y) (x.toInt.fmod y.toInt) := by
  obtain ⟨hlo, hhi⟩ := inRange_toInt x
  obtain ⟨hylo, hyhi⟩ := inRange_toInt y
  have hrem := remOrZero_returns hn (x := x) hy
  rw [mod_eq hn, (fdiv_fmod_eq x.toInt hy).2]
  have heq := (fdiv_fmod_eq x.toInt hy).2
  rcases lt_or_gt_of_ne hy with hneg | hpos
  · -- the remainder is between the divisor and zero
    obtain ⟨-, hlt, hnonpos⟩ := (Int.fdiv_fmod_unique' (a := x.toInt) hneg).1 ⟨rfl, rfl⟩
    rw [heq] at hlt hnonpos
    simp only [zero_sle_iff, zero_slt_iff, slt_zero_iff, eq_zero_iff, hneg, not_lt.2 hneg.le, if_true,
      if_false] at hlt hnonpos ⊢
    split_ifs at hlt hnonpos ⊢ with hx hzero hleast
    · exact ⟨zero, rfl, eq_zero_iff.1 rfl⟩
    · have hsucc : Returns (n := n) (checked (y.toInt + (one : BitVec n).toInt)) (1 + y.toInt) := by
        rw [toInt_one hn, add_comm]
        have hone : InRange n (1 + y.toInt) := ⟨by omega, by omega⟩
        exact ⟨_, if_pos hone, toInt_ofInt hn hone⟩
      exact shifted_rem hn a (a.sub_one hn (by omega)) hsucc hy (by omega) ⟨by omega, by omega⟩
    · rwa [if_pos hleast] at hrem
    · rwa [if_neg hleast] at hrem
  · have hnonneg := fmod_nonneg_of_pos x.toInt hpos
    have hlt := fmod_lt_of_pos x.toInt hpos
    rw [heq] at hlt hnonneg
    simp only [zero_sle_iff, zero_slt_iff, slt_zero_iff, hpos, not_lt.2 hpos.le, if_true,
      if_false] at hlt hnonneg ⊢
    split_ifs at hlt hnonneg ⊢ with hx
    · exact (unsafe_ok hn hy fun h => by omega).2
    · exact shifted_rem hn a (a.add_one hn (by omega)) (a.sub_one hn (by omega)) hy (by omega)
        ⟨by omega, by omega⟩

/-- A divisor of zero. -/
theorem raise_div (hy : y.toInt = 0) :
    quot ⟨true, true⟩ x y = .error (.raise .div) ∧ rem ⟨true, true⟩ x y = .error (.raise .div) ∧
      div ⟨true, true⟩ a x y = .error (.raise .div) ∧ mod ⟨true, true⟩ a x y = .error (.raise .div) := by
  have hzero := eq_zero_iff.2 hy
  have hslt : ¬ zero.slt y = true := mt zero_slt_iff.1 (by omega)
  have hslt' : ¬ y.slt zero = true := mt slt_zero_iff.1 (by omega)
  refine ⟨by rw [quot_eq hn, if_pos hzero], by rw [rem_eq hn, if_pos hzero], ?_, ?_⟩
  · rw [div_eq hn]
    simp only [hslt, hslt', if_false, ite_self, Bool.false_eq_true]
  · rw [mod_eq hn]
    simp only [hslt, hslt', if_false, ite_self, Bool.false_eq_true]

/-- The least integer divided by `~1`. -/
theorem raise_overflow (hleast : x = minInt' ∧ y = -1) :
    quot ⟨true, true⟩ x y = .error (.raise .overflow) ∧
      div ⟨true, true⟩ a x y = .error (.raise .overflow) := by
  obtain ⟨hx, hy⟩ := (least_iff hn).1 hleast
  have hhalf := two_le_half hn
  have hzero : ¬ y = zero := fun h => by
    rw [eq_zero_iff.1 h] at hy
    omega
  refine ⟨by rw [quot_eq hn, if_neg hzero, if_pos hleast], ?_⟩
  rw [div_eq hn, if_neg (mt zero_sle_iff.1 (by omega)), if_pos (slt_zero_iff.2 (by omega)),
    if_pos hleast]

omit hn in
theorem Returns.ne_error {r : Except Fault (BitVec n)} {i : ℤ} (h : Returns r i) (e : Fault) :
    r ≠ .error e := by
  obtain ⟨w, rfl, -⟩ := h
  exact nofun

/-- With overflow detection and safety on, division raises `Div` for a divisor of zero, `Overflow` for
a quotient that does not fit, and is exact otherwise; nothing that is done on the way wraps around or
is undefined. -/
theorem division_exact (x y : BitVec n) :
    let c : Controls := ⟨true, true⟩
    ((quot c x y = .error (.raise .div) ↔ y = zero) ∧ (rem c x y = .error (.raise .div) ↔ y = zero) ∧
      (div c a x y = .error (.raise .div) ↔ y = zero) ∧
      (mod c a x y = .error (.raise .div) ↔ y = zero)) ∧
    ((quot c x y = .error (.raise .overflow) ↔ x = minInt' ∧ y = -1) ∧
      (div c a x y = .error (.raise .overflow) ↔ x = minInt' ∧ y = -1)) ∧
    (y ≠ zero → Returns (rem c x y) (x.toInt.tmod y.toInt) ∧
      Returns (mod c a x y) (x.toInt.fmod y.toInt)) ∧
    (y ≠ zero → ¬ (x = minInt' ∧ y = -1) → Returns (quot c x y) (x.toInt.tdiv y.toInt) ∧
      Returns (div c a x y) (x.toInt.fdiv y.toInt)) ∧
    x.toInt = x.toInt.tdiv y.toInt * y.toInt + x.toInt.tmod y.toInt ∧
    x.toInt = x.toInt.fdiv y.toInt * y.toInt + x.toInt.fmod y.toInt := by
  have hzero : y = zero ↔ y.toInt = 0 := eq_zero_iff
  have hleast : x = minInt' ∧ y = -1 ↔ x.toInt = -2 ^ (n - 1) ∧ y.toInt = -1 := least_iff hn
  have hraise (hy : y.toInt = 0) := raise_div hn a (x := x) hy
  have hoverflow (h : x = minInt' ∧ y = -1) := raise_overflow hn a h
  have hne {r : Except Fault (BitVec n)} {i : ℤ} {e : Fault} (h : Returns r i) : r ≠ .error e :=
    h.ne_error e
  have hexact (hy : y.toInt ≠ 0) (h : ¬ (x = minInt' ∧ y = -1)) :
      Returns (quot ⟨true, true⟩ x y) (x.toInt.tdiv y.toInt) ∧
        Returns (div ⟨true, true⟩ a x y) (x.toInt.fdiv y.toInt) :=
    ⟨quot_returns hn hy (mt hleast.2 h), div_returns hn a hy (mt hleast.2 h)⟩
  refine ⟨⟨⟨fun h => ?_, fun h => (hraise (hzero.1 h)).1⟩, ⟨fun h => ?_, fun h => (hraise (hzero.1 h)).2.1⟩,
    ⟨fun h => ?_, fun h => (hraise (hzero.1 h)).2.2.1⟩,
    ⟨fun h => ?_, fun h => (hraise (hzero.1 h)).2.2.2⟩⟩,
    ⟨⟨fun h => ?_, fun h => (hoverflow h).1⟩, ⟨fun h => ?_, fun h => (hoverflow h).2⟩⟩,
    fun hy => ⟨rem_returns hn (mt hzero.2 hy), mod_returns hn a (mt hzero.2 hy)⟩,
    fun hy h => hexact (mt hzero.2 hy) h, ?_, ?_⟩
  · by_contra hy
    by_cases hmin : x = minInt' ∧ y = -1
    · rw [(hoverflow hmin).1] at h
      cases h
    · exact hne (hexact (mt hzero.2 hy) hmin).1 h
  · by_contra hy
    exact hne (rem_returns hn (mt hzero.2 hy)) h
  · by_contra hy
    by_cases hmin : x = minInt' ∧ y = -1
    · rw [(hoverflow hmin).2] at h
      cases h
    · exact hne (hexact (mt hzero.2 hy) hmin).2 h
  · by_contra hy
    exact hne (mod_returns hn a (mt hzero.2 hy)) h
  · by_contra hmin
    by_cases hy : y.toInt = 0
    · rw [(hraise hy).1] at h
      cases h
    · exact hne (hexact hy hmin).1 h
  · by_contra hmin
    by_cases hy : y.toInt = 0
    · rw [(hraise hy).2.2.1] at h
      cases h
    · exact hne (hexact hy hmin).2 h
  · have hsum := Int.tmod_add_mul_tdiv x.toInt y.toInt
    linarith
  · have hsum := Int.fmod_add_mul_fdiv x.toInt y.toInt
    linarith

omit hn in
/-- Words of eight bits. -/
theorem division_exact_eight :
    div ⟨true, true⟩ (wrapping 8) (7 : BitVec 8) (-2) = .ok (-4) ∧
      mod ⟨true, true⟩ (noWrap 8) (7 : BitVec 8) (-2) = .ok (-1) ∧
      (div ⟨true, true⟩ (wrapping 8) (7 : BitVec 8) (-2) = .error (.raise .div) ↔
        (-2 : BitVec 8) = zero) ∧
      (div ⟨true, true⟩ (noWrap 8) (7 : BitVec 8) (-2) = .error (.raise .div) ↔
        (-2 : BitVec 8) = zero) :=
  ⟨by decide, by decide, (division_exact (by decide) (wrapping 8) 7 (-2)).1.2.2.1,
    (division_exact (by decide) (noWrap 8) 7 (-2)).1.2.2.1⟩

end

end FixedInt

end MultiMLton.Basis
