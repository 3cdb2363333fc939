import Mathlib.Tactic

/-!
# Indices of sequences

`SeqIndex` and the lengths of `arrays-and-vectors/sequence.fun`. An index is an integer of a fixed
width: `+?` and `-?` wrap around, `+` and `fromInt` check for overflow, and `geu` and `gtu` compare
indices as words. The lengths of arrays stay below `maxLen'`, which is the greatest index, or the
greatest default `Int` where that type is the narrower one. `Primitive.Controls.safe` is taken as
`true`, its default.
-/

namespace MultiMLton.Basis.Sequence

open Int

/-- What is raised; `outside` stands for a read outside of a sequence, which nothing checks. -/
inductive Exn
  | size
  | subscript
  | span
  | fail (message : String)
  | outside
  deriving DecidableEq

/-- `SeqIndex`, of 32 or 64 bits, with the `maxLen'` that the default `Int` gives. -/
structure SeqIndex where
  precision : ℕ
  two_le : 2 ≤ precision
  maxLen' : ℤ
  one_le_maxLen' : 1 ≤ maxLen'
  maxLen'_le : maxLen' ≤ 2 ^ (precision - 1) - 1

def SeqIndex.int32 : SeqIndex := ⟨32, by decide, 2 ^ 31 - 1, by decide, by decide⟩

/-- With `Int64` or `IntInf` as default `Int`. -/
def SeqIndex.int64 : SeqIndex := ⟨64, by decide, 2 ^ 63 - 1, by decide, by decide⟩

/-- With `Int32` as default `Int`, the defaults of a target of 64 bits. -/
def SeqIndex.int64Int32 : SeqIndex := ⟨64, by decide, 2 ^ 31 - 1, by decide, by decide⟩

namespace SeqIndex

variable (s : SeqIndex)

def maxInt' : ℤ := 2 ^ (s.precision - 1) - 1

/-- The integers that are indices. -/
def InRange (i : ℤ) : Prop := -(s.maxInt' + 1) ≤ i ∧ i ≤ s.maxInt'

instance (i : ℤ) : Decidable (s.InRange i) := inferInstanceAs (Decidable (_ ∧ _))

/-- The index with the same low bits. -/
def wrap (i : ℤ) : ℤ := i.bmod (2 ^ s.precision)

/-- `+?` -/
def addWrap (i j : ℤ) : ℤ := s.wrap (i + j)

/-- `-?` -/
def subWrap (i j : ℤ) : ℤ := s.wrap (i - j)

/-- `fromInt`, with nothing for `Overflow` -/
def fromInt (i : ℤ) : Option ℤ := if s.InRange i then some i else none

/-- `+`, with nothing for `Overflow` -/
def add (i j : ℤ) : Option ℤ := s.fromInt (i + j)

def fromIntUnsafe (i : ℤ) : ℤ := s.wrap i

/-- The word with the bits of an index. -/
def toWord (i : ℤ) : ℤ := i % 2 ^ s.precision

def geu (i j : ℤ) : Prop := s.toWord j ≤ s.toWord i

def gtu (i j : ℤ) : Prop := s.toWord j < s.toWord i

instance (i j : ℤ) : Decidable (s.geu i j) := inferInstanceAs (Decidable (_ ≤ _))

instance (i j : ℤ) : Decidable (s.gtu i j) := inferInstanceAs (Decidable (_ < _))

/-! ### Words and indices -/

variable {s} {i j : ℤ}

theorem two_pow_precision : (2 : ℤ) ^ s.precision = 2 * (s.maxInt' + 1) := by
  obtain ⟨k, hk⟩ := Nat.exists_eq_add_of_le' s.two_le
  rw [maxInt', hk, show k + 2 - 1 = k + 1 by omega, pow_succ]
  ring

theorem one_le_maxInt' : 1 ≤ s.maxInt' := by
  obtain ⟨k, hk⟩ := Nat.exists_eq_add_of_le' s.two_le
  have hpos : (0 : ℤ) < 2 ^ k := by positivity
  rw [maxInt', hk, show k + 2 - 1 = k + 1 by omega, pow_succ]
  omega

theorem maxLen'_le_maxInt' : s.maxLen' ≤ s.maxInt' := s.maxLen'_le

theorem wrap_eq (h : s.InRange i) : s.wrap i = i := by
  have hpow := s.two_pow_precision
  refine bmod_eq_of_le_mul_two ?_ ?_ <;> push_cast <;> rw [hpow] <;>
    obtain ⟨hlo, hhi⟩ := h <;> omega

theorem inRange_wrap (i : ℤ) : s.InRange (s.wrap i) := by
  have hpow := s.two_pow_precision
  have hpos : 0 < 2 ^ s.precision := by positivity
  have hlo := le_bmod (x := i) hpos
  have hhi := bmod_lt (x := i) hpos
  push_cast at hlo hhi
  rw [hpow] at hlo hhi
  constructor <;> unfold wrap <;> omega

theorem addWrap_eq (h : s.InRange (i + j)) : s.addWrap i j = i + j := wrap_eq h

theorem subWrap_eq (h : s.InRange (i - j)) : s.subWrap i j = i - j := wrap_eq h

theorem fromIntUnsafe_eq (h : s.InRange i) : s.fromIntUnsafe i = i := wrap_eq h

theorem inRange_of_nonneg (h0 : 0 ≤ i) (h : i ≤ s.maxInt') : s.InRange i :=
  ⟨by have := s.one_le_maxInt'; omega, h⟩

theorem fromInt_eq_some : s.fromInt i = some j ↔ s.InRange i ∧ i = j := by
  unfold fromInt
  split_ifs with h <;> simp [h]

theorem toWord_of_nonneg (h0 : 0 ≤ i) (h : i ≤ s.maxInt') : s.toWord i = i := by
  rw [toWord, two_pow_precision]
  exact emod_eq_of_lt h0 (by omega)

/-- A negative index is a large word. -/
theorem toWord_of_neg (h0 : i < 0) (h : s.InRange i) : s.maxInt' < s.toWord i := by
  have hlo := h.1
  rw [toWord, two_pow_precision, ← add_emod_right]
  rw [emod_eq_of_lt (by omega) (by omega)]
  omega

/-- As words, an index is below a length where it is one of its positions. -/
theorem geu_iff (hi : s.InRange i) (h0 : 0 ≤ j) (hj : j ≤ s.maxInt') :
    s.geu i j ↔ ¬(0 ≤ i ∧ i < j) := by
  rw [geu, toWord_of_nonneg h0 hj]
  rcases lt_or_ge i 0 with hneg | hnonneg
  · have hword := toWord_of_neg hneg hi
    omega
  · rw [toWord_of_nonneg hnonneg hi.2]
    omega

theorem gtu_iff (hi : s.InRange i) (h0 : 0 ≤ j) (hj : j ≤ s.maxInt') :
    s.gtu i j ↔ ¬(0 ≤ i ∧ i ≤ j) := by
  rw [gtu, toWord_of_nonneg h0 hj]
  rcases lt_or_ge i 0 with hneg | hnonneg
  · have hword := toWord_of_neg hneg hi
    omega
  · rw [toWord_of_nonneg hnonneg hi.2]
    omega

theorem toWord_nonneg (i : ℤ) : 0 ≤ s.toWord i := by
  have hpos := s.one_le_maxInt'
  rw [toWord, two_pow_precision]
  exact emod_nonneg _ (by omega)

/-- Wrapping keeps the word; as an index it is the word, or negative where the word is large. -/
theorem wrap_eq_toWord (i : ℤ) :
    s.wrap i = if s.toWord i ≤ s.maxInt' then s.toWord i
      else s.toWord i - 2 * (s.maxInt' + 1) := by
  have hpow := s.two_pow_precision
  rw [wrap, bmod_eq_emod, toWord]
  push_cast
  rw [hpow]
  have hmod := s.toWord_nonneg i
  rw [toWord, hpow] at hmod
  split_ifs <;> omega

theorem toWord_natCast_le (n : ℕ) : s.toWord n ≤ n := by
  unfold toWord
  exact_mod_cast Nat.mod_le n (2 ^ s.precision)

end SeqIndex

/-! ### New arrays -/

section

variable (s : SeqIndex)

/-- `fromIntForLength` -/
def fromIntForLength (n : ℤ) : Except Exn ℤ :=
  match s.fromInt n with
  | some n => .ok n
  | none => .error .size

/-- The length of the array that `arrayUninit'` makes, or the exception that it raises. -/
def arrayUninit' (isMutable : Bool) (n : ℤ) : Except Exn ℤ :=
  if !isMutable && n = 0 then .ok 0
  else if s.geu n s.maxLen' then .error .size
  else .ok n

/-- The lengths of arrays. -/
def ValidLength (n : ℤ) : Prop := 0 ≤ n ∧ n < s.maxLen'

instance (n : ℤ) : Decidable (ValidLength s n) := inferInstanceAs (Decidable (_ ∧ _))

variable {s} {n : ℤ}

theorem ValidLength.inRange (h : ValidLength s n) : s.InRange n :=
  SeqIndex.inRange_of_nonneg h.1 (h.2.le.trans s.maxLen'_le_maxInt')

theorem validLength_zero : ValidLength s 0 := ⟨le_rfl, by have := s.one_le_maxLen'; omega⟩

/-- A wrapped length is valid where its word is. -/
theorem validLength_wrap (i : ℤ) : ValidLength s (s.wrap i) ↔ s.toWord i < s.maxLen' := by
  have hnonneg := s.toWord_nonneg i
  have hlt : s.toWord i < 2 * (s.maxInt' + 1) := by
    rw [SeqIndex.toWord, s.two_pow_precision]
    exact emod_lt_of_pos _ (by have := s.one_le_maxInt'; omega)
  have hmax := s.maxLen'_le_maxInt'
  rw [ValidLength, SeqIndex.wrap_eq_toWord]
  split_ifs <;> omega

/-- `arrayUninit'` makes the arrays of valid lengths, and raises `Size` for the others. -/
theorem arrayUninit'_eq (isMutable : Bool) (h : s.InRange n) :
    arrayUninit' s isMutable n = if ValidLength s n then .ok n else .error .size := by
  have hgeu : s.geu n s.maxLen' ↔ ¬ValidLength s n :=
    SeqIndex.geu_iff h (zero_le_one.trans s.one_le_maxLen') s.maxLen'_le_maxInt'
  unfold arrayUninit'
  by_cases h0 : n = 0
  · subst h0
    cases isMutable <;> simp [hgeu, validLength_zero]
  · by_cases hv : ValidLength s n <;> simp [h0, hgeu, hv]

end

end MultiMLton.Basis.Sequence
