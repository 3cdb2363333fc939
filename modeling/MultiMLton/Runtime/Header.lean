import Mathlib.Data.Nat.Bitwise
import Mathlib.Tactic

/-!
# Headers

The bits of the word before an object, from `gc/object.h`: a valid bit, the type index, the count of
references, the lift bit, a counter and the mark.
-/

namespace MultiMLton.GC

open BitVec Nat


/-- `GC_header`, in a model with headers of `w` bits. -/
abbrev Header (w : ℕ) : Type := BitVec w

variable {w : ℕ}

def MARK_MASK : Header w := 0x80000000#w
def COUNTER_MASK : Header w := 0x7FF00000#w
def COUNTER_SHIFT : ℕ := 20
def TYPE_INDEX_MASK : Header w := 0x0001FFFE#w
def TYPE_INDEX_SHIFT : ℕ := 1
def VIRGIN_MASK : Header w := 0x00060000#w
def VIRGIN_SHIFT : ℕ := 17

/-- `MARK_MASK & header` -/
def isMarked (header : Header w) : Bool := MARK_MASK &&& header != 0#w

/-- `(header & COUNTER_MASK) >> COUNTER_SHIFT` -/
def getCounter (header : Header w) : ℕ := ((header &&& COUNTER_MASK) >>> COUNTER_SHIFT).toNat

/-- `header & ~COUNTER_MASK` -/
def clearCounter (header : Header w) : Header w := header &&& ~~~COUNTER_MASK

/-- `(header & ~COUNTER_MASK) | (counter << COUNTER_SHIFT)` -/
def setCounter (header : Header w) (counter : ℕ) : Header w :=
  clearCounter header ||| (BitVec.ofNat w counter <<< COUNTER_SHIFT)

/-- `(header & TYPE_INDEX_MASK) >> TYPE_INDEX_SHIFT` -/
def typeIndex (header : Header w) : ℕ :=
  ((header &&& TYPE_INDEX_MASK) >>> TYPE_INDEX_SHIFT).toNat

def GC_FORWARDED : Header w := BitVec.allOnes w

/-- `GC_numReferences` -/
def ZERO : ℕ := 0
def ONE : ℕ := 1
def LOCAL_MANY : ℕ := 2
def GLOBAL_MANY : ℕ := 3

def getNumReferences (header : Header w) : ℕ :=
  if header = GC_FORWARDED then GLOBAL_MANY
  else ((header &&& VIRGIN_MASK) >>> VIRGIN_SHIFT).toNat

/-- `setNumReferences` -/
def setNumReferences (header : Header w) (count : ℕ) : Header w :=
  (header &&& ~~~VIRGIN_MASK) ||| (BitVec.ofNat w count <<< VIRGIN_SHIFT)

/-- The header with another mark bit and another counter. -/
def setMark (header : Header w) (mark : Bool) (counter : ℕ) : Header w :=
  setCounter ((header &&& ~~~MARK_MASK) ||| if mark then MARK_MASK else 0#w) counter

/-! ### Single bits -/

theorem testBit_mask (k s i : ℕ) :
    Nat.testBit ((2 ^ k - 1) <<< s) i = (decide (s ≤ i) && decide (i < s + k)) := by
  rw [testBit_shiftLeft, testBit_two_pow_sub_one]
  by_cases h : s ≤ i
  · have hiff : i - s < k ↔ i < s + k := by omega
    simp [h, hiff]
  · simp [h]

theorem getLsbD_MARK_MASK (i : ℕ) :
    (MARK_MASK : Header w).getLsbD i = (decide (i < w) && decide (i = 31)) := by
  have hmask : (0x80000000 : ℕ) = 2 ^ 31 := by norm_num
  rw [MARK_MASK, getLsbD_ofNat, hmask, testBit_two_pow]
  simp only [eq_comm]

theorem getLsbD_COUNTER_MASK (i : ℕ) : (COUNTER_MASK : Header w).getLsbD i =
    (decide (i < w) && (decide (20 ≤ i) && decide (i < 31))) := by
  have hmask : (0x7FF00000 : ℕ) = (2 ^ 11 - 1) <<< 20 := by decide
  rw [COUNTER_MASK, getLsbD_ofNat, hmask, testBit_mask]

theorem getLsbD_TYPE_INDEX_MASK (i : ℕ) : (TYPE_INDEX_MASK : Header w).getLsbD i =
    (decide (i < w) && (decide (1 ≤ i) && decide (i < 17))) := by
  have hmask : (0x0001FFFE : ℕ) = (2 ^ 16 - 1) <<< 1 := by decide
  rw [TYPE_INDEX_MASK, getLsbD_ofNat, hmask, testBit_mask]

theorem getLsbD_VIRGIN_MASK (i : ℕ) : (VIRGIN_MASK : Header w).getLsbD i =
    (decide (i < w) && (decide (17 ≤ i) && decide (i < 19))) := by
  have hmask : (0x00060000 : ℕ) = (2 ^ 2 - 1) <<< 17 := by decide
  rw [VIRGIN_MASK, getLsbD_ofNat, hmask, testBit_mask]

theorem getLsbD_clearCounter (header : Header w) (i : ℕ) : (clearCounter header).getLsbD i =
    (header.getLsbD i && !(decide (20 ≤ i) && decide (i < 31))) := by
  by_cases hi : i < w
  · simp only [clearCounter, getLsbD_and, getLsbD_not, getLsbD_COUNTER_MASK, hi,
      decide_true, Bool.true_and]
  · simp [clearCounter, getLsbD_of_ge _ _ (not_lt.1 hi)]

/-- A counter of eleven bits stays in its field. -/
theorem getLsbD_setCounter (header : Header w) {c : ℕ} (hc : c < 2 ^ 11) (i : ℕ) :
    (setCounter header c).getLsbD i = if 20 ≤ i ∧ i < 31 then decide (i < w) && c.testBit (i - 20)
      else header.getLsbD i := by
  by_cases hi : i < w
  · simp only [setCounter, getLsbD_or, getLsbD_clearCounter, getLsbD_shiftLeft,
      getLsbD_ofNat, COUNTER_SHIFT, hi, decide_true, Bool.true_and]
    split_ifs with hfield
    · have hw : i - 20 < w := by omega
      simp [hfield, hw]
    · by_cases hlow : i < 20
      · have hge : ¬ 20 ≤ i := by omega
        simp [hlow, hge]
      · have hhigh : ¬ i < 31 := by omega
        have hbit : c.testBit (i - 20) = false := by
          refine Nat.testBit_lt_two_pow (hc.trans_le (Nat.pow_le_pow_right (by decide) ?_))
          omega
        simp [hhigh, hbit]
  · simp [getLsbD_of_ge _ _ (not_lt.1 hi), hi]

theorem getLsbD_setMark (header : Header w) (m : Bool) {c : ℕ} (hc : c < 2 ^ 11) (i : ℕ) :
    (setMark header m c).getLsbD i =
      if 20 ≤ i ∧ i < 31 then decide (i < w) && c.testBit (i - 20)
      else if i = 31 then decide (i < w) && m else header.getLsbD i := by
  rw [setMark, getLsbD_setCounter _ hc]
  refine if_congr Iff.rfl rfl ?_
  by_cases hi : i < w
  · rw [getLsbD_or, getLsbD_and, getLsbD_not, getLsbD_MARK_MASK]
    by_cases hmark : i = 31
    · subst hmark
      cases m <;> simp [hi, getLsbD_MARK_MASK]
    · have hbit : (if m = true then MARK_MASK else 0#w).getLsbD i = false := by
        cases m
        · exact getLsbD_zero
        · rw [if_pos rfl, getLsbD_MARK_MASK]
          simp [hmark]
      rw [hbit]
      simp [hi, hmark]
  · simp [getLsbD_of_ge _ _ (not_lt.1 hi), hi]

theorem isMarked_eq (header : Header w) : isMarked header = header.getLsbD 31 := by
  cases hbit : header.getLsbD 31 with
  | false =>
    have hzero : MARK_MASK &&& header = 0#w := by
      refine eq_of_getLsbD_eq fun i hi => ?_
      rw [getLsbD_and, getLsbD_MARK_MASK, getLsbD_zero]
      by_cases hmark : i = 31
      · subst hmark
        simp [hbit]
      · simp [hmark]
    simp [isMarked, hzero]
  | true =>
    have hlt : 31 < w := by
      by_contra hge
      rw [getLsbD_of_ge _ _ (not_lt.1 hge)] at hbit
      exact Bool.noConfusion hbit
    have hne : MARK_MASK &&& header ≠ 0#w := by
      intro hzero
      have := congrArg (getLsbD · 31) hzero
      simp only [getLsbD_and, getLsbD_MARK_MASK, hbit, getLsbD_zero] at this
      simp [hlt] at this
    simpa [isMarked] using hne

/-! ### Type indices -/

theorem typeIndex_congr {header header' : Header w}
    (h : ∀ i < 17, header'.getLsbD i = header.getLsbD i) : typeIndex header' = typeIndex header := by
  have hand : header' &&& TYPE_INDEX_MASK = header &&& TYPE_INDEX_MASK := by
    refine eq_of_getLsbD_eq fun i _ => ?_
    rw [getLsbD_and, getLsbD_and, getLsbD_TYPE_INDEX_MASK]
    by_cases hi : i < 17
    · rw [h i hi]
    · simp [hi]
  rw [typeIndex, typeIndex, hand]

theorem typeIndex_clearCounter (header : Header w) :
    typeIndex (clearCounter header) = typeIndex header := by
  refine typeIndex_congr fun i hi => ?_
  have hfield : ¬ 20 ≤ i := by omega
  simp [getLsbD_clearCounter, hfield]

theorem typeIndex_setCounter (header : Header w) (c : ℕ) :
    typeIndex (setCounter header c) = typeIndex header := by
  refine (typeIndex_congr fun i hi => ?_).trans (typeIndex_clearCounter header)
  have hlow : i < COUNTER_SHIFT := by
    rw [COUNTER_SHIFT]
    omega
  rw [setCounter, getLsbD_or, getLsbD_shiftLeft]
  simp [hlow]

theorem typeIndex_xor_MARK_MASK (header : Header w) :
    typeIndex (header ^^^ MARK_MASK) = typeIndex header := by
  refine typeIndex_congr fun i hi => ?_
  have hne : i ≠ 31 := by omega
  simp [getLsbD_xor, getLsbD_MARK_MASK, hne]

/-! ### Marks and counters -/

section

variable (header : Header w) (m : Bool) {c : ℕ}

theorem isMarked_setMark (hw : 32 ≤ w) (hc : c < 2 ^ 11) : isMarked (setMark header m c) = m := by
  have hlt : 31 < w := hw
  rw [isMarked_eq, getLsbD_setMark _ _ hc]
  simp [hlt]

theorem getCounter_setMark (hw : 32 ≤ w) (hc : c < 2 ^ 11) :
    getCounter (setMark header m c) = c := by
  refine eq_of_testBit_eq fun i => ?_
  rw [getCounter, testBit_toNat, getLsbD_ushiftRight, getLsbD_and,
    getLsbD_setMark _ _ hc, getLsbD_COUNTER_MASK, COUNTER_SHIFT]
  by_cases hi : i < 11
  · have hfield : 20 ≤ 20 + i ∧ 20 + i < 31 := by omega
    have hlt : 20 + i < w := by omega
    simp [hfield, hlt]
  · have hfield : ¬ 20 + i < 31 := by omega
    have hbit : c.testBit i = false :=
      Nat.testBit_lt_two_pow (hc.trans_le (Nat.pow_le_pow_right (by decide) (not_lt.1 hi)))
    simp [hfield, hbit]

theorem xor_setMark (hc : c < 2 ^ 11) : setMark header m c ^^^ MARK_MASK = setMark header (!m) c := by
  refine eq_of_getLsbD_eq fun i hi => ?_
  rw [getLsbD_xor, getLsbD_setMark _ _ hc, getLsbD_setMark _ _ hc, getLsbD_MARK_MASK]
  split_ifs with hfield hmark
  · have hne : i ≠ 31 := by omega
    simp [hne]
  · subst hmark
    simp [hi]
  · simp [hmark]

theorem setCounter_setMark (hc : c < 2 ^ 11) {j : ℕ} (hj : j < 2 ^ 11) :
    setCounter (setMark header m c) j = setMark header m j := by
  refine eq_of_getLsbD_eq fun i _ => ?_
  rw [getLsbD_setCounter _ hj, getLsbD_setMark _ _ hc, getLsbD_setMark _ _ hj]
  split_ifs <;> rfl

theorem clearCounter_eq (header : Header w) : clearCounter header = setCounter header 0 := by
  simp [setCounter]

theorem clearCounter_setMark (hc : c < 2 ^ 11) :
    clearCounter (setMark header m c) = setMark header m 0 := by
  rw [clearCounter_eq, setCounter_setMark _ _ hc (by decide)]

theorem setMark_setMark (hc : c < 2 ^ 11) (m' : Bool) {c' : ℕ} (hc' : c' < 2 ^ 11) :
    setMark (setMark header m c) m' c' = setMark header m' c' := by
  refine eq_of_getLsbD_eq fun i _ => ?_
  rw [getLsbD_setMark _ _ hc', getLsbD_setMark _ _ hc', getLsbD_setMark _ _ hc]
  split_ifs <;> rfl

theorem typeIndex_setMark (hc : c < 2 ^ 11) :
    typeIndex (setMark header m c) = typeIndex header := by
  have hand : setMark header m c &&& TYPE_INDEX_MASK = header &&& TYPE_INDEX_MASK := by
    refine eq_of_getLsbD_eq fun i _ => ?_
    rw [getLsbD_and, getLsbD_and, getLsbD_setMark _ _ hc, getLsbD_TYPE_INDEX_MASK]
    by_cases hi : i < 17
    · have hfield : ¬ (20 ≤ i ∧ i < 31) := by omega
      have hmark : i ≠ 31 := by omega
      rw [if_neg hfield, if_neg hmark]
    · simp [hi]
  rw [typeIndex, typeIndex, hand]

/-- A header with counter zero is given by its mark. -/
theorem setMark_self (hcounter : getCounter header = 0) :
    setMark header (isMarked header) 0 = header := by
  refine eq_of_getLsbD_eq fun i hi => ?_
  rw [getLsbD_setMark _ _ (by decide)]
  split_ifs with hfield hmark
  · have hbit := congrArg (Nat.testBit · (i - 20)) hcounter
    have hsub : 20 + (i - 20) = i := by omega
    simp only [getCounter, testBit_toNat, getLsbD_ushiftRight, getLsbD_and,
      getLsbD_COUNTER_MASK, COUNTER_SHIFT, zero_testBit, hsub] at hbit
    simpa [hi, hfield] using hbit.symm
  · subst hmark
    simp [isMarked_eq, hi]
  · rfl

/-! ### Counts of references -/

variable {n : ℕ}

/-- A count of two bits stays in its field. -/
theorem getLsbD_setNumReferences (hn : n < 2 ^ 2) (i : ℕ) :
    (setNumReferences header n).getLsbD i =
      if 17 ≤ i ∧ i < 19 then decide (i < w) && n.testBit (i - 17) else header.getLsbD i := by
  by_cases hi : i < w
  · simp only [setNumReferences, getLsbD_or, getLsbD_and, getLsbD_not,
      getLsbD_VIRGIN_MASK, getLsbD_shiftLeft, getLsbD_ofNat, VIRGIN_SHIFT, hi,
      decide_true, Bool.true_and]
    split_ifs with hfield
    · have hw : i - 17 < w := by omega
      simp [hfield, hw]
    · by_cases hlow : i < 17
      · have hge : ¬ 17 ≤ i := by omega
        simp [hlow, hge]
      · have hhigh : ¬ i < 19 := by omega
        have hbit : n.testBit (i - 17) = false := by
          refine Nat.testBit_lt_two_pow (hn.trans_le (Nat.pow_le_pow_right (by decide) ?_))
          omega
        simp [hhigh, hbit]
  · simp [getLsbD_of_ge _ _ (not_lt.1 hi), hi]

theorem isMarked_setNumReferences (hn : n < 2 ^ 2) :
    isMarked (setNumReferences header n) = isMarked header := by
  rw [isMarked_eq, isMarked_eq, getLsbD_setNumReferences _ hn]
  exact if_neg (by decide)

theorem getCounter_setNumReferences (hn : n < 2 ^ 2) :
    getCounter (setNumReferences header n) = getCounter header := by
  have hand : setNumReferences header n &&& COUNTER_MASK = header &&& COUNTER_MASK := by
    refine eq_of_getLsbD_eq fun i _ => ?_
    rw [getLsbD_and, getLsbD_and, getLsbD_setNumReferences _ hn, getLsbD_COUNTER_MASK]
    by_cases hi : 20 ≤ i
    · have hfield : ¬ (17 ≤ i ∧ i < 19) := by omega
      rw [if_neg hfield]
    · simp [hi]
  rw [getCounter, getCounter, hand]

theorem typeIndex_setNumReferences (hn : n < 2 ^ 2) :
    typeIndex (setNumReferences header n) = typeIndex header := by
  have hand : setNumReferences header n &&& TYPE_INDEX_MASK = header &&& TYPE_INDEX_MASK := by
    refine eq_of_getLsbD_eq fun i _ => ?_
    rw [getLsbD_and, getLsbD_and, getLsbD_setNumReferences _ hn,
      getLsbD_TYPE_INDEX_MASK]
    by_cases hi : i < 17
    · have hfield : ¬ (17 ≤ i ∧ i < 19) := by omega
      rw [if_neg hfield]
    · simp [hi]
  rw [typeIndex, typeIndex, hand]

/-- A header with counter zero is no forwarding mark. -/
theorem ne_forwarded (hw : 32 ≤ w) (hcounter : getCounter header = 0) : header ≠ GC_FORWARDED := by
  rintro rfl
  have hbit := congrArg (Nat.testBit · 0) hcounter
  have hlt : 20 < w := by omega
  simp only [getCounter, testBit_toNat, getLsbD_ushiftRight, getLsbD_and,
    getLsbD_COUNTER_MASK, COUNTER_SHIFT, GC_FORWARDED, getLsbD_allOnes] at hbit
  simp [hlt] at hbit

theorem getNumReferences_setNumReferences (hw : 32 ≤ w) (hcounter : getCounter header = 0)
    (hn : n < 2 ^ 2) : getNumReferences (setNumReferences header n) = n := by
  have hforwarded := ne_forwarded (setNumReferences header n) hw
    (by rw [getCounter_setNumReferences _ hn, hcounter])
  rw [getNumReferences, if_neg hforwarded]
  refine eq_of_testBit_eq fun i => ?_
  rw [testBit_toNat, getLsbD_ushiftRight, getLsbD_and,
    getLsbD_setNumReferences _ hn, getLsbD_VIRGIN_MASK, VIRGIN_SHIFT]
  by_cases hi : i < 2
  · have hfield : 17 ≤ 17 + i ∧ 17 + i < 19 := by omega
    have hlt : 17 + i < w := by omega
    simp [hfield, hlt]
  · have hfield : ¬ 17 + i < 19 := by omega
    have hbit : n.testBit i = false :=
      Nat.testBit_lt_two_pow (hn.trans_le (Nat.pow_le_pow_right (by decide) (not_lt.1 hi)))
    simp [hfield, hbit]

end

end MultiMLton.GC
