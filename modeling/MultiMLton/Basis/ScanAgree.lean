import MultiMLton.Basis.IntInfExact
import MultiMLton.Basis.IntInfText

/-!
# The two scanners of integers

`scan` of the functor `Integer` and of `IntInf` return the same integers, and read back what the
two functions `fmt` write. They differ where white space comes before a digit: `toSign` skips the
white space to look for a sign, but without one it goes back to where the stream began.
-/

namespace MultiMLton.Basis

open StringCvt BigInt MultiMLton.Lib List BitVec

variable {c : Config} {σ : Type}

/-- The two scanners agree on a stream. -/
structure ScansAgree (g : GnuMP c) (n : ℕ) (radix : Radix) (cread : Reader Char σ) (s : σ) :
    Prop where
  none_iff : Yields (fun fuel => BigInt.scan g radix cread fuel s) none ↔
    Yields (fun fuel => I.scan radix cread n fuel s) (.ok none)
  /-- Where the white space ends, `NONE` means that there is no numeral. -/
  none_of_run : ∀ white s₁, Run isSpace cread s white s₁ →
    (Yields (fun fuel => I.scan radix cread n fuel s) (.ok none) ↔
      ¬∃ cs s' v, Reads cread s cs s' ∧ Numeral radix cs v)
  of_longest : ∀ i s', LongestNumeral radix cread s i s' →
    (∃ x, IsRep x i ∧ Yields (fun fuel => BigInt.scan g radix cread fuel s) (some (x, s'))) ∧
    Yields (fun fuel => I.scan radix cread n fuel s)
      (if -2 ^ (n - 1) ≤ i ∧ i < 2 ^ (n - 1) then .ok (some (.ofInt n i, s')) else .error .overflow)

section Strings

variable {radix : Radix} {cs ds : List Char}

/-- A string that is a numeral is the longest one in it. -/
theorem longestNumeral_string {i : ℤ} (h : Numeral radix cs i) :
    LongestNumeral radix (stringReader cs) 0 i cs.length := by
  refine ⟨cs, h, by simpa using reads_string [] cs, ⟨i, h⟩, fun ds s' hr _ => ?_⟩
  have := length_of_reads hr (Nat.zero_le _)
  omega

theorem numeral_of_digits {i : ℤ} (h : Digits radix ds i.natAbs) :
    Numeral radix (I.tilde (decide (i < 0)) ++ ds) i := by
  have hwhite : ∀ ch ∈ ([] : List Char), isSpace ch = true := by simp
  by_cases hneg : i < 0
  · have hnum : Numeral radix _ _ := .mk hwhite .tilde (.digits h)
    rw [if_pos rfl, show -(i.natAbs : ℤ) = i by omega] at hnum
    rwa [decide_eq_true hneg]
  · have hnum : Numeral radix _ _ := .mk hwhite .none (.digits h)
    rw [if_neg Bool.false_ne_true, show (i.natAbs : ℤ) = i by omega] at hnum
    rwa [decide_eq_false hneg]

/-- What is written does not begin with white space. -/
theorem not_blank_of_digits {neg : Bool} {v : ℕ} (h : Digits radix ds v) :
    ¬BlankBeforeDigit radix (stringReader (I.tilde neg ++ ds)) 0 := by
  rintro ⟨white, s₁, hne, hrun, -⟩
  cases hrun.reads with
  | nil => exact hne rfl
  | @cons _ _ _ ch _ head tail =>
    have hspace := hrun.all ch mem_cons_self
    obtain ⟨ch', hch, heq⟩ := Option.map_eq_some_iff.1 head
    cases heq
    have hmem : ch ∈ I.tilde neg ++ ds := mem_of_getElem? hch
    rcases mem_append.1 hmem with hmem | hmem
    · cases neg <;> simp [I.tilde] at hmem
      subst hmem
      exact absurd hspace (by decide)
    · rw [isSpace_of_isDigit (h.all ch hmem)] at hspace
      cases hspace

end Strings

section

variable {g : GnuMP c} (hg : g.Exact) (hwide : c.objptr ≤ c.limb) {n : ℕ} (hn : 8 ≤ n)

include hg hwide hn

theorem scansAgree_of_not_blank {radix : Radix} {cread : Reader Char σ} {s : σ}
    (h : ¬BlankBeforeDigit radix cread s) : ScansAgree g n radix cread s where
  none_iff := (BigInt.scan_none_iff h).trans (I.scan_none_iff hn).symm
  none_of_run white s₁ hrun := by
    rw [I.scan_none_iff hn]
    exact and_iff_right ⟨white, s₁, hrun⟩
  of_longest i s' hi := by
    refine ⟨BigInt.scan_of_longest hwide hg h hi, ?_⟩
    convert I.scan_of_longest hn hi using 1
    rw [I.check]
    split_ifs <;> rfl

omit hg hwide in
theorem not_scansAgree_of_blank {radix : Radix} {cread : Reader Char σ} {s : σ}
    (h : BlankBeforeDigit radix cread s) : ¬ScansAgree g n radix cread s := by
  intro hagree
  obtain ⟨-, hnone⟩ := (I.scan_none_iff hn).1 (hagree.none_iff.1 (scan_blank h))
  obtain ⟨white, s₁, -, hrun, hdigit⟩ := h
  exact hnone (exists_numeral_iff.2 ⟨white, s₁, hrun, .inl hdigit⟩)

omit hg hwide in
/-- What `fmt` writes is read back. -/
theorem I.scan_fmt (radix : Radix) (w : BitVec n) (buf : I.Buffer n) :
    ∃ cs, I.fmt radix w buf = some cs ∧
      Yields (fun fuel => I.scan radix (stringReader cs) n fuel 0) (.ok (some (w, cs.length))) := by
  obtain ⟨ds, hds, hfmt⟩ := I.fmt_unsigned hn radix w buf
  refine ⟨_, hfmt, ?_⟩
  have hscan := I.scan_of_longest hn (longestNumeral_string (numeral_of_digits hds))
  rwa [I.check, if_pos ⟨le_toInt w, toInt_lt⟩, ofInt_toInt] at hscan

omit hn in
theorem scan_fmt {mpz_get_str : ℕ → Mpz c → List Char} (htext : MpzText mpz_get_str) (radix : Radix)
    {x : BigInt c} (hx : x.Normal) (buf : I.Buffer c.objptr) :
    ∃ cs, BigInt.fmt mpz_get_str radix x buf = some cs ∧
      Yields (fun fuel => BigInt.scan g radix (stringReader cs) fuel 0) (some (x, cs.length)) := by
  obtain ⟨ds, hds, hfmt⟩ := BigInt.fmt_unsigned radix hwide htext hx buf
  obtain ⟨y, hy, hscan⟩ := BigInt.scan_of_longest hwide hg (not_blank_of_digits hds)
    (longestNumeral_string (numeral_of_digits hds))
  exact ⟨_, hfmt, hy.normal.toInt_inj hx hy.toInt ▸ hscan⟩

/-- The scanners agree on a stream if and only if it is no white space before a digit, and they read
back what is written. -/
theorem scansAgree_iff {mpz_get_str : ℕ → Mpz c → List Char} (htext : MpzText mpz_get_str)
    (radix : Radix) :
    (∀ (σ : Type) (cread : Reader Char σ) (s : σ),
      ScansAgree g n radix cread s ↔ ¬BlankBeforeDigit radix cread s) ∧
    (∀ (w : BitVec n) (buf : I.Buffer n), ∃ cs, I.fmt radix w buf = some cs ∧
      Yields (fun fuel => I.scan radix (stringReader cs) n fuel 0) (.ok (some (w, cs.length)))) ∧
    ∀ (x : BigInt c) (buf : I.Buffer c.objptr), x.Normal →
      ∃ cs, BigInt.fmt mpz_get_str radix x buf = some cs ∧
        Yields (fun fuel => BigInt.scan g radix (stringReader cs) fuel 0)
          (some (x, cs.length)) := by
  refine ⟨fun σ cread s => ⟨fun hagree hblank => ?_, ?_⟩, ?_, ?_⟩
  · exact not_scansAgree_of_blank hn hblank hagree
  · exact scansAgree_of_not_blank hg hwide hn
  · exact I.scan_fmt hn radix
  · exact fun x buf hx => scan_fmt hg hwide htext radix hx buf

/-- **What one type writes the other one reads**: the same integer, or `Overflow` where the type
that reads does not have it. So do the fixed types with one another. -/
theorem scan_fmt_other {mpz_get_str : ℕ → Mpz c → List Char} (htext : MpzText mpz_get_str)
    (radix : Radix) {m : ℕ} (hm : 8 ≤ m) :
    (∀ (w : BitVec n) (buf : I.Buffer n), ∃ cs x, I.fmt radix w buf = some cs ∧ IsRep x w.toInt ∧
      Yields (fun fuel => BigInt.scan g radix (stringReader cs) fuel 0) (some (x, cs.length)) ∧
      Yields (fun fuel => I.scan radix (stringReader cs) m fuel 0)
        (if -2 ^ (m - 1) ≤ w.toInt ∧ w.toInt < 2 ^ (m - 1)
          then .ok (some (.ofInt m w.toInt, cs.length)) else .error .overflow)) ∧
    ∀ (x : BigInt c) (buf : I.Buffer c.objptr), x.Normal →
      ∃ cs, BigInt.fmt mpz_get_str radix x buf = some cs ∧
        Yields (fun fuel => I.scan radix (stringReader cs) n fuel 0)
          (if -2 ^ (n - 1) ≤ x.toInt ∧ x.toInt < 2 ^ (n - 1)
            then .ok (some (.ofInt n x.toInt, cs.length)) else .error .overflow) := by
  have hreads {k : ℕ} (hk : 8 ≤ k) {i : ℤ} {ds : List Char} (hds : Digits radix ds i.natAbs) :=
    (scansAgree_of_not_blank hg hwide hk (not_blank_of_digits hds)).of_longest i _
      (longestNumeral_string (numeral_of_digits hds))
  refine ⟨fun w buf => ?_, fun x buf hx => ?_⟩
  · obtain ⟨ds, hds, hfmt⟩ := I.fmt_unsigned hn radix w buf
    obtain ⟨⟨x, hx, hscan⟩, hfixed⟩ := hreads hm hds
    exact ⟨_, x, hfmt, hx, hscan, hfixed⟩
  · obtain ⟨ds, hds, hfmt⟩ := BigInt.fmt_unsigned radix hwide htext hx buf
    exact ⟨_, hfmt, (hreads hn hds).2⟩

end

/-! ### Two streams -/

/-- `mpz_get_str`, for examples -/
def textOf (base : ℕ) (m : Mpz c) : List Char :=
  (if m.value < 0 then ['-'] else []) ++ Nat.toDigits base m.value.natAbs

/-- The least integer of 8 bits, behind a blank. -/
theorem scansAgree_minInt :
    ScansAgree (GnuMP.ofInt native64) 8 .hex (stringReader [' ', '~', '0', 'x', '8', '0']) 0 := by
  refine ((scansAgree_iff GnuMP.ofInt_exact le_rfl le_rfl
    (show MpzText textOf from fun _ _ _ => rfl) .hex).1 _ _ _).2 ?_
  rintro ⟨white, s₁, -, hrun, ch, s₂, hch, hdigit⟩
  have hblank : Run isSpace (stringReader [' ', '~', '0', 'x', '8', '0']) 0 [' '] 1 :=
    .cons rfl (by decide) (.nil fun c s'' h => by cases h; decide)
  obtain ⟨-, rfl⟩ := hrun.unique hblank
  cases hch
  exact absurd hdigit (by decide)

/-- `200` of 16 bits, which 8 bits do not have. -/
theorem scan_fmt_other_twoHundred :
    ∃ cs x, I.fmt .dec 200#16 ⟨List.replicate 17 ' ', rfl⟩ = some cs ∧ IsRep (c := native64) x 200 ∧
      Yields (fun fuel => BigInt.scan (GnuMP.ofInt native64) .dec (stringReader cs) fuel 0)
        (some (x, cs.length)) ∧
      Yields (fun fuel => I.scan .dec (stringReader cs) 8 fuel 0) (.error .overflow) :=
  (scan_fmt_other GnuMP.ofInt_exact le_rfl (by norm_num)
    (show MpzText textOf from fun _ _ _ => rfl) .dec le_rfl).1 200#16 ⟨List.replicate 17 ' ', rfl⟩

/-- A blank and a digit. -/
theorem not_scansAgree_blank_one :
    Yields (fun fuel => BigInt.scan (GnuMP.ofInt native64) .dec (stringReader [' ', '1']) fuel 0)
      none ∧
    Yields (fun fuel => I.scan .dec (stringReader [' ', '1']) 32 fuel 0) (.ok (some (1, 2))) ∧
    LongestNumeral .dec (stringReader [' ', '1']) 0 1 2 ∧
    ¬ScansAgree (GnuMP.ofInt native64) 32 .dec (stringReader [' ', '1']) 0 := by
  have hblank : BlankBeforeDigit .dec (stringReader [' ', '1']) 0 :=
    ⟨[' '], 1, by simp, .cons rfl (by decide) (.nil fun c s'' h => by cases h; decide),
      '1', 2, rfl, by decide⟩
  have hnum : Numeral .dec ([' '] ++ [] ++ ['1']) 1 :=
    .mk (by simp [isSpace]) .none (.digits ⟨by simp, [1], by decide, rfl⟩)
  have hlong := longestNumeral_string hnum
  exact ⟨scan_blank hblank, I.scan_of_longest (by norm_num) hlong, hlong,
    not_scansAgree_of_blank (by norm_num) hblank⟩

end MultiMLton.Basis
