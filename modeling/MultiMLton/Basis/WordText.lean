import MultiMLton.Basis.IntegerText
import MultiMLton.Basis.WordNumeral

/-!
# Words as text

`fmt` and `scan` of the functor `Word` in `integer/word.sml`. As in `IntegerText`, an `Int` is an
integer without bounds here.

* `fmt_digits`: what is written is the digits of the word;
* `Strays`: the code goes on behind a zero where no word does;
* `scansExactly_iff`: elsewhere it returns the longest word.
-/

namespace MultiMLton.Basis

open StringCvt MultiMLton.Lib

namespace W

variable {n : ℕ} {σ : Type}

/-- `fromInt` -/
def fromInt (n i : ℕ) : BitVec n := BitVec.ofNat n i

/-- `Word.div` of `integer/num0.sml` -/
def div (x y : BitVec n) : Except Exn (BitVec n) := if y = 0 then .error .div else .ok (x / y)

/-- `Word.mod` of `integer/num0.sml` -/
def mod (x y : BitVec n) : Except Exn (BitVec n) := if y = 0 then .error .div else .ok (x % y)

/-! ### `fmt` -/

/-- `CharArray.update` of the buffer, where it does not raise `Subscript` -/
def update (buf : Vector Char n) (i : ℕ) (c : Char) : Option (Vector Char n) :=
  if h : i < n then some (buf.set i c h) else none

/-- `loop` of `fmt` at the place `i - 1`, where it does not raise. -/
def fmtLoop (radix : BitVec n) : ℕ → BitVec n → Vector Char n → Option (List Char)
  | 0, _, _ => none
  | i + 1, q, buf => do
    let r ← (mod q radix).toOption
    let buf ← update buf i (← digitToChar r.toNat)
    let q ← (div q radix).toOption
    if q = 0 then some (buf.toList.drop i) else fmtLoop radix i q buf

def fmt (radix : Radix) (w : BitVec n) (buf : Vector Char n) : Option (List Char) :=
  fmtLoop (fromInt n (radixToInt radix)) n w buf

/-! ### `scan` -/

variable (radix : Radix) (reader : Reader Char σ)

/-- `finishNum` of `scan`, for so many turns. -/
def finishNum (radixWord : BitVec n) :
    ℕ → σ → BitVec n → Option (Except Exn (Option (BitVec n × σ)))
  | 0, _, _ => none
  | fuel + 1, s, m =>
    match reader s with
    | none => some (.ok (some (m, s)))
    | some (c, s') =>
      match charToDigit radix c with
      | none => some (.ok (some (m, s)))
      | some d =>
        match div (m * radixWord) radixWord with
        | .error e => some (.error e)
        | .ok q =>
          if q = m then
            if (m * radixWord).ule (m * radixWord + fromInt n d) then
              finishNum radixWord fuel s' (m * radixWord + fromInt n d)
            else some (.error .overflow)
          else some (.error .overflow)

/-- `num` of `scan` -/
def num (radixWord : BitVec n) (fuel : ℕ) (s : σ) : Option (Except Exn (Option (BitVec n × σ))) :=
  finishNum radix reader radixWord fuel s 0

/-- The end of `scan`, after the white space. -/
def scanChar (radixWord : BitVec n) (fuel : ℕ) (s : σ) :
    Option (Except Exn (Option (BitVec n × σ))) :=
  match reader s with
  | none => some (.ok none)
  | some (c, s) =>
    if c = '0' then
      match reader s with
      | none => some (.ok (some (0, s)))
      | some (c, s') =>
        if c = 'w' then
          if radix = .hex then
            match reader s' with
            | none => some (.ok (some (0, s)))
            -- here `state` is the stream behind this character
            | some (c, s) =>
              if c = 'x' ∨ c = 'X' then num radix reader radixWord fuel s
              else some (.ok (some (0, s)))
          else num radix reader radixWord fuel s'
        else if c = 'x' ∨ c = 'X' then
          if radix = .hex then num radix reader radixWord fuel s' else some (.ok none)
        else num radix reader radixWord fuel s
    else
      match charToDigit radix c with
      | none => some (.ok none)
      | some d => finishNum radix reader radixWord fuel s (fromInt n d)

def scan (n fuel : ℕ) (s : σ) : Option (Except Exn (Option (BitVec n × σ))) := do
  let s ← skipWS reader fuel s
  scanChar radix reader (fromInt n (radixToInt radix)) fuel s

/-! ### What `scan` should return -/

/-- A value that fits, and the stream behind it. -/
def fits (n v : ℕ) (s' : σ) : Except Exn (Option (BitVec n × σ)) :=
  if v < 2 ^ n then .ok (some (BitVec.ofNat n v, s')) else .error .overflow

/-- The longest word is returned if it fits, else `Overflow` is raised, and `NONE` is returned if and
only if the white space ends and there is no word. -/
structure ScansExactly (n : ℕ) (radix : Radix) (reader : Reader Char σ) (s : σ) : Prop where
  of_longest : ∀ v s', LongestWord radix reader s v s' →
    Yields (fun fuel => scan radix reader n fuel s) (fits n v s')
  none_iff : Yields (fun fuel => scan radix reader n fuel s) (.ok none) ↔
    (∃ white s₁, Run isSpace reader s white s₁) ∧
      ¬∃ cs s' v, Reads reader s cs s' ∧ WordNumeral radix cs v

/-- The code reads the first letters of a prefix behind a zero although the rest of it or a digit is
missing, and does not come back to the stream behind the zero. -/
inductive Strays (radix : Radix) (reader : Reader Char σ) (s : σ) : Prop
  /-- `0w` and something else than an `x` -/
  | otherLetter {s₁ s₂ s₃ : σ} {c : Char} (hex : radix = .hex) (zero : reader s = some ('0', s₁))
      (letter : reader s₁ = some ('w', s₂)) (other : reader s₂ = some (c, s₃))
      (hc : ¬(c = 'x' ∨ c = 'X')) (hne : s₃ ≠ s₁)
  /-- a prefix that no digit follows -/
  | noDigit {s₁ s₂ : σ} {pre : List Char} (zero : reader s = some ('0', s₁))
      (hpre : pre ∈ wordPrefixes radix) (reads : Reads reader s pre s₂)
      (stop : ¬AtDigit radix reader s₂) (hne : s₂ ≠ s₁)
  /-- `0x` or `0X` where this is no prefix -/
  | foreign {s₁ s₂ : σ} {x : Char} (hex : radix ≠ .hex) (zero : reader s = some ('0', s₁))
      (letter : reader s₁ = some (x, s₂)) (hx : x = 'x' ∨ x = 'X')

/-! ### Operations -/

section Operations

variable {radix : Radix} {q r m : BitVec n} {v b d : ℕ}

theorem fromInt_toNat (hn : 8 ≤ n) {i : ℕ} (hi : i ≤ 16) : (fromInt n i).toNat = i := by
  have hpow : 2 ^ 8 ≤ 2 ^ n := Nat.pow_le_pow_right (by norm_num) hn
  exact (BitVec.toNat_ofNat i n).trans (Nat.mod_eq_of_lt (by omega))

theorem ne_zero_of_toNat (hr : r.toNat = b) (hb : 2 ≤ b) : r ≠ 0 := by
  rintro rfl
  simp at hr
  omega

theorem mod_ok (hq : q.toNat = v) (hr : r.toNat = b) (hb : 2 ≤ b) :
    ∃ w, mod q r = .ok w ∧ w.toNat = v % b :=
  ⟨_, if_neg (ne_zero_of_toNat hr hb), by rw [BitVec.toNat_umod, hq, hr]⟩

theorem div_ok (hq : q.toNat = v) (hr : r.toNat = b) (hb : 2 ≤ b) :
    ∃ w, div q r = .ok w ∧ w.toNat = v / b :=
  ⟨_, if_neg (ne_zero_of_toNat hr hb), by rw [BitVec.toNat_udiv, hq, hr]⟩

/-- The product has not wrapped around if it can be divided again. -/
theorem div_mul_iff (hm : m.toNat = v) (hr : r.toNat = b) (hb : 2 ≤ b) :
    ∃ w, div (m * r) r = .ok w ∧ (w = m ↔ v * b < 2 ^ n) := by
  obtain ⟨w, hw, hvalue⟩ := div_ok (q := m * r) rfl hr hb
  refine ⟨w, hw, ?_⟩
  have hprod : (m * r).toNat = v * b % 2 ^ n := by rw [BitVec.toNat_mul, hm, hr]
  rw [hprod] at hvalue
  rw [← BitVec.toNat_inj, hvalue, hm]
  constructor
  · intro heq
    by_contra hge
    have hlt : v * b % 2 ^ n < v * b := (Nat.mod_lt _ (Nat.two_pow_pos n)).trans_le (not_lt.1 hge)
    have hdiv := (Nat.div_lt_iff_lt_mul (by omega)).2 hlt
    omega
  · intro hlt
    rw [Nat.mod_eq_of_lt hlt, Nat.mul_div_cancel v (by omega)]

/-- The sum has not wrapped around if it is not less. -/
theorem ule_add_iff {x y : BitVec n} : x.ule (x + y) = true ↔ x.toNat + y.toNat < 2 ^ n := by
  have hx := x.isLt
  have hy := y.isLt
  rw [BitVec.ule_eq_decide, decide_eq_true_iff, BitVec.toNat_add]
  constructor
  · intro hle
    by_contra hge
    have hmod := Nat.mod_eq_sub_mod (not_lt.1 hge)
    have hlt := Nat.mod_le (x.toNat + y.toNat - 2 ^ n) (2 ^ n)
    omega
  · intro hlt
    rw [Nat.mod_eq_of_lt hlt]
    omega

/-- A turn of `finishNum` returns the value with one digit more, if it fits. -/
theorem finishNum_digit {reader : Reader Char σ} {s s₁ : σ} {c : Char}
    (hn : 8 ≤ n) (hr : r.toNat = radixToInt radix) (hm : m.toNat = v) (head : reader s = some (c, s₁))
    (hd : charToDigit radix c = some d) :
    (v * radixToInt radix + d < 2 ^ n ∧ ∃ m' : BitVec n, m'.toNat = v * radixToInt radix + d ∧
      ∀ fuel, finishNum radix reader r (fuel + 1) s m = finishNum radix reader r fuel s₁ m') ∨
    (2 ^ n ≤ v * radixToInt radix + d ∧
      ∀ fuel, finishNum radix reader r (fuel + 1) s m = some (.error .overflow)) := by
  obtain ⟨hb, hb'⟩ := radixToInt_bounds radix
  have hlt := charToDigit_lt hd
  have hdigit : (fromInt n d).toNat = d := fromInt_toNat hn (by omega)
  obtain ⟨q, hdiv, hq⟩ := div_mul_iff hm hr hb
  by_cases hprod : v * radixToInt radix < 2 ^ n
  · have hvalue : (m * r).toNat = v * radixToInt radix := by
      rw [BitVec.toNat_mul, hm, hr, Nat.mod_eq_of_lt hprod]
    have hule := ule_add_iff (x := m * r) (y := fromInt n d)
    rw [hvalue, hdigit] at hule
    by_cases hsum : v * radixToInt radix + d < 2 ^ n
    · refine .inl ⟨hsum, m * r + fromInt n d, ?_, fun fuel => ?_⟩
      · rw [BitVec.toNat_add, hvalue, hdigit, Nat.mod_eq_of_lt hsum]
      · simp only [finishNum, head, hd, hdiv, hq.2 hprod, hule.2 hsum, if_true]
    · refine .inr ⟨not_lt.1 hsum, fun fuel => ?_⟩
      simp only [finishNum, head, hd, hdiv, hq.2 hprod, if_true]
      exact if_neg (mt hule.1 hsum)
  · refine .inr ⟨by omega, fun fuel => ?_⟩
    simp only [finishNum, head, hd, hdiv, mt hq.1 hprod, if_false]

end Operations

/-! ### What `fmt` writes -/

section Written

variable {radix : Radix} {r q : BitVec n} {i v : ℕ}

theorem update_eq (buf : Vector Char n) (c : Char) (hi : i < n) :
    ∃ buf', update buf i c = some buf' ∧ buf'.toList.drop i = c :: buf.toList.drop (i + 1) := by
  refine ⟨_, dif_pos hi, ?_⟩
  rw [Vector.toList_set, List.drop_eq_getElem_cons (by simpa using hi), List.getElem_set_self,
    List.drop_set_of_lt (Nat.lt_succ_self i)]

/-- The digits of `v` are written before the place `i + 1`. -/
theorem fmtLoop_eq (hr : r.toNat = radixToInt radix) (hq : q.toNat = v) (hi : i < n)
    (hv : v < 2 ^ (i + 1)) (buf : Vector Char n) :
    ∃ ds, Digits radix ds v ∧ fmtLoop r (i + 1) q buf = some (ds ++ buf.toList.drop (i + 1)) := by
  obtain ⟨hb, -⟩ := radixToInt_bounds radix
  induction i generalizing v q buf with
  | zero =>
    obtain ⟨w, hmod, hw⟩ := mod_ok hq hr hb
    obtain ⟨q', hdiv, hq'⟩ := div_ok hq hr hb
    have hlt : v < radixToInt radix := by omega
    rw [Nat.mod_eq_of_lt hlt] at hw
    rw [Nat.div_eq_of_lt hlt] at hq'
    obtain ⟨c, hc, hdigit⟩ := I.digitToChar_eq hlt
    obtain ⟨buf', hbuf, hdrop⟩ := update_eq buf c hi
    refine ⟨[c], I.digits_singleton hdigit, ?_⟩
    have hzero : q' = 0 := BitVec.eq_of_toNat_eq (by simpa using hq')
    simp only [fmtLoop, hmod, hdiv, Except.toOption, hw, hc, hbuf, Option.bind_eq_bind,
      Option.bind_some, hzero, if_true, hdrop]
    rfl
  | succ i ih =>
    obtain ⟨w, hmod, hw⟩ := mod_ok hq hr hb
    obtain ⟨q', hdiv, hq'⟩ := div_ok hq hr hb
    obtain ⟨c, hc, hdigit⟩ := I.digitToChar_eq (Nat.mod_lt v (by omega : radixToInt radix > 0))
    obtain ⟨buf', hbuf, hdrop⟩ := update_eq buf c hi
    have hsum := Nat.div_add_mod' v (radixToInt radix)
    have hiff : q' = 0 ↔ v / radixToInt radix = 0 := by
      rw [← BitVec.toNat_inj, hq', BitVec.ofNat_eq_ofNat, BitVec.toNat_ofNat, Nat.zero_mod]
    have hturn : fmtLoop r (i + 2) q buf =
        if q' = 0 then some (buf'.toList.drop (i + 1)) else fmtLoop r (i + 1) q' buf' := by
      simp only [fmtLoop, hmod, hdiv, Except.toOption, hw, hc, hbuf, Option.bind_eq_bind,
        Option.bind_some]
    by_cases hzero : v / radixToInt radix = 0
    · rw [hzero, Nat.zero_mul, Nat.zero_add] at hsum
      refine ⟨[c], I.digits_singleton (hsum ▸ hdigit), ?_⟩
      rw [hturn, if_pos (hiff.2 hzero), hdrop]
      rfl
    · have hlt : v / radixToInt radix < 2 ^ (i + 1) := by
        rw [Nat.div_lt_iff_lt_mul (by omega)]
        calc v < 2 ^ (i + 1) * 2 := by rwa [← Nat.pow_succ]
          _ ≤ 2 ^ (i + 1) * radixToInt radix := Nat.mul_le_mul_left _ hb
      obtain ⟨ds, hds, hloop⟩ := ih hq' (by omega) hlt buf'
      refine ⟨ds ++ [c], hsum ▸ I.digits_concat hds hdigit, ?_⟩
      rw [hturn, if_neg (mt hiff.1 hzero), hloop, hdrop]
      simp

/-- The digits of the word are written. -/
theorem fmt_digits (hn : 8 ≤ n) (radix : Radix) (w : BitVec n) (buf : Vector Char n) :
    ∃ ds, Digits radix ds w.toNat ∧ fmt radix w buf = some ds := by
  obtain ⟨i, rfl⟩ : ∃ i, n = i + 1 := ⟨n - 1, by omega⟩
  have hr := fromInt_toNat hn (radixToInt_bounds radix).2
  obtain ⟨ds, hds, hloop⟩ := fmtLoop_eq hr rfl (Nat.lt_succ_self i) w.isLt buf
  refine ⟨ds, hds, ?_⟩
  rw [fmt, hloop, List.drop_eq_nil_of_le (by simp), List.append_nil]

end Written

/-! ### What `scan` reads -/

section Scan

variable {radix : Radix} {reader : Reader Char σ} {s s₁ s₂ s' : σ} {c : Char} {cs white : List Char}
  {v : ℕ}

theorem charToDigit_eq_none (h : isDigit radix c = false) : charToDigit radix c = none := by
  simpa [isDigit] using h

theorem not_atDigit (h : ¬AtDigit radix reader s) (hc : reader s = some (c, s₁)) :
    charToDigit radix c = none := by
  refine charToDigit_eq_none ?_
  cases hd : isDigit radix c with
  | false => rfl
  | true => exact absurd ⟨c, s₁, hc, hd⟩ h

/-- Without a digit the value is returned. -/
theorem finishNum_of_not_atDigit {r : BitVec n} (h : ¬AtDigit radix reader s) (m : BitVec n) :
    Yields (fun fuel => finishNum radix reader r fuel s m) (.ok (some (m, s))) := by
  refine .of_succ fun fuel => ?_
  rw [finishNum]
  cases hs : reader s with
  | none => rfl
  | some cs => simp only [not_atDigit h hs]

variable (hn : 8 ≤ n) {r : BitVec n} (hr : r.toNat = radixToInt radix)

include hn hr

theorem finishNum_of_run {ds : List ℕ} (hrun : Run (isDigit radix) reader s cs s')
    (hds : cs.map (charToDigit radix) = ds.map some) {m : BitVec n} (hm : m.toNat = v) :
    Yields (fun fuel => finishNum radix reader r fuel s m)
      (fits n (v * radixToInt radix ^ ds.length + digitsValue (radixToInt radix) ds) s') := by
  obtain ⟨hreads, hall, hstop⟩ := hrun
  induction hreads generalizing ds v m with
  | nil s =>
    obtain rfl : ds = [] := by simpa using hds.symm
    have hfits : fits n v s = .ok (some (m, s)) := by
      have hlt := m.isLt
      rw [← hm, fits, if_pos hlt, BitVec.ofNat_toNat, BitVec.setWidth_eq]
    simp only [List.length_nil, pow_zero, mul_one, digitsValue_nil, add_zero, hfits]
    refine finishNum_of_not_atDigit ?_ m
    rintro ⟨c, s₁, hc, hd⟩
    rw [hstop c s₁ hc] at hd
    cases hd
  | @cons s s₁ s' c cs head tail ih =>
    cases ds with
    | nil => simp at hds
    | cons d ds =>
      rw [List.map_cons, List.map_cons, List.cons.injEq] at hds
      rw [← foldl_digits, List.foldl_cons, foldl_digits]
      rcases finishNum_digit hn hr hm head hds.1 with ⟨-, m', hm', hturn⟩ | ⟨hge, hturn⟩
      · exact (ih hds.2 hm' (fun c hc => hall c (List.mem_cons_of_mem _ hc)) hstop).succ hturn
      · -- what is read later makes the value no smaller
        have hle := le_foldl_digits (radixToInt_bounds radix).1 (v * radixToInt radix + d) ds
        rw [fits, if_neg (by omega)]
        exact .of_succ hturn

/-- The digits from a stream on. -/
theorem num_of_digits (hrun : Run (isDigit radix) reader s cs s') (hv : Digits radix cs v) :
    Yields (fun fuel => num radix reader r fuel s) (fits n v s') := by
  obtain ⟨-, ds, hds, rfl⟩ := hv
  have hzero : (0 : BitVec n).toNat = 0 := BitVec.toNat_ofNat 0 n
  have hyields := finishNum_of_run hn hr hrun hds hzero
  rwa [Nat.zero_mul, Nat.zero_add] at hyields

/-- The same when the first one is read already. -/
theorem finishNum_of_digits {d : ℕ} (hd : charToDigit radix c = some d)
    (hrun : Run (isDigit radix) reader s cs s') (hv : Digits radix (c :: cs) v) :
    Yields (fun fuel => finishNum radix reader r fuel s (fromInt n d)) (fits n v s') := by
  obtain ⟨d', ds, hd', hds, rfl⟩ := I.Digits.cons_inv hv
  rw [hd] at hd'
  cases hd'
  obtain ⟨-, hb⟩ := radixToInt_bounds radix
  have hlt := charToDigit_lt hd
  exact finishNum_of_run hn hr hrun hds (fromInt_toNat hn (by omega))

omit hn hr

/-! ### Behind a zero -/

/-- Behind a prefix the digits are read. -/
theorem scanChar_of_prefix {pre : List Char} (hpre : pre ∈ wordPrefixes radix)
    (hreads : Reads reader s pre s₂) (fuel : ℕ) :
    scanChar radix reader r fuel s = num radix reader r fuel s₂ := by
  cases radix with
  | hex =>
    simp only [wordPrefixes, List.mem_cons, List.not_mem_nil, or_false] at hpre
    rcases hpre with rfl | rfl | rfl | rfl
    all_goals
      obtain ⟨s₁, h0, htail⟩ := reads_cons_iff.1 hreads
      obtain ⟨s₃, h1, htail⟩ := reads_cons_iff.1 htail
    · obtain ⟨s₄, h2, htail⟩ := reads_cons_iff.1 htail
      cases htail
      simp [scanChar, h0, h1, h2]
    · obtain ⟨s₄, h2, htail⟩ := reads_cons_iff.1 htail
      cases htail
      simp [scanChar, h0, h1, h2]
    · cases htail
      simp [scanChar, h0, h1]
    · cases htail
      simp [scanChar, h0, h1]
  | _ =>
    rw [List.mem_singleton.1 hpre] at hreads
    obtain ⟨s₁, h0, htail⟩ := reads_cons_iff.1 hreads
    obtain ⟨s₃, h1, htail⟩ := reads_cons_iff.1 htail
    cases htail
    simp [scanChar, h0, h1]

theorem scanChar_of_otherLetter {s₃ : σ} (zero : reader s = some ('0', s₁))
    (letter : reader s₁ = some ('w', s₂)) (other : reader s₂ = some (c, s₃))
    (hc : ¬(c = 'x' ∨ c = 'X')) (fuel : ℕ) :
    scanChar .hex reader r fuel s = some (.ok (some (0, s₃))) := by
  simp only [scanChar, zero, letter, other, if_true, if_neg hc]

theorem scanChar_of_foreign {x : Char} (hex : radix ≠ .hex) (zero : reader s = some ('0', s₁))
    (letter : reader s₁ = some (x, s₂)) (hx : x = 'x' ∨ x = 'X') (fuel : ℕ) :
    scanChar radix reader r fuel s = some (.ok none) := by
  have hw : x ≠ 'w' := by rcases hx with rfl | rfl <;> decide
  simp only [scanChar, zero, letter, if_true, if_neg hw, if_pos hx, if_neg hex]

theorem scanChar_of_noDigit {pre : List Char} (hpre : pre ∈ wordPrefixes radix)
    (hreads : Reads reader s pre s₂) (hstop : ¬AtDigit radix reader s₂) :
    Yields (fun fuel => scanChar radix reader r fuel s) (.ok (some (0, s₂))) :=
  (finishNum_of_not_atDigit hstop 0).congr fun fuel => scanChar_of_prefix hpre hreads fuel

theorem isDigit_of_letter {x : Char} (hx : x = 'w' ∨ x = 'x' ∨ x = 'X') :
    isDigit radix x = false := by
  rcases hx with rfl | rfl | rfl <;> cases radix <;> decide

/-- A zero before letters is the whole word, and is returned where the code comes back to it. -/
theorem scanChar_of_letter {x : Char} (zero : reader s = some ('0', s₁))
    (letter : reader s₁ = some (x, s₂)) (hx : x = 'w' ∨ x = 'x' ∨ x = 'X')
    (plain : ∀ s₂, ¬AtWordPrefix radix reader s s₂) (hstray : ¬Strays radix reader s) :
    Yields (fun fuel => scanChar radix reader r fuel s) (.ok (some (0, s₁))) := by
  have hprefix {pre : List Char} {s₃ : σ} (hpre : pre ∈ wordPrefixes radix)
      (hreads : Reads reader s pre s₃) :
      Yields (fun fuel => scanChar radix reader r fuel s) (.ok (some (0, s₁))) := by
    have hstop : ¬AtDigit radix reader s₃ := fun hd => plain s₃ ⟨pre, hpre, hreads, hd⟩
    have hback : s₃ = s₁ := by
      by_contra hne
      exact hstray (.noDigit zero hpre hreads hstop hne)
    exact hback ▸ scanChar_of_noDigit hpre hreads hstop
  have htwo : Reads reader s ['0', x] s₂ := .cons zero (.cons letter (.nil s₂))
  by_cases hex : radix = .hex
  · subst hex
    rcases hx with rfl | hx
    · cases h2 : reader s₂ with
      | none =>
        refine .of_forall fun fuel => ?_
        simp [scanChar, zero, letter, h2]
      | some cs =>
        obtain ⟨c, s₃⟩ := cs
        by_cases hc : c = 'x' ∨ c = 'X'
        · have hthree : Reads reader s ['0', 'w', c] s₃ :=
            .cons zero (.cons letter (.cons h2 (.nil s₃)))
          refine hprefix ?_ hthree
          rcases hc with rfl | rfl <;> simp [wordPrefixes]
        · have hback : s₃ = s₁ := by
            by_contra hne
            exact hstray (.otherLetter rfl zero letter h2 hc hne)
          exact hback ▸ .of_forall fun fuel => scanChar_of_otherLetter zero letter h2 hc fuel
    · refine hprefix ?_ htwo
      rcases hx with rfl | rfl <;> simp [wordPrefixes]
  · rcases hx with rfl | hx
    · refine hprefix ?_ htwo
      cases radix <;> simp [wordPrefixes] at hex ⊢
    · exact absurd (.foreign hex zero letter hx) hstray

/-- Behind a zero and no letter. -/
theorem scanChar_of_zero {x : Char} (zero : reader s = some ('0', s₁))
    (next : reader s₁ = some (x, s₂)) (hx : ¬(x = 'w' ∨ x = 'x' ∨ x = 'X')) (fuel : ℕ) :
    scanChar radix reader r fuel s = num radix reader r fuel s₁ := by
  rw [not_or] at hx
  simp only [scanChar, zero, next, if_true, if_neg hx.1, if_neg hx.2]

theorem scanChar_of_nonzero (head : reader s = some (c, s₁)) (hc : c ≠ '0') {d : ℕ}
    (hd : charToDigit radix c = some d) (fuel : ℕ) :
    scanChar radix reader r fuel s = finishNum radix reader r fuel s₁ (fromInt n d) := by
  simp only [scanChar, head, if_neg hc, hd]

/-- Without a digit there is no word. -/
theorem scanChar_of_not_atDigit (h : ¬AtDigit radix reader s) (fuel : ℕ) :
    scanChar radix reader r fuel s = some (.ok none) := by
  unfold scanChar
  cases hs : reader s with
  | none => rfl
  | some cs =>
    obtain ⟨c, s₁⟩ := cs
    have hc : c ≠ '0' := by
      rintro rfl
      exact h ⟨'0', s₁, hs, isDigit_zero radix⟩
    simp only [if_neg hc, not_atDigit h hs]

theorem finishNum_ne_none (fuel : ℕ) (s : σ) (m : BitVec n) :
    finishNum radix reader r fuel s m ≠ some (.ok none) := by
  induction fuel generalizing s m with
  | zero => exact nofun
  | succ fuel ih =>
    rw [finishNum]
    cases reader s with
    | none => simp
    | some cs =>
      obtain ⟨c, s₁⟩ := cs
      dsimp only
      cases charToDigit radix c with
      | none => simp
      | some d =>
        dsimp only
        cases div (m * r) r with
        | error e => simp
        | ok q =>
          dsimp only
          split_ifs
          · exact ih s₁ _
          · simp
          · simp

/-- With a digit there is a word, but where `NONE` is returned for `0x`. -/
theorem scanChar_ne_none (h : AtDigit radix reader s) (hstray : ¬Strays radix reader s) (fuel : ℕ) :
    scanChar radix reader r fuel s ≠ some (.ok none) := by
  obtain ⟨c, s₁, head, hd⟩ := h
  by_cases hc : c = '0'
  · subst hc
    simp only [scanChar, head, if_true]
    cases h1 : reader s₁ with
    | none => simp
    | some cs =>
      obtain ⟨x, s₂⟩ := cs
      dsimp only
      by_cases hw : x = 'w'
      · rw [if_pos hw]
        split_ifs
        · cases reader s₂ with
          | none => simp
          | some cs =>
            dsimp only
            split_ifs
            · exact finishNum_ne_none fuel _ _
            · simp
        · exact finishNum_ne_none fuel _ _
      · rw [if_neg hw]
        by_cases hx : x = 'x' ∨ x = 'X'
        · have hex : radix = .hex := by
            by_contra hex
            exact hstray (.foreign hex head h1 hx)
          rw [if_pos hx, if_pos hex]
          exact finishNum_ne_none fuel _ _
        · rw [if_neg hx]
          exact finishNum_ne_none fuel _ _
  · obtain ⟨d, hd⟩ := Option.isSome_iff_exists.1 hd
    rw [scanChar_of_nonzero head hc hd]
    exact finishNum_ne_none fuel _ _

include hn hr

/-- Where the code does not stray it finds the word. -/
theorem scanChar_of_scans (h : ScansWord radix reader s v s') (hstray : ¬Strays radix reader s) :
    Yields (fun fuel => scanChar radix reader r fuel s) (fits n v s') := by
  have hzero : fits n 0 s' = .ok (some (0, s')) := if_pos (Nat.two_pow_pos n)
  cases h with
  | prefixed hpre reads run value =>
    exact (num_of_digits hn hr run value).congr fun fuel => scanChar_of_prefix hpre reads fuel
  | @plain cs run value plain =>
    cases run.reads with
    | nil => exact absurd rfl value.1
    | @cons _ s₁ _ c cs head tail =>
      have hrun : Run (isDigit radix) reader s₁ cs s' :=
        ⟨tail, fun d hd => run.all d (List.mem_cons_of_mem _ hd), run.stop⟩
      by_cases hc : c = '0'
      · subst hc
        have hd : charToDigit radix '0' = some 0 := by cases radix <;> decide
        have hnum := finishNum_of_digits hn hr hd hrun value
        -- where a run of digits stops at once the word is the zero
        have hend (hstop : ∀ x s₂, reader s₁ = some (x, s₂) → isDigit radix x = false) :
            v = 0 ∧ s' = s₁ := by
          obtain ⟨rfl, rfl⟩ := hrun.unique (.nil hstop)
          obtain ⟨d, ds, hd', hds, rfl⟩ := I.Digits.cons_inv value
          rw [hd] at hd'
          cases hd'
          obtain rfl : ds = [] := by simpa using hds.symm
          exact ⟨rfl, rfl⟩
        cases h1 : reader s₁ with
        | none =>
          obtain ⟨rfl, rfl⟩ := hend fun x s₂ hx => by
            rw [h1] at hx
            cases hx
          rw [hzero]
          refine .of_forall fun fuel => ?_
          simp only [scanChar, head, h1, if_true]
        | some xs =>
          obtain ⟨x, s₂⟩ := xs
          by_cases hx : x = 'w' ∨ x = 'x' ∨ x = 'X'
          · obtain ⟨rfl, rfl⟩ := hend fun x' s₂' hx' => by
              rw [h1] at hx'
              cases hx'
              exact isDigit_of_letter hx
            rw [hzero]
            exact scanChar_of_letter head h1 hx plain hstray
          · exact hnum.congr fun fuel => scanChar_of_zero head h1 hx fuel
      · obtain ⟨d, hd⟩ := Option.isSome_iff_exists.1 (run.all c List.mem_cons_self)
        exact (finishNum_of_digits hn hr hd hrun value).congr fun fuel =>
          scanChar_of_nonzero head hc hd fuel

end Scan

/-! ### Streams -/

/-- Behind the white space the code strays. -/
def StraysAfterWS (radix : Radix) (reader : Reader Char σ) (s : σ) : Prop :=
  ∃ white s₁, Run isSpace reader s white s₁ ∧ Strays radix reader s₁

section Streams

variable {radix : Radix} {reader : Reader Char σ} {s s₁ s' : σ} {white : List Char}

/-- After the white space. -/
theorem scan_yields (hrun : Run isSpace reader s white s₁)
    {res : Except Exn (Option (BitVec n × σ))}
    (h : Yields (fun fuel => scanChar radix reader (fromInt n (radixToInt radix)) fuel s₁) res) :
    Yields (fun fuel => scan radix reader n fuel s) res :=
  (skipWS_yields hrun).bind
    (k := fun s fuel => scanChar radix reader (fromInt n (radixToInt radix)) fuel s) h

theorem scansExactly_of_not_strays (hn : 8 ≤ n) (hstray : ¬StraysAfterWS radix reader s) :
    ScansExactly n radix reader s where
  of_longest v s' h := by
    obtain ⟨white, s₁, hrun, hscans⟩ := longestWord_iff.1 h
    have hr := fromInt_toNat hn (radixToInt_bounds radix).2
    exact scan_yields hrun (scanChar_of_scans hn hr hscans fun h => hstray ⟨white, s₁, hrun, h⟩)
  none_iff := by
    rw [exists_wordNumeral_iff]
    constructor
    · intro h
      obtain ⟨fuel, hfuel⟩ := h.exists
      obtain ⟨s₁, hskip, hscan⟩ := Option.bind_eq_some_iff.1 hfuel
      obtain ⟨white, hrun⟩ := run_of_skipWS hskip
      refine ⟨⟨white, s₁, hrun⟩, ?_⟩
      rintro ⟨white', s₁', hrun', hdigit⟩
      obtain ⟨rfl, rfl⟩ := hrun.unique hrun'
      exact scanChar_ne_none hdigit (fun h => hstray ⟨white, s₁, hrun, h⟩) fuel hscan
    · rintro ⟨⟨white, s₁, hrun⟩, hnone⟩
      have hdigit : ¬AtDigit radix reader s₁ := fun hd => hnone ⟨white, s₁, hrun, hd⟩
      exact scan_yields hrun (.of_forall (scanChar_of_not_atDigit hdigit))

/-- Where the code strays the zero is the longest word. -/
theorem Strays.scansWord (h : Strays radix reader s) :
    ∃ s₁, reader s = some ('0', s₁) ∧ ScansWord radix reader s 0 s₁ := by
  have hzero {s₁ s₂ : σ} {x : Char} (zero : reader s = some ('0', s₁))
      (letter : reader s₁ = some (x, s₂)) (hx : isDigit radix x = false)
      (plain : ∀ s₃, ¬AtWordPrefix radix reader s s₃) : ScansWord radix reader s 0 s₁ := by
    have hd : charToDigit radix '0' = some 0 := by cases radix <;> decide
    have hrun : Run (isDigit radix) reader s ['0'] s₁ :=
      .cons zero (isDigit_zero radix) (.nil fun c s'' hc => by
        rw [letter] at hc
        cases hc
        exact hx)
    exact .plain hrun (I.digits_singleton hd) plain
  cases h with
  | @otherLetter s₁ s₂ s₃ c hex zero letter other hc hne =>
    subst hex
    refine ⟨s₁, zero, hzero zero letter (by decide) fun s₄ ⟨pre, hpre, hreads, _⟩ => ?_⟩
    have hthree : Reads reader s ['0', 'w', c] s₃ :=
      .cons zero (.cons letter (.cons other (.nil s₃)))
    have hshort : ∀ pre ∈ wordPrefixes .hex, pre.length ≤ 3 := by decide
    obtain ⟨t, ht⟩ := prefix_of_reads hreads hthree (hshort pre hpre)
    rw [not_or] at hc
    simp only [wordPrefixes, List.mem_cons, List.not_mem_nil, or_false] at hpre
    rcases hpre with rfl | rfl | rfl | rfl
    all_goals simp at ht
    · exact hc.1 ht.1.symm
    · exact hc.2 ht.1.symm
  | @noDigit s₁ s₂ pre zero hpre reads stop hne =>
    obtain ⟨x, rest, heq, hx⟩ := exists_letter hpre
    have hreads := reads
    rw [heq] at hreads
    obtain ⟨s₁', zero', htail⟩ := reads_cons_iff.1 hreads
    rw [zero] at zero'
    cases zero'
    obtain ⟨s₃, letter, -⟩ := reads_cons_iff.1 htail
    refine ⟨s₁, zero, hzero zero letter hx ?_⟩
    rintro s₄ ⟨pre', hpre', hreads', hd⟩
    obtain ⟨-, rfl⟩ := wordPrefix_unique hpre hpre' reads hreads'
    exact stop hd
  | @foreign s₁ s₂ x hex zero letter hx =>
    refine ⟨s₁, zero, hzero zero letter (isDigit_of_letter (.inr hx)) ?_⟩
    rintro s₃ ⟨pre, hpre, hreads, -⟩
    have hpre' : pre = ['0', 'w'] := by
      cases radix <;> simp [wordPrefixes] at hex hpre <;> exact hpre
    rw [hpre'] at hreads
    obtain ⟨s₁', zero', htail⟩ := reads_cons_iff.1 hreads
    rw [zero] at zero'
    cases zero'
    obtain ⟨s₄, letter', -⟩ := reads_cons_iff.1 htail
    rw [letter] at letter'
    cases letter'
    rcases hx with hx | hx <;> cases hx

theorem not_scansExactly_of_strays (hrun : Run isSpace reader s white s₁)
    (h : Strays radix reader s₁) : ¬ScansExactly n radix reader s := by
  intro hexact
  obtain ⟨s₂, zero, hscans⟩ := h.scansWord
  have hlong := hexact.of_longest 0 s₂ (longestWord_iff.2 ⟨white, s₁, hrun, hscans⟩)
  rw [fits, if_pos (Nat.two_pow_pos n)] at hlong
  have hother {res : Except Exn (Option (BitVec n × σ))}
      (hres : Yields (fun fuel => scanChar radix reader (fromInt n (radixToInt radix)) fuel s₁) res) :
      res = .ok (some (0, s₂)) := (scan_yields hrun hres).unique hlong
  cases h with
  | @otherLetter s₁' s₂' s₃ c hex zero' letter other hc hne =>
    subst hex
    have heq := hother (.of_forall (scanChar_of_otherLetter zero' letter other hc))
    rw [zero] at zero'
    cases zero'
    cases heq
    exact hne rfl
  | noDigit zero' hpre reads stop hne =>
    have heq := hother (scanChar_of_noDigit hpre reads stop)
    rw [zero] at zero'
    cases zero'
    cases heq
    exact hne rfl
  | foreign hex zero' letter hx =>
    have heq := hother (.of_forall (scanChar_of_foreign hex zero' letter hx))
    cases heq

end Streams

/-! ### Reading back -/

section Strings

variable {radix : Radix} {ds : List Char} {v : ℕ}

theorem longestWord_string (h : Digits radix ds v) :
    LongestWord radix (stringReader ds) 0 v ds.length := by
  have hnum : WordNumeral radix ([] ++ [] ++ ds) v := .mk (by simp) (.inl rfl) h
  refine ⟨ds, hnum, by simpa using reads_string [] ds, ⟨v, hnum⟩, fun cs s' hr _ => ?_⟩
  have hle := length_of_reads hr (Nat.zero_le _)
  omega

/-- There are no letters among digits. -/
theorem not_strays_string (h : Digits radix ds v) : ¬StraysAfterWS radix (stringReader ds) 0 := by
  have hmem {k k' : ℕ} {c : Char} (hc : stringReader ds k = some (c, k')) : isDigit radix c = true := by
    obtain ⟨c', hc', heq⟩ := Option.map_eq_some_iff.1 hc
    cases heq
    exact h.all c (List.mem_of_getElem? hc')
  rintro ⟨white, s₁, -, hstray⟩
  have hletter : ∃ k x k', stringReader ds k = some (x, k') ∧ isDigit radix x = false := by
    cases hstray with
    | otherLetter hex zero letter other hc hne => exact ⟨_, _, _, letter, isDigit_of_letter (.inl rfl)⟩
    | foreign hex zero letter hx => exact ⟨_, _, _, letter, isDigit_of_letter (.inr hx)⟩
    | noDigit zero hpre reads stop hne =>
      obtain ⟨x, rest, rfl, hx⟩ := exists_letter hpre
      obtain ⟨s₂, -, htail⟩ := reads_cons_iff.1 reads
      obtain ⟨s₃, letter, -⟩ := reads_cons_iff.1 htail
      exact ⟨_, _, _, letter, hx⟩
  obtain ⟨k, x, k', hx, hdigit⟩ := hletter
  rw [hmem hx] at hdigit
  cases hdigit

/-- What `fmt` writes is read back. -/
theorem scan_fmt (hn : 8 ≤ n) (radix : Radix) (w : BitVec n) (buf : Vector Char n) :
    ∃ cs, fmt radix w buf = some cs ∧
      Yields (fun fuel => scan radix (stringReader cs) n fuel 0) (.ok (some (w, cs.length))) := by
  obtain ⟨ds, hds, hfmt⟩ := fmt_digits hn radix w buf
  refine ⟨ds, hfmt, ?_⟩
  have hscan := (scansExactly_of_not_strays hn (not_strays_string hds)).of_longest _ _
    (longestWord_string hds)
  rwa [fits, if_pos w.isLt, BitVec.ofNat_toNat, BitVec.setWidth_eq] at hscan

end Strings

/-- The longest word is returned, or `Overflow`, or `NONE`, if and only if the code does not stray
behind a zero, and what is written is read back. -/
theorem scansExactly_iff (hn : 8 ≤ n) (radix : Radix) :
    (∀ (σ : Type) (reader : Reader Char σ) (s : σ),
      ScansExactly n radix reader s ↔ ¬StraysAfterWS radix reader s) ∧
    ∀ (w : BitVec n) (buf : Vector Char n), ∃ cs, fmt radix w buf = some cs ∧
      Yields (fun fuel => scan radix (stringReader cs) n fuel 0) (.ok (some (w, cs.length))) := by
  refine ⟨fun σ reader s => ⟨fun hexact ⟨white, s₁, hrun, hstray⟩ => ?_, ?_⟩, scan_fmt hn radix⟩
  · exact not_scansExactly_of_strays hrun hstray hexact
  · exact scansExactly_of_not_strays hn

/-- A prefixed word, with white space before and a rest behind. -/
theorem scansExactly_seven : ScansExactly 8 .dec (stringReader [' ', '0', 'w', '7', 'z']) 0 := by
  refine ((scansExactly_iff le_rfl .dec).1 _ _ _).2 ?_
  rintro ⟨white, s₁, hrun, hstray⟩
  have hspace : Run isSpace (stringReader [' ', '0', 'w', '7', 'z']) 0 [' '] 1 :=
    .cons rfl rfl (.nil fun c s h => by
      cases h
      rfl)
  obtain ⟨-, rfl⟩ := hspace.unique hrun
  cases hstray with
  | otherLetter hex => cases hex
  | noDigit _ hpre reads stop =>
    obtain rfl := List.mem_singleton.1 hpre
    obtain ⟨_, hzero, htail⟩ := reads_cons_iff.1 reads
    cases hzero
    obtain ⟨_, hletter, hnil⟩ := reads_cons_iff.1 htail
    cases hletter
    cases hnil
    exact stop ⟨_, _, rfl, rfl⟩
  | foreign _ zero letter hx =>
    cases zero
    cases letter
    rcases hx with hx | hx <;> cases hx

/-- Of `0wq` all is read, although only the zero is a word. -/
theorem not_scansExactly_zero_wq :
    Yields (fun fuel => scan .hex (stringReader ['0', 'w', 'q']) 32 fuel 0)
      (.ok (some (0, 3))) ∧
    LongestWord .hex (stringReader ['0', 'w', 'q']) 0 0 1 ∧
    ¬ScansExactly 32 .hex (stringReader ['0', 'w', 'q']) 0 := by
  have hrun : Run isSpace (stringReader ['0', 'w', 'q']) 0 [] 0 :=
    .nil fun c s'' h => by
      cases h
      decide
  have hstray : Strays .hex (stringReader ['0', 'w', 'q']) 0 :=
    .otherLetter (c := 'q') rfl rfl rfl rfl (by decide) (by decide)
  obtain ⟨s₁, hzero, hscans⟩ := hstray.scansWord
  cases hzero
  exact ⟨scan_yields hrun (.of_forall (scanChar_of_otherLetter rfl rfl rfl (by decide))),
    longestWord_iff.2 ⟨[], 0, hrun, hscans⟩, not_scansExactly_of_strays hrun hstray⟩

end W

end MultiMLton.Basis
