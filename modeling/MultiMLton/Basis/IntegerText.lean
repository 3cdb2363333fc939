import MultiMLton.Basis.Numeral
import MultiMLton.Basis.TaggedWord

/-!
# Integers of fixed width as text

`fmt` and `scan` of the functor `Integer` in `integer/int.sml`, over the operations `I`. An `Int` is
an integer without bounds here: the ones they use are places in the buffer and digits.

* `fmt_unsigned`: what is written is a sign, if the integer is negative, and its digits;
* `scan_of_longest`, `scan_none`: the integer of the longest numeral, or `Overflow`, or `NONE`.
-/

namespace MultiMLton.Basis

open StringCvt MultiMLton.Lib List Option

namespace I

variable {n : ℕ} {σ : Type}

/-- `fromInt` -/
def fromInt (n : ℕ) (i : ℤ) : Except Exn (BitVec n) := check n i

/-! ### `fmt` -/

variable (n) in
/-- The buffer of `fmt`, with what was written there last; `maxNumDigits` is its length. -/
def Buffer := { buf : List Char // buf.length = n + 1 }

/-- `CharArray.update`, where it does not raise `Subscript` -/
def Buffer.update (buf : Buffer n) (i : ℕ) (c : Char) : Option (Buffer n) :=
  if i < n + 1 then some ⟨buf.1.set i c, List.length_set.trans buf.2⟩ else none

/-- The end of `loop`: the part of the buffer from `start`. -/
def fmtEnd (neg : Bool) (i : ℕ) (buf : Buffer n) : Option (List Char) :=
  if neg then
    if i = 0 then none else (buf.update (i - 1) '~').map fun buf => buf.1.drop (i - 1)
  else some (buf.1.drop i)

/-- `loop` of `fmt` at the place `i - 1`, where it does not raise; `neg` is `n < zero`. -/
def fmtLoop (radix : BitVec n) (neg : Bool) : ℕ → BitVec n → Buffer n → Option (List Char)
  | 0, _, _ => none
  | i + 1, q, buf => do
    let r ← (rem q radix).toOption
    let buf ← buf.update i (← digitToChar (-r).toInt)
    let q ← (quot q radix).toOption
    if q = 0 then fmtEnd neg i buf else fmtLoop radix neg i q buf

section Equations

attribute [local simp] fmtLoop

end Equations

def fmt (radix : Radix) (w : BitVec n) (buf : Buffer n) : Option (List Char) := do
  let r ← (fromInt n (radixToInt radix)).toOption
  fmtLoop r (w.slt 0) (n + 1) (if w.slt 0 then w else -w) buf

/-! ### `scan` -/

variable (radix : Radix) (reader : Reader Char σ)

/-- `finishNum` of `scan`, for so many turns. -/
def finishNum (radixInt : BitVec n) : ℕ → σ → BitVec n → Option (Except Exn (BitVec n × σ))
  | 0, _, _ => none
  | fuel + 1, s, m =>
    match reader s with
    | none => some (.ok (m, s))
    | some (c, s') =>
      match charToDigit radix c with
      | none => some (.ok (m, s))
      | some d =>
        match (do let d ← fromInt n d; sub (← mul m radixInt) d : Except Exn (BitVec n)) with
        | .ok m => finishNum radixInt fuel s' m
        | .error e => some (.error e)

section Equations

attribute [local simp] finishNum

end Equations

/-- The end of `num`: the first digit, and what to return without one. -/
def firstDigit (radixInt : BitVec n) (fuel : ℕ) (c : Char) (s' : σ)
    (otherwise : Option (BitVec n × σ)) : Option (Except Exn (Option (BitVec n × σ))) :=
  match charToDigit radix c with
  | none => some (.ok otherwise)
  | some d =>
    match fromInt n d with
    | .ok m => (finishNum radix reader radixInt fuel s' (-m)).map fun r => r.map some
    | .error e => some (.error e)

section Equations

attribute [local simp] firstDigit

end Equations

/-- `num` of `scan` -/
def num (radixInt : BitVec n) (fuel : ℕ) (s : σ) : Option (Except Exn (Option (BitVec n × σ))) :=
  match reader s with
  | none => some (.ok none)
  | some (c, s) =>
    if c = '0' ∧ radix = .hex then
      match reader s with
      | none => some (.ok (some (0, s)))
      | some (c, s') =>
        if c = 'x' ∨ c = 'X' then
          match reader s' with
          | none => some (.ok (some (0, s)))
          | some (c, s') => firstDigit radix reader radixInt fuel c s' (some (0, s))
        else firstDigit radix reader radixInt fuel c s' (some (0, s))
    else firstDigit radix reader radixInt fuel c s none

section Equations

attribute [local simp] num

end Equations

/-- `negate` of `scan`, after `num` -/
def negateNum : Option (BitVec n × σ) → Except Exn (Option (BitVec n × σ))
  | none => .ok none
  | some (m, s) => (neg m).map fun m => some (m, s)

/-- `negate` of `scan` -/
def negate (radixInt : BitVec n) (fuel : ℕ) (s : σ) : Option (Except Exn (Option (BitVec n × σ))) :=
  (num radix reader radixInt fuel s).map fun r => r.bind negateNum

/-- The end of `scan`. -/
def scanSign (radixInt : BitVec n) (fuel : ℕ) (s : σ) :
    Option (Except Exn (Option (BitVec n × σ))) :=
  match reader s with
  | none => some (.ok none)
  | some (c, s') =>
    if c = '~' ∨ c = '-' then num radix reader radixInt fuel s'
    else if c = '+' then negate radix reader radixInt fuel s'
    else negate radix reader radixInt fuel s

def scan (n : ℕ) (fuel : ℕ) (s : σ) : Option (Except Exn (Option (BitVec n × σ))) := do
  let s ← skipWS reader fuel s
  match fromInt n (radixToInt radix) with
  | .error e => some (.error e)
  | .ok radixInt => scanSign radix reader radixInt fuel s

/-! ### What `fmt` writes -/

section Operations

variable (hn : 8 ≤ n)

include hn

theorem le_two_pow : (128 : ℤ) ≤ 2 ^ (n - 1) := by
  have h : (2 : ℕ) ^ 7 ≤ 2 ^ (n - 1) := Nat.pow_le_pow_right (by norm_num) (by omega)
  exact_mod_cast h

/-- What fits is returned. -/
theorem check_ok {i : ℤ} (hlo : -2 ^ (n - 1) ≤ i) (hhi : i < 2 ^ (n - 1)) :
    ∃ w : BitVec n, check n i = .ok w ∧ w.toInt = i :=
  ⟨_, if_pos ⟨hlo, hhi⟩, BitVec.toInt_ofInt_eq_self (by omega) hlo hhi⟩

omit hn in
theorem check_overflow {i : ℤ} (h : ¬(-2 ^ (n - 1) ≤ i ∧ i < 2 ^ (n - 1))) :
    check n i = .error .overflow := if_neg h

theorem fromInt_ok {d : ℕ} (hd : d ≤ 16) : ∃ w, fromInt n d = .ok w ∧ w.toInt = d := by
  have := le_two_pow hn
  exact check_ok hn (by omega) (by omega)

/-- Negation without the check. -/
theorem neg_toInt {w : BitVec n} {i : ℤ} (hw : w.toInt = i) (hi : -2 ^ (n - 1) < i) :
    (-w).toInt = -i := by
  have hlt := BitVec.toInt_lt (x := w)
  rw [BitVec.toInt_neg_of_ne_intMin, hw]
  rintro rfl
  rw [BitVec.toInt_intMin_of_pos (by omega)] at hw
  omega

variable {q r : BitVec n} {v b : ℕ} (hq : q.toInt = -v) (hr : r.toInt = b) (hb : 2 ≤ b)

include hr hb

theorem ne_of_radix : r ≠ 0 ∧ r ≠ -1 := by
  constructor
  · rintro rfl
    simp at hr
    omega
  · rintro rfl
    have hpos := le_two_pow hn
    have hone : (-1#n).toInt = -1 := neg_toInt hn (one_toInt (by omega)) (by omega)
    have hb' : (-1#n).toInt = b := hr
    omega

include hq

theorem rem_eq : ∃ w, rem q r = .ok w ∧ w.toInt = -(v % b : ℕ) := by
  obtain ⟨hzero, hone⟩ := ne_of_radix hn hr hb
  refine ⟨_, (if_neg hzero).trans (if_neg fun h => hone h.2), ?_⟩
  rw [BitVec.toInt_srem, hq, hr, Int.neg_tmod]
  norm_cast

theorem quot_eq : ∃ w, quot q r = .ok w ∧ w.toInt = -(v / b : ℕ) := by
  obtain ⟨hzero, hone⟩ := ne_of_radix hn hr hb
  refine ⟨_, (if_neg hzero).trans (if_neg fun h => hone h.2), ?_⟩
  rw [BitVec.toInt_sdiv_of_ne_or_ne _ _ (.inr hone), hq, hr, Int.neg_tdiv]
  norm_cast

end Operations

theorem digitToChar_eq {radix : Radix} {d : ℕ} (hd : d < radixToInt radix) :
    ∃ c, digitToChar d = some c ∧ charToDigit radix c = some d := by
  cases radix <;> simp only [radixToInt] at hd <;> interval_cases d <;> exact ⟨_, rfl, by decide⟩

theorem Buffer.update_eq (buf : Buffer n) {i : ℕ} (c : Char) (hi : i < n + 1) :
    ∃ buf', buf.update i c = some buf' ∧ buf'.1.drop i = c :: buf.1.drop (i + 1) := by
  refine ⟨_, if_pos hi, ?_⟩
  have hlen : i < buf.1.length := by rwa [buf.2]
  rw [drop_eq_getElem_cons (by rwa [length_set]), getElem_set_self,
    drop_set_of_lt (Nat.lt_succ_self i)]

variable {radix : Radix}

theorem digits_concat {cs : List Char} {v d : ℕ} {c : Char} (hcs : Digits radix cs v)
    (hc : charToDigit radix c = some d) :
    Digits radix (cs ++ [c]) (v * radixToInt radix + d) := by
  obtain ⟨-, ds, hds, rfl⟩ := hcs
  refine ⟨by simp, ds ++ [d], ?_, digitsValue_concat _ _ _⟩
  rw [map_append, map_append, hds]
  simp [hc]

theorem digits_singleton {d : ℕ} {c : Char} (hc : charToDigit radix c = some d) :
    Digits radix [c] d :=
  ⟨by simp, [d], by simp [hc], by simp [digitsValue]⟩

/-- A sign of what is written. -/
def tilde (neg : Bool) : List Char := if neg then ['~'] else []

theorem fmtEnd_eq {neg : Bool} {i : ℕ} {buf : Buffer n} {cs : List Char}
    (hi : i < n + 1) (hneg : neg = true → i ≠ 0) (hbuf : buf.1.drop i = cs) :
    fmtEnd neg i buf = some (tilde neg ++ cs) := by
  cases neg with
  | false => exact congrArg some hbuf
  | true =>
    obtain ⟨buf', hupdate, hdrop⟩ := buf.update_eq '~' (by omega : i - 1 < n + 1)
    rw [Nat.sub_add_cancel (Nat.one_le_iff_ne_zero.2 (hneg rfl)), hbuf] at hdrop
    rw [fmtEnd, if_pos rfl, if_neg (hneg rfl), hupdate, map_some, hdrop]
    rfl

section Written

variable (hn : 8 ≤ n) {r : BitVec n} (hr : r.toInt = radixToInt radix) {neg : Bool} {i v : ℕ}
  {q : BitVec n} (hq : q.toInt = -v) (hi : i < n + 1) (buf : Buffer n)

include hn hr hq hi

variable (neg) in
/-- A turn writes the last digit of `v`. -/
theorem fmtLoop_turn :
    ∃ c q' buf', charToDigit radix c = some (v % radixToInt radix) ∧
      q'.toInt = -((v / radixToInt radix : ℕ) : ℤ) ∧ buf'.1.drop i = c :: buf.1.drop (i + 1) ∧
      fmtLoop r neg (i + 1) q buf =
        if q' = 0 then fmtEnd neg i buf' else fmtLoop r neg i q' buf' := by
  obtain ⟨hb, hb'⟩ := radixToInt_bounds radix
  have hpos := le_two_pow hn
  have hlt := Nat.mod_lt v (by omega : radixToInt radix > 0)
  obtain ⟨w, hrem, hw⟩ := rem_eq hn hq hr hb
  obtain ⟨q', hquot, hq'⟩ := quot_eq hn hq hr hb
  obtain ⟨c, hc, hdigit⟩ := digitToChar_eq hlt
  obtain ⟨buf', hbuf, hdrop⟩ := buf.update_eq c hi
  refine ⟨c, q', buf', hdigit, hq', hdrop, ?_⟩
  have hminus : (-w).toInt = (v % radixToInt radix : ℕ) := by
    rw [neg_toInt hn hw (by omega), neg_neg]
  simp only [fmtLoop, hrem, hquot, Except.toOption, hminus, hc, hbuf, bind_eq_bind,
    bind_some]

variable (neg) in
/-- The digits of `v` and the sign are written before the place `i + 1`. -/
theorem fmtLoop_eq (hv : v < 2 ^ i) (hneg : neg = true → 0 < v) :
    ∃ ds, Digits radix ds v ∧
      fmtLoop r neg (i + 1) q buf = some (tilde neg ++ ds ++ buf.1.drop (i + 1)) := by
  obtain ⟨hb, -⟩ := radixToInt_bounds radix
  induction i generalizing v q buf with
  | zero =>
    obtain rfl : v = 0 := by simpa using hv
    obtain ⟨c, q', buf', hc, hq', hdrop, hturn⟩ := fmtLoop_turn hn hr neg hq hi buf
    have hzero : q' = 0 := BitVec.eq_of_toInt_eq (by simpa using hq')
    refine ⟨[c], digits_singleton (by simpa using hc), ?_⟩
    rw [hturn, if_pos hzero, fmtEnd_eq hi (fun h => absurd (hneg h) (lt_irrefl 0)) hdrop]
    simp
  | succ i ih =>
    obtain ⟨c, q', buf', hc, hq', hdrop, hturn⟩ := fmtLoop_turn hn hr neg hq hi buf
    have hmod := Nat.div_add_mod' v (radixToInt radix)
    have hiff : q' = 0 ↔ v / radixToInt radix = 0 := by
      rw [← BitVec.toInt_inj, hq', BitVec.ofNat_eq_ofNat, BitVec.toInt_zero]
      omega
    by_cases hzero : v / radixToInt radix = 0
    · rw [hzero, Nat.zero_mul, Nat.zero_add] at hmod
      refine ⟨[c], digits_singleton (hmod ▸ hc), ?_⟩
      rw [hturn, if_pos (hiff.2 hzero), fmtEnd_eq hi (fun _ => Nat.succ_ne_zero i) hdrop]
      simp
    · have hlt : v / radixToInt radix < 2 ^ i := by
        rw [Nat.div_lt_iff_lt_mul (by omega)]
        calc v < 2 ^ i * 2 := by rwa [← Nat.pow_succ]
          _ ≤ 2 ^ i * radixToInt radix := Nat.mul_le_mul_left _ hb
      obtain ⟨ds, hds, hloop⟩ := ih hq' (by omega) buf' hlt fun _ => Nat.pos_of_ne_zero hzero
      refine ⟨ds ++ [c], hmod ▸ digits_concat hds hc, ?_⟩
      rw [hturn, if_neg (mt hiff.1 hzero), hloop, hdrop]
      simp

end Written

/-- A sign, if the integer is negative, and its digits are written. -/
theorem fmt_unsigned (hn : 8 ≤ n) (radix : Radix) (w : BitVec n) (buf : Buffer n) :
    ∃ ds, Digits radix ds w.toInt.natAbs ∧
      fmt radix w buf = some (tilde (decide (w.toInt < 0)) ++ ds) := by
  have hpos := le_two_pow hn
  have hlo := BitVec.le_toInt w
  have hhi := BitVec.toInt_lt (x := w)
  obtain ⟨r, hfrom, hr⟩ := fromInt_ok hn (radixToInt_bounds radix).2
  have hslt : w.slt 0 = decide (w.toInt < 0) := by
    rw [BitVec.slt_eq_decide, BitVec.ofNat_eq_ofNat, BitVec.toInt_zero]
  have hq : (if w.slt 0 then w else -w).toInt = -(w.toInt.natAbs : ℤ) := by
    rw [hslt]
    by_cases hneg : w.toInt < 0
    · rw [decide_eq_true hneg, if_pos rfl]
      omega
    · rw [decide_eq_false hneg, if_neg Bool.false_ne_true, neg_toInt hn rfl (by omega)]
      omega
  have hv : w.toInt.natAbs < 2 ^ n := by
    have hpow : 2 ^ n = 2 ^ (n - 1) * 2 := by rw [← Nat.pow_succ]; congr; omega
    have hcast : ((2 ^ (n - 1) : ℕ) : ℤ) = 2 ^ (n - 1) := by norm_cast
    omega
  obtain ⟨ds, hds, hloop⟩ := fmtLoop_eq hn hr (decide (w.toInt < 0)) hq (Nat.lt_succ_self n) buf hv
    fun h => by
      have := of_decide_eq_true h
      omega
  refine ⟨ds, hds, ?_⟩
  rw [fmt, hfrom]
  simp only [Except.toOption, bind_eq_bind, bind_some]
  rw [hslt] at hloop ⊢
  rw [hloop, drop_eq_nil_of_le (by rw [buf.2]), append_nil]

/-! ### What `scan` reads -/

section Scan

variable {reader : Reader Char σ} {s s₁ s₂ s' : σ} {c : Char} {cs : List Char} {v : ℕ}

theorem Digits.cons_inv (h : Digits radix (c :: cs) v) :
    ∃ d ds, charToDigit radix c = some d ∧ cs.map (charToDigit radix) = ds.map some ∧
      v = d * radixToInt radix ^ ds.length + digitsValue (radixToInt radix) ds := by
  obtain ⟨-, ds, hds, hv⟩ := h
  cases ds with
  | nil => simp at hds
  | cons d ds =>
    rw [map_cons, map_cons, List.cons.injEq] at hds
    exact ⟨d, ds, hds.1, hds.2, by rw [← hv, digitsValue_cons]⟩

/-- A digit that is not zero is read in the last place. -/
theorem digits_zero (hc : charToDigit radix c = some 0) (hne : cs ≠ [])
    (h : Digits radix (c :: cs) v) : Digits radix cs v := by
  obtain ⟨d, ds, hd, hds, hv⟩ := Digits.cons_inv h
  rw [hc] at hd
  cases hd
  exact ⟨hne, ds, hds, by rw [hv, Nat.zero_mul, Nat.zero_add]⟩

variable (hn : 8 ≤ n)

include hn

/-- The negation of a value fits, or does not. -/
theorem check_neg (v : ℕ) :
    ((v : ℤ) ≤ 2 ^ (n - 1) ∧ ∃ w : BitVec n, check n (-v) = .ok w ∧ w.toInt = -v) ∨
    (2 ^ (n - 1) < (v : ℤ) ∧ check n (-(v : ℤ)) = .error .overflow) := by
  have := le_two_pow hn
  rcases le_or_gt (v : ℤ) (2 ^ (n - 1)) with h | h
  · exact .inl ⟨h, check_ok hn (by omega) (by omega)⟩
  · exact .inr ⟨h, check_overflow (by omega)⟩

variable {r : BitVec n} (hr : r.toInt = radixToInt radix)

include hr

/-- One more digit. -/
theorem finishNum_digit {d : ℕ} (hd : d < radixToInt radix) {m : BitVec n} (hm : m.toInt = -v) :
    (do let d ← fromInt n d; sub (← mul m r) d : Except Exn (BitVec n)) =
      check n (-((v * radixToInt radix + d : ℕ) : ℤ)) := by
  obtain ⟨-, hb⟩ := radixToInt_bounds radix
  obtain ⟨w, hfrom, hw⟩ := fromInt_ok hn (by omega : d ≤ 16)
  have hmul : mul m r = check n (-((v * radixToInt radix : ℕ) : ℤ)) := by
    rw [mul, hm, hr]
    push_cast
    rw [Int.neg_mul]
  rw [hfrom, hmul]
  rcases check_neg hn (v * radixToInt radix) with ⟨-, p, hp, hvalue⟩ | ⟨hlt, hp⟩
  · rw [hp]
    show check n (p.toInt - w.toInt) = _
    rw [hvalue, hw]
    congr 1
    omega
  · rw [hp]
    exact (check_overflow (by push_cast at hlt ⊢; omega)).symm

theorem finishNum_of_run {ds : List ℕ} (hrun : Run (isDigit radix) reader s cs s')
    (hds : cs.map (charToDigit radix) = ds.map some) {m : BitVec n} (hm : m.toInt = -v) :
    Yields (fun fuel => finishNum radix reader r fuel s m)
      ((check n (-((v * radixToInt radix ^ ds.length +
        digitsValue (radixToInt radix) ds : ℕ) : ℤ))).map fun m => (m, s')) := by
  obtain ⟨hreads, hall, hstop⟩ := hrun
  have hpos := le_two_pow hn
  induction hreads generalizing ds v m with
  | nil s =>
    obtain rfl : ds = [] := by simpa using hds.symm
    have hlo := BitVec.le_toInt m
    have hhi := BitVec.toInt_lt (x := m)
    have hcheck : check n (-(v : ℤ)) = .ok m := by
      rw [← hm, check, if_pos ⟨hlo, hhi⟩, BitVec.ofInt_toInt]
    refine .of_succ fun fuel => ?_
    simp only [length_nil, pow_zero, mul_one, digitsValue_nil, add_zero, hcheck]
    rw [finishNum]
    cases hs : reader s with
    | none => rfl
    | some cs₁ =>
      obtain ⟨c, s₁⟩ := cs₁
      have hnone : charToDigit radix c = none := by simpa [isDigit] using hstop c s₁ hs
      simp only [hnone]
      rfl
  | @cons s s₁ s' c cs head tail ih =>
    cases ds with
    | nil => simp at hds
    | cons d ds =>
      rw [map_cons, map_cons, List.cons.injEq] at hds
      have hall' := fun c hc => hall c (mem_cons_of_mem _ hc)
      have hd := charToDigit_lt hds.1
      have hturn := finishNum_digit hn hr (charToDigit_lt hds.1) hm
      rw [← foldl_digits, foldl_cons, foldl_digits]
      rcases check_neg hn (v * radixToInt radix + d) with ⟨-, m', hm', htoInt⟩ | ⟨hlt, hm'⟩
      · refine (ih hds.2 htoInt hall' hstop).succ fun fuel => ?_
        simp only [finishNum, head, hds.1, hturn, hm']
      · -- what is read later makes the value no smaller
        have hle := le_foldl_digits (radixToInt_bounds radix).1 (v * radixToInt radix + d) ds
        rw [check_overflow (by omega)]
        refine .of_succ fun fuel => ?_
        simp only [finishNum, head, hds.1, hturn, hm']
        rfl

/-- The digits from `c` on. -/
theorem firstDigit_of_digits (hrun : Run (isDigit radix) reader s cs s')
    (hv : Digits radix (c :: cs) v) (otherwise : Option (BitVec n × σ)) :
    Yields (fun fuel => firstDigit radix reader r fuel c s otherwise)
      ((check n (-(v : ℤ))).map fun m => some (m, s')) := by
  obtain ⟨d, ds, hd, hds, rfl⟩ := Digits.cons_inv hv
  have hlt := charToDigit_lt hd
  obtain ⟨-, hb⟩ := radixToInt_bounds radix
  have hpos := le_two_pow hn
  obtain ⟨w, hfrom, hw⟩ := fromInt_ok hn (by omega : d ≤ 16)
  have hloop := finishNum_of_run hn hr hrun hds (neg_toInt hn hw (by omega))
  have hmap : ∀ r : Except Exn (BitVec n),
      (r.map fun m => (m, s')).map some = r.map fun m => some (m, s') := fun r => by cases r <;> rfl
  rw [← hmap]
  refine (hloop.map fun r => r.map some).congr fun fuel => ?_
  simp only [firstDigit, hd, hfrom]

omit hn hr

theorem firstDigit_of_not (hc : isDigit radix c = false) (fuel : ℕ)
    (otherwise : Option (BitVec n × σ)) :
    firstDigit radix reader r fuel c s otherwise = some (.ok otherwise) := by
  have hnone : charToDigit radix c = none := by simpa [isDigit] using hc
  simp only [firstDigit, hnone]

theorem firstDigit_ne_none (fuel : ℕ) (hc : isDigit radix c = true)
    (otherwise : Option (BitVec n × σ)) :
    firstDigit radix reader r fuel c s otherwise ≠ some (.ok none) := by
  obtain ⟨d, hd⟩ := isSome_iff_exists.1 hc
  simp only [firstDigit, hd]
  cases fromInt n d with
  | error e => simp
  | ok m =>
    intro hnone
    obtain ⟨res, -, hres⟩ := map_eq_some_iff.1 hnone
    cases res <;> cases hres

/-- Without a digit there is no number. -/
theorem num_of_not_atDigit (h : ¬AtDigit radix reader s) (fuel : ℕ) :
    num radix reader r fuel s = some (.ok none) := by
  unfold num
  cases hs : reader s with
  | none => rfl
  | some cs₁ =>
    obtain ⟨c, s₁⟩ := cs₁
    have hc : isDigit radix c = false := by
      cases hc : isDigit radix c with
      | false => rfl
      | true => exact (h ⟨c, s₁, hs, hc⟩).elim
    have hzero : ¬(c = '0' ∧ radix = .hex) := by
      rintro ⟨rfl, rfl⟩
      exact absurd hc (by decide)
    simp only [if_neg hzero]
    exact firstDigit_of_not hc fuel none

/-- With a digit there is one. -/
theorem num_ne_none (h : AtDigit radix reader s) (fuel : ℕ) :
    num radix reader r fuel s ≠ some (.ok none) := by
  obtain ⟨c, s₁, hs, hc⟩ := h
  have hother : ∀ c s₂, firstDigit radix reader r fuel c s₂ (some (0, s₁)) ≠ some (.ok none) := by
    intro c s₂
    cases hc : isDigit radix c with
    | true => exact firstDigit_ne_none fuel hc _
    | false => rw [firstDigit_of_not hc]; simp
  simp only [num, hs]
  split
  · cases reader s₁ with
    | none => simp
    | some cs₂ =>
      obtain ⟨x, s₂⟩ := cs₂
      dsimp only
      split
      · cases reader s₂ with
        | none => simp
        | some cs₃ => exact hother cs₃.1 cs₃.2
      · exact hother x s₂
  · exact firstDigit_ne_none fuel hc none

/-- A zero that no digit follows. -/
theorem num_of_zero (head : reader s = some ('0', s₁))
    (hstop : ∀ c s₂, reader s₁ = some (c, s₂) → isDigit .hex c = false)
    (plain : ∀ s₂, ¬AtPrefix .hex reader s s₂) (fuel : ℕ) :
    num .hex reader r fuel s = some (.ok (some (0, s₁))) := by
  simp only [num, head, and_self, if_true]
  cases h1 : reader s₁ with
  | none => rfl
  | some cs₂ =>
    obtain ⟨x, s₂⟩ := cs₂
    dsimp only
    split
    · rename_i hx
      cases h2 : reader s₂ with
      | none => rfl
      | some cs₃ =>
        obtain ⟨c, s₃⟩ := cs₃
        refine firstDigit_of_not ?_ fuel _
        cases hc : isDigit .hex c with
        | false => rfl
        | true => exact (plain s₂ ⟨rfl, s₁, x, head, h1, hx, c, s₃, h2, hc⟩).elim
    · exact firstDigit_of_not (hstop x s₂ h1) fuel _

include hn hr

/-- The negation of an unsigned numeral. -/
theorem num_of_scans (h : Scans radix reader s v s') :
    Yields (fun fuel => num radix reader r fuel s)
      ((check n (-(v : ℤ))).map fun m => some (m, s')) := by
  have hzero : check n (-((0 : ℕ) : ℤ)) = .ok 0 := by
    have := le_two_pow hn
    rw [check, if_pos (by omega)]
    rfl
  cases h with
  | @prefixed s₂ cs pre run value =>
    obtain ⟨rfl, s₁, x, h0, h1, hx, c, s₃, h2, hc⟩ := pre
    cases run.reads with
    | nil => exact (value.1 rfl).elim
    | @cons _ s₄ _ c' cs head tail =>
      obtain ⟨rfl, rfl⟩ : c' = c ∧ s₄ = s₃ := by
        rw [h2] at head
        cases head
        exact ⟨rfl, rfl⟩
      have hrun : Run (isDigit .hex) reader s₄ cs s' :=
        ⟨tail, fun d hd => run.all d (mem_cons_of_mem _ hd), run.stop⟩
      refine (firstDigit_of_digits hn hr hrun value (some (0, s₁))).congr fun fuel => ?_
      simp only [num, h0, h1, h2, hx, if_true, and_self]
  | @plain cs run value plain =>
    cases run.reads with
    | nil => exact (value.1 rfl).elim
    | @cons _ s₁ _ c cs head tail =>
      have hrun : Run (isDigit radix) reader s₁ cs s' :=
        ⟨tail, fun d hd => run.all d (mem_cons_of_mem _ hd), run.stop⟩
      by_cases hhex : c = '0' ∧ radix = .hex
      · obtain ⟨rfl, rfl⟩ := hhex
        cases tail with
        | nil =>
          obtain ⟨d, ds, hd, hds, rfl⟩ := Digits.cons_inv value
          obtain rfl : d = 0 := (Option.some.inj hd).symm
          obtain rfl : ds = [] := by simpa using hds.symm
          refine .of_forall fun fuel => ?_
          rw [num_of_zero head run.stop plain]
          exact congrArg some (congrArg (Except.map fun m => some (m, s')) hzero).symm
        | @cons _ s₂ _ x cs head' tail =>
          have hx : ¬(x = 'x' ∨ x = 'X') := fun hx => by
            have := run.all x (by simp)
            rw [isDigit_of_x hx] at this
            cases this
          have hrun' : Run (isDigit .hex) reader s₂ cs s' :=
            ⟨tail, fun d hd => hrun.all d (mem_cons_of_mem _ hd), run.stop⟩
          have hvalue := digits_zero (by decide) (cons_ne_nil _ _) value
          refine (firstDigit_of_digits hn hr hrun' hvalue (some (0, s₁))).congr fun fuel => ?_
          simp only [num, head, head', hx, and_self, if_true, if_false]
      · refine (firstDigit_of_digits hn hr hrun value none).congr fun fuel => ?_
        simp only [num, head, if_neg hhex]

theorem negate_of_scans (h : Scans radix reader s v s') :
    Yields (fun fuel => negate radix reader r fuel s) ((check n v).map fun m => some (m, s')) := by
  have hneg := (num_of_scans hn hr h).map fun r => r.bind negateNum
  rcases check_neg hn v with ⟨-, m, hm, htoInt⟩ | ⟨hlt, hm⟩
  · have hcheck : neg m = check n v := by rw [neg, htoInt, neg_neg]
    rw [hm] at hneg
    rw [← hcheck]
    exact hneg
  · rw [hm] at hneg
    rw [check_overflow (by omega)]
    exact hneg

end Scan

/-! ### `scan` -/

section Signed

variable {reader : Reader Char σ} {s s₁ s' : σ} {white : List Char}

theorem radix_ok (hn : 8 ≤ n) (radix : Radix) :
    ∃ r : BitVec n, fromInt n (radixToInt radix) = .ok r ∧ r.toInt = radixToInt radix :=
  fromInt_ok hn (radixToInt_bounds radix).2

/-- After the white space. -/
theorem scan_yields (hrun : Run isSpace reader s white s₁) {r : BitVec n}
    (hr : fromInt n (radixToInt radix) = .ok r) {res : Except Exn (Option (BitVec n × σ))}
    (h : Yields (fun fuel => scanSign radix reader r fuel s₁) res) :
    Yields (fun fuel => scan radix reader n fuel s) res := by
  refine ((skipWS_yields hrun).bind (k := fun s fuel => scanSign radix reader r fuel s) h).congr
    fun fuel => ?_
  simp only [scan, hr]
  rfl

theorem scanSign_of_not_sign {r : BitVec n} {fuel : ℕ} (h : ∀ neg s₂, ¬AtSign reader s neg s₂) :
    scanSign radix reader r fuel s = negate radix reader r fuel s := by
  unfold scanSign
  cases hs : reader s with
  | none => simp [negate, num, hs, negateNum, Except.bind]
  | some cs =>
    obtain ⟨c, s'⟩ := cs
    have hminus : ¬(c = '~' ∨ c = '-') := by
      rintro (rfl | rfl)
      · exact h true s' ⟨_, hs, .tilde⟩
      · exact h true s' ⟨_, hs, .minus⟩
    have hplus : c ≠ '+' := by
      rintro rfl
      exact h false s' ⟨_, hs, .plus⟩
    dsimp only
    rw [if_neg hminus, if_neg hplus]

theorem scanSign_of_sign {r : BitVec n} {fuel : ℕ} {neg : Bool} (h : AtSign reader s neg s₁) :
    scanSign radix reader r fuel s =
      if neg then num radix reader r fuel s₁ else negate radix reader r fuel s₁ := by
  obtain ⟨c, hs, hsign⟩ := h
  rcases hsign.cases with ⟨rfl, rfl⟩ | ⟨rfl, rfl⟩ | ⟨rfl, rfl⟩ <;> simp [scanSign, hs]

/-- The integer of the longest numeral is returned if it fits, else `Overflow` is raised. -/
theorem scan_of_longest (hn : 8 ≤ n) {i : ℤ} (h : LongestNumeral radix reader s i s') :
    Yields (fun fuel => scan radix reader n fuel s) ((check n i).map fun w => some (w, s')) := by
  obtain ⟨r, hfrom, hr⟩ := radix_ok hn radix
  obtain ⟨white, s₁, hrun, v, ⟨rfl, hlong⟩ | ⟨neg, s₂, hsign, rfl, hlong⟩⟩ := h.cases
  · obtain ⟨cs, hcs, hlongest⟩ := hlong
    have hdigit := hcs.atDigit hlongest.reads
    refine scan_yields hrun hfrom ?_
    refine (negate_of_scans hn hr (scans_of_longest ⟨cs, hcs, hlongest⟩)).congr fun fuel => ?_
    exact scanSign_of_not_sign fun neg s₂ => hdigit.not_atSign
  · have hscans := scans_of_longest hlong
    refine scan_yields hrun hfrom ?_
    cases neg with
    | true => exact (num_of_scans hn hr hscans).congr fun fuel => scanSign_of_sign hsign
    | false => exact (negate_of_scans hn hr hscans).congr fun fuel => scanSign_of_sign hsign

theorem negate_eq_none_iff {r : BitVec n} {fuel : ℕ} :
    negate radix reader r fuel s = some (.ok none) ↔
      num radix reader r fuel s = some (.ok none) := by
  unfold negate
  constructor
  · intro h
    obtain ⟨res, hres, hbind⟩ := map_eq_some_iff.1 h
    cases res with
    | error e => cases hbind
    | ok ms =>
      cases ms with
      | none => exact hres
      | some m =>
        have hneg : (I.neg m.1).map (fun w => some (w, m.2)) = .ok none := hbind
        cases hm : I.neg m.1 <;> rw [hm] at hneg <;> cases hneg
  · intro h
    rw [h]
    rfl

/-- `NONE` is returned if and only if the white space ends and there is no numeral. -/
theorem scan_none_iff (hn : 8 ≤ n) :
    Yields (fun fuel => scan radix reader n fuel s) (.ok none) ↔
      (∃ white s₁, Run isSpace reader s white s₁) ∧
        ¬∃ cs s' v, Reads reader s cs s' ∧ Numeral radix cs v := by
  obtain ⟨r, hfrom, hr⟩ := radix_ok hn radix
  rw [exists_numeral_iff]
  constructor
  · intro h
    obtain ⟨fuel, hfuel⟩ := h.exists
    obtain ⟨s₁, hskip, hscan⟩ := bind_eq_some_iff.1 hfuel
    obtain ⟨white, hrun⟩ := run_of_skipWS hskip
    simp only [hfrom] at hscan
    refine ⟨⟨white, s₁, hrun⟩, ?_⟩
    rintro ⟨white', s₁', hrun', hdigit⟩
    obtain ⟨rfl, rfl⟩ := hrun.unique hrun'
    rcases hdigit with hdigit | ⟨neg, s₂, hsign, hdigit⟩
    · rw [scanSign_of_not_sign fun neg s₂ => hdigit.not_atSign, negate_eq_none_iff] at hscan
      exact num_ne_none hdigit fuel hscan
    · rw [scanSign_of_sign hsign] at hscan
      cases neg with
      | true => exact num_ne_none hdigit fuel hscan
      | false => exact num_ne_none hdigit fuel (negate_eq_none_iff.1 hscan)
  · rintro ⟨⟨white, s₁, hrun⟩, hnone⟩
    refine scan_yields hrun hfrom (.of_forall fun fuel => ?_)
    by_cases hsign : ∃ neg s₂, AtSign reader s₁ neg s₂
    · obtain ⟨neg, s₂, hsign⟩ := hsign
      have hdigit : ¬AtDigit radix reader s₂ := fun hdigit =>
        hnone ⟨white, s₁, hrun, .inr ⟨neg, s₂, hsign, hdigit⟩⟩
      rw [scanSign_of_sign hsign]
      cases neg with
      | true => exact num_of_not_atDigit hdigit fuel
      | false => exact negate_eq_none_iff.2 (num_of_not_atDigit hdigit fuel)
    · have hdigit : ¬AtDigit radix reader s₁ := fun hdigit => hnone ⟨white, s₁, hrun, .inl hdigit⟩
      rw [scanSign_of_not_sign fun neg s₂ h => hsign ⟨neg, s₂, h⟩]
      exact negate_eq_none_iff.2 (num_of_not_atDigit hdigit fuel)

end Signed

end I

end MultiMLton.Basis
