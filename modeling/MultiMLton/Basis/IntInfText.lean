import MultiMLton.Basis.IntInfOps
import MultiMLton.Basis.IntegerText

/-!
# Integers without bounds as text

`fmt` and `scan` of `integer/int-inf.sml`: digits are read in chunks that fit in small integers. Of
GnuMP, `mpz_get_str` is given, and `MpzText` says what it writes.

* `unsLoop_of_run`: the chunks of a run of digits add up to its value;
* `scan_of_longest`, `scan_none_iff`: what is scanned, where no white space comes before a digit;
* `fmt_unsigned`: what is written.
-/

namespace MultiMLton.Basis

open StringCvt MultiMLton.Lib List Option BitVec Nat

variable {c : Config} {σ : Type}

namespace BigInt

/-! ### `scan` -/

section Digits

variable {w : ℕ}

def binDig (ch : Char) : Option (BitVec w) :=
  if ch = '0' then some 0 else if ch = '1' then some 1 else none

def octDig (ch : Char) : Option (BitVec w) :=
  if '0' ≤ ch ∧ ch ≤ '7' then some (.ofNat w (ch.toNat - '0'.toNat)) else none

def decDig (ch : Char) : Option (BitVec w) :=
  if '0' ≤ ch ∧ ch ≤ '9' then some (.ofNat w (ch.toNat - '0'.toNat)) else none

def hexDig (ch : Char) : Option (BitVec w) :=
  if '0' ≤ ch ∧ ch ≤ '9' then some (.ofNat w (ch.toNat - '0'.toNat))
  else if 'a' ≤ ch ∧ ch ≤ 'f' then some (.ofNat w (ch.toNat - ('a'.toNat - 0xa)))
  else if 'A' ≤ ch ∧ ch ≤ 'F' then some (.ofNat w (ch.toNat - ('A'.toNat - 0xA)))
  else none

def toDigR (charToDig : Char → Option (BitVec w)) (cread : Reader Char σ) : Reader (BitVec w) σ :=
  fun s =>
    match cread s with
    | none => none
    | some (ch, s') => (charToDig ch).map fun dig => (dig, s')

variable (w) in
/-- `chunk` -/
structure Chunk where
  more : Bool
  shift : BitVec w
  chunk : BitVec w

/-- `loop` of `toChunkR` -/
def chunkLoop (base : BitVec w) (dread : Reader (BitVec w) σ) :
    ℕ → BitVec w → BitVec w → σ → Chunk w × σ
  | 0, shift, chunk, s => (⟨true, shift, chunk⟩, s)
  | left + 1, shift, chunk, s =>
    match dread s with
    | none => (⟨false, shift, chunk⟩, s)
    | some (dig, s') => chunkLoop base dread left (base * shift) (base * chunk + dig) s'

section Equations

attribute [local simp] chunkLoop

end Equations

/-- `digitsPerChunk`, where it does not raise `Fail` -/
def digitsPerChunk (wordSize base : ℕ) : Option ℕ :=
  match wordSize, base with
  | 64, 16 => some 15
  | 64, 10 => some 18
  | 64, 8 => some 20
  | 64, 2 => some 61
  | 32, 16 => some 7
  | 32, 10 => some 8
  | 32, 8 => some 9
  | 32, 2 => some 29
  | _, _ => none

/-- `reader` of `toChunkR`, with `digitsPerChunk` -/
def toChunkR (base : BitVec w) (dread : Reader (BitVec w) σ) (digitsPerChunk : ℕ) :
    Reader (Chunk w) σ := fun s =>
  match dread s with
  | none => none
  | some (dig, next) => some (chunkLoop base dread (digitsPerChunk - 1) base dig next)

end Digits

section Scan

variable (g : GnuMP c)

/-- `loop` of `toUnsR`, for so many turns. -/
def unsLoop (ckread : Reader (Chunk c.objptr) σ) :
    ℕ → Bool → BigInt c → σ → Option (BigInt c × σ)
  | 0, _, _, _ => none
  | fuel + 1, more, acc, s =>
    if more then
      match ckread s with
      | none => some (acc, s)
      | some (ck, s') =>
        unsLoop ckread fuel ck.more
          (bigAdd g (bigMul g (addTagCoerce ck.shift) acc) (addTagCoerce ck.chunk)) s'
    else some (acc, s)

section Equations

attribute [local simp] unsLoop

end Equations

def toUnsR (ckread : Reader (Chunk c.objptr) σ) (fuel : ℕ) (s : σ) :
    Option (Option (BigInt c × σ)) :=
  match ckread s with
  | none => some none
  | some (ck, s') => (unsLoop g ckread fuel ck.more (addTagCoerce ck.chunk) s').map some

def toHexR (cread : Reader Char σ) (uread : σ → Option (Option (BigInt c × σ))) (s : σ) :
    Option (Option (BigInt c × σ)) :=
  match cread s with
  | none => some none
  | some (c1, s1) =>
    if c1 = '0' then
      match cread s1 with
      | none => some (some (zero, s1))
      | some (c2, s2) =>
        if c2 = 'x' ∨ c2 = 'X' then
          match uread s2 with
          | none => none
          | some none => some (some (zero, s1))
          | some (some x) => some (some x)
        else uread s
    else uread s

section Equations

attribute [local simp] toHexR

end Equations

/-- The sign of `toSign`, and where the digits begin: not behind the white space. -/
def signOf (ch : Char) (s s' : σ) : Bool × σ :=
  if ch = '+' then (false, s')
  else if ch = '-' then (true, s')
  else if ch = '~' then (true, s')
  else (false, s)

/-- The end of `toSign`, with what is read behind the white space. -/
def toSignEnd (uread : σ → Option (Option (BigInt c × σ))) (s : σ) :
    Option (Char × σ) → Option (Option (BigInt c × σ))
  | none => some none
  | some (ch, s') =>
    let (isNeg, s'') := signOf ch s s'
    if isNeg then (uread s'').map fun r => r.map fun (abs, s''') => (bigNeg g abs, s''')
    else uread s''

def toSign (cread : Reader Char σ) (uread : σ → Option (Option (BigInt c × σ))) (fuel : ℕ) (s : σ) :
    Option (Option (BigInt c × σ)) := do
  toSignEnd g uread s (cread (← skipWS cread fuel s))

variable (base digits : ℕ) (dig : Char → Option (BitVec c.objptr)) (cread : Reader Char σ)
  (fuel : ℕ)

/-- `uread` of `reader`, with `dig` for the digits of the base. -/
def uread : σ → Option (Option (BigInt c × σ)) :=
  toUnsR g (toChunkR (.ofNat _ base) (toDigR dig cread) digits) fuel

/-- `hread` of `reader` -/
def hread : σ → Option (Option (BigInt c × σ)) :=
  if base = 16 then toHexR cread (uread g base digits dig cread fuel)
  else uread g base digits dig cread fuel

/-- `reader` of `scan` -/
def baseReader (s : σ) : Option (Option (BigInt c × σ)) := do
  let digits ← digitsPerChunk c.objptr base
  toSign g cread (hread g base digits dig cread fuel) fuel s

def scan : Radix → Reader Char σ → ℕ → σ → Option (Option (BigInt c × σ))
  | .bin => baseReader g 2 binDig
  | .oct => baseReader g 8 octDig
  | .dec => baseReader g 10 decDig
  | .hex => baseReader g 16 hexDig

end Scan

/-! ### `fmt` -/

section Fmt

variable (mpz_get_str : ℕ → Mpz c → List Char)

/-- The capital of a small letter. -/
def capital (c : Char) : Char :=
  if 'a' ≤ c ∧ c ≤ 'z' then .ofNat (c.toNat + 'A'.toNat - 'a'.toNat) else c

/-- `IntInf_toString` -/
def Prim.toString (arg : BigInt c) (base : ℕ) : List Char :=
  let str := mpz_get_str base (fillIntInfArg arg)
  let str := if str.head? = some '-' then '~' :: str.tail else str
  str.map capital

/-- `mkBigCvt` -/
def mkBigCvt (base : ℕ) (smallCvt : BitVec c.objptr → Option (List Char)) (arg : BigInt c) :
    Option (List Char) :=
  if isSmall arg then smallCvt (dropTagCoerce arg) else some (Prim.toString mpz_get_str arg base)

/-- `fmt`, with the buffer of `I.fmt`. -/
def fmt (radix : Radix) (arg : BigInt c) (buf : I.Buffer c.objptr) : Option (List Char) :=
  mkBigCvt mpz_get_str (radixToInt radix) (fun w => I.fmt radix w buf) arg

end Fmt

/-! ### Runs of digits -/

section Runs

variable {radix : Radix} {cread : Reader Char σ} {s s₁ s' : σ} {w d : ℕ} {ds : List ℕ}

/-- The digits in a run. -/
def DigitRun (radix : Radix) (cread : Reader Char σ) (s : σ) (ds : List ℕ) (s' : σ) : Prop :=
  ∃ cs, Run (isDigit radix) cread s cs s' ∧ cs.map (charToDigit radix) = ds.map some

/-- The digits of a radix. -/
def dig : Radix → Char → Option (BitVec w)
  | .bin => binDig
  | .oct => octDig
  | .dec => decDig
  | .hex => hexDig

theorem range_some {add : ℕ} {cmin cmax ch : Char} (h : cmin ≤ ch ∧ ch ≤ cmax) :
    range add cmin cmax ch = some (add + ch.toNat - cmin.toNat) := if_pos h

theorem range_none {add : ℕ} {cmin cmax ch : Char} (h : ¬(cmin ≤ ch ∧ ch ≤ cmax)) :
    range add cmin cmax ch = none := if_neg h

theorem dig_eq (radix : Radix) (ch : Char) :
    dig radix ch = (charToDigit radix ch).map (BitVec.ofNat w) := by
  cases radix with
  | bin =>
    by_cases h : '0' ≤ ch ∧ ch ≤ '1'
    · obtain ⟨hlo, hhi⟩ := h
      have h01 : ch.toNat = 48 ∨ ch.toNat = 49 := by
        have : 48 ≤ ch.toNat := hlo
        have : ch.toNat ≤ 49 := hhi
        omega
      rcases h01 with h | h
      · obtain rfl : ch = '0' := Char.toNat_inj.1 h
        rfl
      · obtain rfl : ch = '1' := Char.toNat_inj.1 h
        rfl
    · have h0 : ch ≠ '0' := fun h0 => h (by subst h0; decide)
      have h1 : ch ≠ '1' := fun h1 => h (by subst h1; decide)
      simp only [dig, binDig, h0, h1, if_false, charToDigit, range_none h, map_none]
  | oct =>
    by_cases h : '0' ≤ ch ∧ ch ≤ '7'
    · simp only [dig, octDig, if_pos h, charToDigit, range_some h, map_some, zero_add]
    · simp only [dig, octDig, if_neg h, charToDigit, range_none h, map_none]
  | dec =>
    by_cases h : '0' ≤ ch ∧ ch ≤ '9'
    · simp only [dig, decDig, if_pos h, charToDigit, range_some h, map_some, zero_add]
    · simp only [dig, decDig, if_neg h, charToDigit, range_none h, map_none]
  | hex =>
    simp only [dig, hexDig, charToDigit, combine, findSome?_cons, findSome?_nil]
    by_cases h0 : '0' ≤ ch ∧ ch ≤ '9'
    · simp only [if_pos h0, range_some h0, map_some, zero_add]
    · by_cases ha : 'a' ≤ ch ∧ ch ≤ 'f'
      · have hsub : ch.toNat - ('a'.toNat - 0xa) = 10 + ch.toNat - 'a'.toNat := by
          have : 'a'.toNat = 97 := rfl
          omega
        simp only [if_neg h0, range_none h0, if_pos ha, range_some ha, map_some, hsub]
      · by_cases hA : 'A' ≤ ch ∧ ch ≤ 'F'
        · have hsub : ch.toNat - ('A'.toNat - 0xA) = 10 + ch.toNat - 'A'.toNat := by
            have : 'A'.toNat = 65 := rfl
            omega
          simp only [if_neg h0, range_none h0, if_neg ha, range_none ha, if_pos hA, range_some hA,
            map_some, hsub]
        · simp only [if_neg h0, range_none h0, if_neg ha, range_none ha, if_neg hA, range_none hA,
            map_none]

theorem DigitRun.nil_inv (h : DigitRun radix cread s [] s') :
    s' = s ∧ toDigR (dig radix : Char → Option (BitVec w)) cread s = none := by
  obtain ⟨cs, hrun, hcs⟩ := h
  obtain rfl : cs = [] := by simpa using hcs
  cases hrun.reads
  refine ⟨rfl, ?_⟩
  rw [toDigR]
  cases hs : cread s with
  | none => rfl
  | some cs =>
    have hnone : charToDigit radix cs.1 = none := by simpa [isDigit] using hrun.stop cs.1 cs.2 hs
    simp only [dig_eq, hnone, map_none]

theorem DigitRun.cons_inv (h : DigitRun radix cread s (d :: ds) s') :
    ∃ s₁, toDigR (dig radix : Char → Option (BitVec w)) cread s = some (.ofNat w d, s₁) ∧
      DigitRun radix cread s₁ ds s' := by
  obtain ⟨cs, hrun, hcs⟩ := h
  obtain ⟨hreads, hall, hstop⟩ := hrun
  cases hreads with
  | nil => simp at hcs
  | @cons _ s₁ _ ch cs head tail =>
    rw [map_cons, map_cons, List.cons.injEq] at hcs
    refine ⟨s₁, ?_, cs, ⟨tail, fun c hc => hall c (mem_cons_of_mem _ hc), hstop⟩, hcs.2⟩
    simp only [toDigR, head, dig_eq, hcs.1, map_some]

theorem DigitRun.lt (h : DigitRun radix cread s ds s') : ∀ d ∈ ds, d < radixToInt radix := by
  obtain ⟨cs, -, hcs⟩ := h
  intro d hd
  obtain ⟨ch, -, hch⟩ := mem_map.1 (hcs ▸ mem_map_of_mem (f := some) hd)
  exact charToDigit_lt hch

/-- What `loop` of `toChunkR` reads, and what is left. -/
theorem chunkLoop_of_run (h : DigitRun radix cread s ds s') (left k v : ℕ) :
    ∃ ds₁ ds₂ s₁ more, ds = ds₁ ++ ds₂ ∧ ds₁.length ≤ left ∧ DigitRun radix cread s₁ ds₂ s' ∧
      (more = false → ds₂ = []) ∧
      chunkLoop (.ofNat w (radixToInt radix)) (toDigR (dig radix) cread) left (.ofNat w k)
        (.ofNat w v) s =
        (⟨more, .ofNat w (k * radixToInt radix ^ ds₁.length),
          .ofNat w (v * radixToInt radix ^ ds₁.length + digitsValue (radixToInt radix) ds₁)⟩,
          s₁) := by
  induction left generalizing s ds k v with
  | zero => exact ⟨[], ds, s, true, rfl, le_rfl, h, (fun h => by cases h), by simp [chunkLoop]⟩
  | succ left ih =>
    cases ds with
    | nil =>
      obtain ⟨rfl, hnone⟩ := h.nil_inv (w := w)
      exact ⟨[], [], s', false, rfl, zero_le _, h, fun _ => rfl, by simp [chunkLoop, hnone]⟩
    | cons d ds =>
      obtain ⟨s₁, hsome, hrun⟩ := h.cons_inv (w := w)
      obtain ⟨ds₁, ds₂, s₂, more, rfl, hlen, hrest, hmore, hloop⟩ :=
        ih hrun (radixToInt radix * k) (radixToInt radix * v + d)
      refine ⟨d :: ds₁, ds₂, s₂, more, rfl, succ_le_succ hlen, hrest, hmore, ?_⟩
      rw [chunkLoop, hsome]
      dsimp only
      rw [← ofNat_mul, ← ofNat_mul, ← ofNat_add, hloop, digitsValue_cons,
        length_cons]
      have hshift : radixToInt radix * k * radixToInt radix ^ ds₁.length =
          k * radixToInt radix ^ (ds₁.length + 1) := by ring
      have hchunk : (radixToInt radix * v + d) * radixToInt radix ^ ds₁.length +
          digitsValue (radixToInt radix) ds₁ = v * radixToInt radix ^ (ds₁.length + 1) +
          (d * radixToInt radix ^ ds₁.length + digitsValue (radixToInt radix) ds₁) := by ring
      rw [hshift, hchunk]

/-- What a chunk holds, and what is left. -/
theorem toChunkR_of_run (h : DigitRun radix cread s (d :: ds) s') {digits : ℕ}
    (hdigits : 0 < digits) :
    ∃ ds₁ ds₂ s₁ more, d :: ds = ds₁ ++ ds₂ ∧ ds₁ ≠ [] ∧ ds₁.length ≤ digits ∧
      DigitRun radix cread s₁ ds₂ s' ∧ (more = false → ds₂ = []) ∧
      toChunkR (.ofNat w (radixToInt radix)) (toDigR (dig radix) cread) digits s =
        some (⟨more, .ofNat w (radixToInt radix ^ ds₁.length),
          .ofNat w (digitsValue (radixToInt radix) ds₁)⟩, s₁) := by
  obtain ⟨s₁, hsome, hrun⟩ := h.cons_inv (w := w)
  obtain ⟨ds₁, ds₂, s₂, more, rfl, hlen, hrest, hmore, hloop⟩ :=
    chunkLoop_of_run (w := w) hrun (digits - 1) (radixToInt radix) d
  refine ⟨d :: ds₁, ds₂, s₂, more, rfl, cons_ne_nil _ _, ?_, hrest, hmore, ?_⟩
  · rw [length_cons]
    omega
  · simp only [toChunkR, hsome, hloop, digitsValue_cons, length_cons, pow_succ']

/-- `digitsPerChunk` digits fit in a small integer. -/
theorem digitsPerChunk_eq (c : Config) (radix : Radix) :
    ∃ digits, digitsPerChunk c.objptr (radixToInt radix) = some digits ∧ 0 < digits ∧
      radixToInt radix ^ digits < 2 ^ (c.objptr - 2) := by
  rcases c.objptr_eq with h | h <;> rw [h] <;> cases radix <;>
    exact ⟨_, rfl, by norm_num, by norm_num [radixToInt]⟩

theorem addTagCoerce_ofNat {k : ℕ} (hk : k < 2 ^ (c.objptr - 2)) :
    IsRep (addTagCoerce (.ofNat c.objptr k)) k := by
  have htoNat := toNat_ofNat_of_le c.two_le hk.le
  refine addTagCoerce_isRep ⟨?_, by exact_mod_cast hk⟩ ?_
  · have : (0 : ℤ) < 2 ^ (c.objptr - 2) := by positivity
    omega
  · rw [toInt_of_toNat_le c.two_le (by rw [htoNat]; exact hk.le), htoNat]

variable (hwide : c.objptr ≤ c.limb) {g : GnuMP c} (hg : g.Exact) {digits : ℕ}
  (hdigits : 0 < digits) (hfit : radixToInt radix ^ digits < 2 ^ (c.objptr - 2))

include hfit in
/-- The shift and the value of a chunk. -/
theorem chunk_isRep (hlen : ds.length ≤ digits) (hds : ∀ d ∈ ds, d < radixToInt radix) :
    IsRep (addTagCoerce (.ofNat c.objptr (radixToInt radix ^ ds.length)))
        (radixToInt radix ^ ds.length : ℕ) ∧
      IsRep (addTagCoerce (.ofNat c.objptr (digitsValue (radixToInt radix) ds)))
        (digitsValue (radixToInt radix) ds : ℕ) := by
  have hb : 0 < radixToInt radix := by cases radix <;> simp [radixToInt]
  have hpow : radixToInt radix ^ ds.length < 2 ^ (c.objptr - 2) :=
    (Nat.pow_le_pow_right hb hlen).trans_lt hfit
  exact ⟨addTagCoerce_ofNat hpow, addTagCoerce_ofNat ((digitsValue_lt hds).trans hpow)⟩

include hwide hg hdigits hfit

/-- The chunks of a run add up. -/
theorem unsLoop_of_run (h : DigitRun radix cread s ds s') {more : Bool}
    (hmore : more = false → ds = []) {acc : BigInt c} {v : ℕ} (hacc : IsRep acc v) :
    ∃ x, IsRep x (v * radixToInt radix ^ ds.length + digitsValue (radixToInt radix) ds : ℕ) ∧
      Yields (fun fuel => unsLoop g
        (toChunkR (.ofNat _ (radixToInt radix)) (toDigR (dig radix) cread) digits) fuel more acc s)
        (x, s') := by
  induction hn : ds.length using Nat.strong_induction_on generalizing s ds more acc v with
  | _ n ih =>
    subst hn
    cases ds with
    | nil =>
      obtain ⟨rfl, hnone⟩ := h.nil_inv (w := c.objptr)
      refine ⟨acc, by simpa using hacc, .of_succ fun fuel => ?_⟩
      simp only [unsLoop, toChunkR, hnone, ite_self]
    | cons d ds =>
      have hmore : more = true := by
        cases more with
        | true => rfl
        | false => cases hmore rfl
      subst hmore
      obtain ⟨ds₁, ds₂, s₁, more, hds, hne, hlen, hrun, hmore, hchunk⟩ :=
        toChunkR_of_run (w := c.objptr) h hdigits
      have hlt := h.lt
      rw [hds] at hlt ⊢
      obtain ⟨hshift, hvalue⟩ := chunk_isRep (c := c) hfit hlen fun d hd =>
        hlt d (mem_append_left _ hd)
      have hmul := bigMul_isRep hwide hg hshift.normal hacc.normal
      have hadd := bigAdd_isRep hwide hg hmul.normal hvalue.normal
      have hpos := length_pos_iff.2 hne
      rw [hmul.toInt, hshift.toInt, hacc.toInt, hvalue.toInt] at hadd
      obtain ⟨x, hx, hloop⟩ := ih ds₂.length (by rw [hds, length_append]; omega) hrun hmore
        (v := radixToInt radix ^ ds₁.length * v + digitsValue (radixToInt radix) ds₁)
        (by exact_mod_cast hadd) rfl
      refine ⟨x, ?_, hloop.succ fun fuel => ?_⟩
      · rw [digitsValue_append, length_append]
        convert hx using 2
        ring
      · rw [unsLoop, if_pos rfl, hchunk]

theorem uread_of_run (h : DigitRun radix cread s ds s') (hne : ds ≠ []) :
    ∃ x, IsRep x (digitsValue (radixToInt radix) ds : ℕ) ∧
      Yields (fun fuel => uread g (radixToInt radix) digits (dig radix) cread fuel s)
        (some (x, s')) := by
  cases ds with
  | nil => exact (hne rfl).elim
  | cons d ds =>
    obtain ⟨ds₁, ds₂, s₁, more, hds, -, hlen, hrun, hmore, hchunk⟩ :=
      toChunkR_of_run (w := c.objptr) h hdigits
    have hlt := h.lt
    rw [hds] at hlt ⊢
    obtain ⟨-, hvalue⟩ := chunk_isRep (c := c) hfit hlen fun d hd =>
      hlt d (mem_append_left _ hd)
    obtain ⟨x, hx, hloop⟩ := unsLoop_of_run hwide hg hdigits hfit hrun hmore hvalue
    refine ⟨x, by rwa [digitsValue_append], (hloop.map some).congr fun fuel => ?_⟩
    simp only [uread, toUnsR, hchunk]

end Runs

/-! ### Unsigned numerals -/

section Unsigned

variable {radix : Radix} {cread : Reader Char σ} {s s₁ s' : σ} {v digits : ℕ} {cs : List Char}
  {g : GnuMP c}

theorem uread_of_not (h : ¬AtDigit radix cread s) (fuel : ℕ) :
    uread g (radixToInt radix) digits (dig radix) cread fuel s =
      some none := by
  have hnone : toDigR (dig radix : Char → Option (BitVec c.objptr)) cread s = none := by
    unfold toDigR
    cases hs : cread s with
    | none => rfl
    | some cs =>
      obtain ⟨ch, s₁⟩ := cs
      cases hc : charToDigit radix ch with
      | none => simp only [dig_eq, hc, map_none]
      | some d => exact (h ⟨ch, s₁, hs, by rw [isDigit, hc]; rfl⟩).elim
  simp only [uread, toUnsR, toChunkR, hnone]

theorem uread_ne_none (h : AtDigit radix cread s) (fuel : ℕ) :
    uread g (radixToInt radix) digits (dig radix) cread fuel s ≠
      some none := by
  obtain ⟨ch, s₁, hs, hc⟩ := h
  obtain ⟨d, hd⟩ := isSome_iff_exists.1 hc
  simp only [uread, toUnsR, toChunkR, toDigR, hs, dig_eq, hd, map_some]
  simp

theorem hread_of_ne (h : radix ≠ .hex) (fuel : ℕ) :
    hread g (radixToInt radix) digits (dig radix) cread fuel s =
      uread g (radixToInt radix) digits (dig radix) cread fuel s := by
  unfold hread
  rw [if_neg]
  cases radix <;> simp_all [radixToInt]

theorem hread_hex (fuel : ℕ) :
    hread g (radixToInt .hex) digits (dig .hex) cread fuel s =
      toHexR cread (uread g (radixToInt .hex) digits (dig .hex) cread fuel) s := rfl

theorem hread_of_not (h : ¬AtDigit radix cread s) (fuel : ℕ) :
    hread g (radixToInt radix) digits (dig radix) cread fuel s = some none := by
  by_cases hex : radix = .hex
  · subst hex
    rw [hread_hex, toHexR]
    cases hs : cread s with
    | none => rfl
    | some cs =>
      obtain ⟨c1, s1⟩ := cs
      have hzero : c1 ≠ '0' := by
        rintro rfl
        exact h ⟨_, s1, hs, by decide⟩
      simp only [if_neg hzero]
      exact uread_of_not h fuel
  · rw [hread_of_ne hex, uread_of_not h]

theorem hread_ne_none (h : AtDigit radix cread s) (fuel : ℕ) :
    hread g (radixToInt radix) digits (dig radix) cread fuel s ≠ some none := by
  by_cases hex : radix = .hex
  · subst hex
    have huread : uread g (radixToInt .hex) digits (dig .hex) cread fuel s ≠ some none :=
      uread_ne_none h fuel
    obtain ⟨c1, s1, hs, -⟩ := h
    rw [hread_hex, toHexR]
    simp only [hs]
    split
    · cases cread s1 with
      | none => simp
      | some cs =>
        dsimp only
        split
        · split <;> simp
        · exact huread
    · exact huread
  · rw [hread_of_ne hex]
    exact uread_ne_none h fuel

variable (hwide : c.objptr ≤ c.limb) (hg : g.Exact) (hdigits : 0 < digits)
  (hfit : radixToInt radix ^ digits < 2 ^ (c.objptr - 2))

include hwide hg hdigits hfit

theorem uread_of_digits (hrun : Run (isDigit radix) cread s cs s') (hv : Digits radix cs v) :
    ∃ x, IsRep x (v : ℤ) ∧
      Yields (fun fuel => uread g (radixToInt radix) digits (dig radix) cread fuel s)
        (some (x, s')) := by
  obtain ⟨hne, ds, hds, rfl⟩ := hv
  refine uread_of_run hwide hg hdigits hfit ⟨cs, hrun, hds⟩ ?_
  rintro rfl
  exact hne (by simpa using hds)

theorem hread_of_scans (h : Scans radix cread s v s') :
    ∃ x, IsRep x (v : ℤ) ∧
      Yields (fun fuel => hread g (radixToInt radix) digits (dig radix) cread fuel s)
        (some (x, s')) := by
  cases h with
  | @prefixed s₂ cs pre run value =>
    obtain ⟨rfl, s₁, x, h0, h1, hx, -⟩ := pre
    obtain ⟨y, hy, huread⟩ := uread_of_digits hwide hg hdigits hfit run value
    refine ⟨y, hy, huread.mono fun fuel hfuel => ?_⟩
    simp only [hread_hex, toHexR, h0, h1, hx, if_true, hfuel]
  | @plain cs run value plain =>
    obtain ⟨y, hy, huread⟩ := uread_of_digits hwide hg hdigits hfit run value
    by_cases hex : radix = .hex
    · subst hex
      cases run.reads with
      | nil => exact (value.1 rfl).elim
      | @cons _ s1 _ c1 cs head tail =>
        by_cases hzero : c1 = '0' ∧ ∀ c2 s2, cread s1 = some (c2, s2) → c2 = 'x' ∨ c2 = 'X'
        · obtain ⟨rfl, hx⟩ := hzero
          cases tail with
          | nil =>
            obtain ⟨d, ds, hd, hds, rfl⟩ := I.Digits.cons_inv value
            obtain rfl : d = 0 := (Option.some.inj hd).symm
            obtain rfl : ds = [] := by simpa using hds.symm
            refine ⟨zero, by simpa using zero_isRep, .of_forall fun fuel => ?_⟩
            rw [hread_hex, toHexR]
            simp only [head, if_true]
            cases h1 : cread s' with
            | none => rfl
            | some cs₂ =>
              obtain ⟨c2, s2⟩ := cs₂
              have hnot : ¬AtDigit .hex cread s2 := fun hdigit =>
                plain s2 ⟨rfl, s', c2, head, h1, hx c2 s2 h1, hdigit⟩
              simp only [hx c2 s2 h1, if_true, uread_of_not hnot]
          | @cons _ s2 _ c2 cs head' tail =>
            have hdigit := run.all c2 (by simp)
            rw [isDigit_of_x (hx c2 s2 head')] at hdigit
            cases hdigit
        · refine ⟨y, hy, huread.congr fun fuel => ?_⟩
          rw [hread_hex, toHexR]
          simp only [head]
          by_cases h0 : c1 = '0'
          · obtain ⟨c2, s2, h1, hx⟩ :
                ∃ c2 s2, cread s1 = some (c2, s2) ∧ ¬(c2 = 'x' ∨ c2 = 'X') := by
              by_contra hall
              push Not at hall
              exact hzero ⟨h0, fun c2 s2 h => by_contra fun hx => by simpa [hx] using hall c2 s2 h⟩
            simp only [if_pos h0, h1, if_neg hx]
          · simp only [if_neg h0]
    · exact ⟨y, hy, huread.congr fun fuel => hread_of_ne hex fuel⟩

end Unsigned

/-! ### `scan` -/

section Signed

variable {radix : Radix} {cread : Reader Char σ} {s s₁ s' : σ} {white : List Char} {g : GnuMP c}

/-- White space that a digit follows. -/
def BlankBeforeDigit (radix : Radix) (cread : Reader Char σ) (s : σ) : Prop :=
  ∃ white s₁, white ≠ [] ∧ Run isSpace cread s white s₁ ∧ AtDigit radix cread s₁

theorem scan_eq (g : GnuMP c) (radix : Radix) (cread : Reader Char σ) :
    scan g radix cread = baseReader g (radixToInt radix) (dig radix) cread := by
  cases radix <;> rfl

/-- After the white space. -/
theorem scan_yields (hrun : Run isSpace cread s white s₁) {digits : ℕ}
    (hdigits : digitsPerChunk c.objptr (radixToInt radix) = some digits)
    {res : Option (BigInt c × σ)}
    (h : Yields (fun fuel => toSignEnd g (hread g (radixToInt radix) digits (dig radix) cread fuel)
      s (cread s₁)) res) :
    Yields (fun fuel => scan g radix cread fuel s) res := by
  refine ((skipWS_yields hrun).bind (k := fun s₁ fuel =>
    toSignEnd g (hread g (radixToInt radix) digits (dig radix) cread fuel) s (cread s₁)) h).congr
    fun fuel => ?_
  rw [scan_eq, baseReader, hdigits]
  rfl

section Ends

variable {uread : σ → Option (Option (BigInt c × σ))} {neg : Bool}

theorem toSignEnd_of_sign (h : AtSign cread s₁ neg s') :
    toSignEnd g uread s (cread s₁) =
      if neg then (uread s').map fun r => r.map fun (abs, s''') => (bigNeg g abs, s''')
      else uread s' := by
  obtain ⟨ch, hs, hsign⟩ := h
  rcases hsign.cases with ⟨rfl, rfl⟩ | ⟨rfl, rfl⟩ | ⟨rfl, rfl⟩ <;> simp [toSignEnd, signOf, hs]

/-- Without a sign the digits are looked for before the white space. -/
theorem toSignEnd_of_not_sign (h : ∀ neg s₂, ¬AtSign cread s₁ neg s₂) :
    toSignEnd g uread s (cread s₁) = (cread s₁).elim (some none) fun _ => uread s := by
  cases hs : cread s₁ with
  | none => rfl
  | some cs =>
    obtain ⟨ch, s'⟩ := cs
    have hplus : ch ≠ '+' := by
      rintro rfl
      exact h false s' ⟨_, hs, .plus⟩
    have hminus : ch ≠ '-' := by
      rintro rfl
      exact h true s' ⟨_, hs, .minus⟩
    have htilde : ch ≠ '~' := by
      rintro rfl
      exact h true s' ⟨_, hs, .tilde⟩
    simp [toSignEnd, signOf, hplus, hminus, htilde]

end Ends

/-- What white space and a digit give. -/
theorem scan_blank (h : BlankBeforeDigit radix cread s) :
    Yields (fun fuel => scan g radix cread fuel s) none := by
  obtain ⟨white, s₁, hne, hrun, hdigit⟩ := h
  obtain ⟨digits, hdigits, -⟩ := digitsPerChunk_eq c radix
  refine scan_yields hrun hdigits (.of_forall fun fuel => ?_)
  rw [toSignEnd_of_not_sign fun neg s₂ => hdigit.not_atSign]
  cases hs : cread s₁ with
  | none => rfl
  | some cs =>
    refine hread_of_not ?_ fuel
    -- the stream begins with the white space
    rintro ⟨ch, s₂, head, hch⟩
    cases hrun.reads with
    | nil => exact hne rfl
    | @cons _ _ _ ch' _ head' tail =>
      rw [head] at head'
      cases head'
      rw [isDigit_of_isSpace (hrun.all ch mem_cons_self)] at hch
      cases hch

/-- Without a digit behind the white space it is not one. -/
theorem nil_of_not_blank (h : ¬BlankBeforeDigit radix cread s) (hrun : Run isSpace cread s white s₁)
    (hdigit : AtDigit radix cread s₁) : s = s₁ := by
  cases white with
  | nil =>
    cases hrun.reads
    rfl
  | cons ch white => exact (h ⟨_, s₁, cons_ne_nil ch white, hrun, hdigit⟩).elim

/-- `NONE` is returned if and only if the white space ends and there is no numeral. -/
theorem scan_none_iff (h : ¬BlankBeforeDigit radix cread s) :
    Yields (fun fuel => scan g radix cread fuel s) none ↔
      (∃ white s₁, Run isSpace cread s white s₁) ∧
        ¬∃ cs s' v, Reads cread s cs s' ∧ Numeral radix cs v := by
  obtain ⟨digits, hdigits, -⟩ := digitsPerChunk_eq c radix
  rw [exists_numeral_iff]
  constructor
  · intro hscan
    obtain ⟨fuel, hfuel⟩ := hscan.exists
    have hbase : baseReader g (radixToInt radix) (dig radix) cread fuel s = some none := by
      rw [← scan_eq]
      exact hfuel
    rw [baseReader, hdigits, bind_eq_bind, bind_some] at hbase
    obtain ⟨s₁, hskip, hend⟩ := bind_eq_some_iff.1 hbase
    obtain ⟨white, hrun⟩ := run_of_skipWS hskip
    refine ⟨⟨white, s₁, hrun⟩, ?_⟩
    rintro ⟨white', s₁', hrun', hdigit⟩
    obtain ⟨rfl, rfl⟩ := hrun.unique hrun'
    rcases hdigit with hdigit | ⟨neg, s₂, hsign, hdigit⟩
    · obtain rfl := nil_of_not_blank h hrun hdigit
      rw [toSignEnd_of_not_sign fun neg s₂ => hdigit.not_atSign] at hend
      obtain ⟨ch, s₂, hs, hch⟩ := hdigit
      rw [hs] at hend
      exact hread_ne_none ⟨ch, s₂, hs, hch⟩ fuel hend
    · rw [toSignEnd_of_sign hsign] at hend
      cases neg with
      | true =>
        obtain ⟨r, hr, hmap⟩ := map_eq_some_iff.1 hend
        rw [map_eq_none_iff] at hmap
        exact hread_ne_none hdigit fuel (hmap ▸ hr)
      | false => exact hread_ne_none hdigit fuel hend
  · rintro ⟨⟨white, s₁, hrun⟩, hnone⟩
    refine scan_yields hrun hdigits (.of_forall fun fuel => ?_)
    by_cases hsign : ∃ neg s₂, AtSign cread s₁ neg s₂
    · obtain ⟨neg, s₂, hsign⟩ := hsign
      have hdigit : ¬AtDigit radix cread s₂ := fun hdigit =>
        hnone ⟨white, s₁, hrun, .inr ⟨neg, s₂, hsign, hdigit⟩⟩
      rw [toSignEnd_of_sign hsign, hread_of_not hdigit]
      cases neg <;> rfl
    · rw [toSignEnd_of_not_sign fun neg s₂ h => hsign ⟨neg, s₂, h⟩]
      cases hs : cread s₁ with
      | none => rfl
      | some cs =>
        refine hread_of_not (fun hdigit => ?_) fuel
        obtain ⟨ch, s₂, hs', hch⟩ := hdigit
        have hnil : Run isSpace cread s [] s := .nil fun c' s'' h => by
          rw [hs'] at h
          cases h
          exact isSpace_of_isDigit hch
        exact hnone ⟨[], s, hnil, .inl ⟨ch, s₂, hs', hch⟩⟩

/-- The integer of the longest numeral is returned. -/
theorem scan_of_longest (hwide : c.objptr ≤ c.limb) (hg : g.Exact)
    (h : ¬BlankBeforeDigit radix cread s) {i : ℤ} (hi : LongestNumeral radix cread s i s') :
    ∃ x, IsRep x i ∧ Yields (fun fuel => scan g radix cread fuel s) (some (x, s')) := by
  obtain ⟨digits, hdigits, hpos, hfit⟩ := digitsPerChunk_eq c radix
  obtain ⟨white, s₁, hrun, v, ⟨rfl, hlong⟩ | ⟨neg, s₂, hsign, rfl, hlong⟩⟩ := hi.cases
  · obtain ⟨x, hx, hread⟩ := hread_of_scans hwide hg hpos hfit (scans_of_longest hlong)
    obtain ⟨cs, hcs, hlongest⟩ := hlong
    have hdigit := hcs.atDigit hlongest.reads
    obtain rfl := nil_of_not_blank h hrun hdigit
    refine ⟨x, hx, scan_yields hrun hdigits (hread.congr fun fuel => ?_)⟩
    rw [toSignEnd_of_not_sign fun neg s₂ => hdigit.not_atSign]
    obtain ⟨ch, s₂, hs, -⟩ := hdigit
    rw [hs]
    rfl
  · obtain ⟨x, hx, hread⟩ := hread_of_scans hwide hg hpos hfit (scans_of_longest hlong)
    cases neg with
    | true =>
      have hneg := bigNeg_isRep hwide hg hx.normal
      rw [hx.toInt] at hneg
      exact ⟨_, hneg, scan_yields hrun hdigits
        ((hread.map fun r => r.map fun (abs, s) => (bigNeg g abs, s)).congr fun fuel =>
          toSignEnd_of_sign hsign)⟩
    | false =>
      exact ⟨x, hx, scan_yields hrun hdigits (hread.congr fun fuel => toSignEnd_of_sign hsign)⟩

end Signed

/-! ### What `fmt` writes -/

/-- `mpz_get_str` writes a minus, if the number is negative, and its digits, with small letters. -/
def MpzText (mpz_get_str : ℕ → Mpz c → List Char) : Prop :=
  ∀ (radix : Radix) (m : Mpz c), m.Sound → mpz_get_str (radixToInt radix) m =
    (if m.value < 0 then ['-'] else []) ++ Nat.toDigits (radixToInt radix) m.value.natAbs

section Fmt

variable {radix : Radix}

theorem charToDigit_capital {d : ℕ} (hd : d < radixToInt radix) :
    charToDigit radix (capital (digitChar d)) = some d := by
  cases radix <;> simp only [radixToInt] at hd <;> interval_cases d <;> decide

theorem digits_toDigits (radix : Radix) (v : ℕ) :
    Digits radix ((toDigits (radixToInt radix) v).map capital) v := by
  have hb : 1 < radixToInt radix := by cases radix <;> simp [radixToInt]
  induction v using Nat.strong_induction_on with
  | _ v ih =>
    rw [toDigits_eq_if hb]
    split_ifs with hlt
    · exact I.digits_singleton (charToDigit_capital hlt)
    · have hdiv := div_add_mod' v (radixToInt radix)
      have hmod := mod_lt v (by omega : radixToInt radix > 0)
      have hlast := I.digits_concat (ih _ (div_lt_self (by omega) hb))
        (charToDigit_capital hmod)
      rw [hdiv] at hlast
      rw [map_append]
      exact hlast

variable (hwide : c.objptr ≤ c.limb) {mpz_get_str : ℕ → Mpz c → List Char}
  (htext : MpzText mpz_get_str) (radix) {arg : BigInt c} (harg : arg.Normal)

include hwide htext harg

theorem toString_eq :
    Prim.toString mpz_get_str arg (radixToInt radix) =
      I.tilde (decide (arg.toInt < 0)) ++
        (toDigits (radixToInt radix) arg.toInt.natAbs).map capital := by
  have hfill := harg.fillIntInfArg hwide
  have hdigits := digits_toDigits radix arg.toInt.natAbs
  rw [Prim.toString, htext radix _ hfill.sound, hfill.value]
  by_cases hneg : arg.toInt < 0
  · simp only [hneg, if_true, decide_true]
    rfl
  · have hhead : (toDigits (radixToInt radix) arg.toInt.natAbs).head? ≠ some '-' := fun h => by
      have hmem := mem_map_of_mem (f := capital) (mem_of_head? h)
      have hminus := hdigits.all _ hmem
      have hnot : isDigit radix (capital '-') = false := by cases radix <;> decide
      rw [hnot] at hminus
      cases hminus
    simp only [hneg, if_false, decide_false, nil_append, hhead]
    rfl

/-- A sign, if the integer is negative, and its digits are written. -/
theorem fmt_unsigned (buf : I.Buffer c.objptr) :
    ∃ ds, Digits radix ds arg.toInt.natAbs ∧
      fmt mpz_get_str radix arg buf = some (I.tilde (decide (arg.toInt < 0)) ++ ds) := by
  unfold fmt mkBigCvt
  cases hsmall : isSmall arg with
  | true =>
    have hwidth : 8 ≤ c.objptr := by rcases c.objptr_eq with h | h <;> omega
    rw [if_pos rfl, ← dropTagCoerce_toInt hsmall]
    exact I.fmt_unsigned hwidth radix (dropTagCoerce arg) buf
  | false =>
    rw [if_neg Bool.false_ne_true]
    exact ⟨_, digits_toDigits radix _, congrArg some (toString_eq radix hwide htext harg)⟩

end Fmt

end BigInt

end MultiMLton.Basis
