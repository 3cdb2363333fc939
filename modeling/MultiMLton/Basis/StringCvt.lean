import MultiMLton.Lib.Fuel

/-!
# Readers, white space and digits

What the scanners of integers use of `text/string-cvt.sml`, and what they should find in a stream.

* `Reads`: the characters that a reader takes from a stream;
* `Numeral`, `LongestNumeral`: white space, a sign and digits, and the longest one at a stream;
* `Run`: the longest run of characters of one kind, which is what loops read.

A loop takes turns as fuel, and `Yields` what is returned with enough of it.
-/

namespace MultiMLton.Basis

open MultiMLton.Lib List

/-- `reader` -/
abbrev Reader (α σ : Type) := σ → Option (α × σ)

namespace StringCvt

inductive Radix
  | bin
  | oct
  | dec
  | hex
  deriving DecidableEq

def radixToInt : Radix → ℕ
  | .bin => 2
  | .oct => 8
  | .dec => 10
  | .hex => 16

variable {σ : Type}

/-- `loop` of `splitl`, with the characters so far -/
def splitlLoop (p : Char → Bool) (f : Reader Char σ) : ℕ → σ → List Char → Option (List Char × σ)
  | 0, _, _ => none
  | fuel + 1, src, chars =>
    match f src with
    | none => some (chars.reverse, src)
    | some (c, src') =>
      if p c then splitlLoop p f fuel src' (c :: chars) else some (chars.reverse, src)

def splitl (p : Char → Bool) (f : Reader Char σ) (fuel : ℕ) (src : σ) : Option (List Char × σ) :=
  splitlLoop p f fuel src []

def dropl (p : Char → Bool) (f : Reader Char σ) (fuel : ℕ) (src : σ) : Option σ :=
  (splitl p f fuel src).map Prod.snd

def stringReader (s : List Char) : Reader Char ℕ := fun i => s[i]?.map fun c => (c, i + 1)

def isSpace (c : Char) : Bool :=
  c = ' ' || c = '\t' || c = '\r' || c = '\n' || c = '\x0b' || c = '\x0c'

def skipWS : Reader Char σ → ℕ → σ → Option σ := dropl isSpace

def range (add : ℕ) (cmin cmax : Char) (c : Char) : Option ℕ :=
  if cmin ≤ c ∧ c ≤ cmax then some (add + c.toNat - cmin.toNat) else none

def combine (ds : List (Char → Option ℕ)) (c : Char) : Option ℕ := ds.findSome? fun d => d c

def charToDigit : Radix → Char → Option ℕ
  | .bin => range 0 '0' '1'
  | .oct => range 0 '0' '7'
  | .dec => range 0 '0' '9'
  | .hex => combine [range 0 '0' '9', range 10 'a' 'f', range 10 'A' 'F']

/-- `digitToChar`, where there is a character -/
def digitToChar (n : ℤ) : Option Char :=
  if 0 ≤ n then "0123456789ABCDEF".toList[n.toNat]? else none

end StringCvt

open StringCvt

/-! ### Numerals -/

section Numerals

variable {σ : Type}

/-- The reader takes the characters `cs` from the stream `s` and leaves `s'`. -/
inductive Reads (cread : Reader Char σ) : σ → List Char → σ → Prop
  | nil (s : σ) : Reads cread s [] s
  | cons {s s₁ s' : σ} {c : Char} {cs : List Char} (head : cread s = some (c, s₁))
      (tail : Reads cread s₁ cs s') : Reads cread s (c :: cs) s'

/-- The value of digits, the most significant one first. -/
def digitsValue (base : ℕ) (ds : List ℕ) : ℕ := ds.foldl (fun v d => v * base + d) 0

/-- Digits, and their value. -/
def Digits (radix : Radix) (cs : List Char) (v : ℕ) : Prop :=
  cs ≠ [] ∧ ∃ ds, cs.map (charToDigit radix) = ds.map some ∧ digitsValue (radixToInt radix) ds = v

/-- Digits, in hexadecimal perhaps after `0x` or `0X`, and their value. -/
inductive Unsigned (radix : Radix) : List Char → ℕ → Prop
  | digits {cs : List Char} {v : ℕ} (h : Digits radix cs v) : Unsigned radix cs v
  | prefixed {x : Char} {cs : List Char} {v : ℕ} (hex : radix = .hex) (hx : x = 'x' ∨ x = 'X')
      (h : Digits radix cs v) : Unsigned radix ('0' :: x :: cs) v

/-- A sign, or none, and whether it is a minus. -/
inductive Sign : List Char → Bool → Prop
  | none : Sign [] false
  | plus : Sign ['+'] false
  | minus : Sign ['-'] true
  | tilde : Sign ['~'] true

/-- The text of an integer: white space, a sign or none, and digits. -/
inductive Numeral (radix : Radix) : List Char → ℤ → Prop
  | mk {white sign cs : List Char} {neg : Bool} {v : ℕ} (hwhite : ∀ c ∈ white, isSpace c = true)
      (hsign : Sign sign neg) (hcs : Unsigned radix cs v) :
      Numeral radix (white ++ sign ++ cs) (if neg then -(v : ℤ) else v)

/-- `cs` is the longest text with `P` that can be read from `s`; `s'` is left. -/
structure Longest (P : List Char → Prop) (cread : Reader Char σ) (s : σ) (cs : List Char) (s' : σ) :
    Prop where
  reads : Reads cread s cs s'
  holds : P cs
  longest : ∀ cs' s'', Reads cread s cs' s'' → P cs' → cs'.length ≤ cs.length

/-- The longest numeral at `s` has the value `v`, and leaves `s'`. -/
def LongestNumeral (radix : Radix) (cread : Reader Char σ) (s : σ) (v : ℤ) (s' : σ) : Prop :=
  ∃ cs, Numeral radix cs v ∧ Longest (fun cs => ∃ v, Numeral radix cs v) cread s cs s'

end Numerals

/-! ### Runs of characters -/

section Runs

variable {σ : Type} {cread : Reader Char σ} {s s₁ s' s'' : σ} {c : Char} {cs ds e : List Char}
  {p : Char → Bool}

theorem reads_cons_iff :
    Reads cread s (c :: cs) s' ↔ ∃ s₁, cread s = some (c, s₁) ∧ Reads cread s₁ cs s' := by
  constructor
  · rintro (_ | ⟨head, tail⟩)
    exact ⟨_, head, tail⟩
  · rintro ⟨s₁, head, tail⟩
    exact .cons head tail

theorem reads_append_iff :
    Reads cread s (cs ++ ds) s' ↔ ∃ s₁, Reads cread s cs s₁ ∧ Reads cread s₁ ds s' := by
  induction cs generalizing s with
  | nil =>
    constructor
    · exact fun h => ⟨s, .nil s, h⟩
    · rintro ⟨s₁, ⟨⟩, h⟩
      exact h
  | cons c cs ih =>
    rw [List.cons_append, reads_cons_iff]
    constructor
    · rintro ⟨s₁, head, tail⟩
      obtain ⟨s₂, h1, h2⟩ := ih.1 tail
      exact ⟨s₂, .cons head h1, h2⟩
    · rintro ⟨s₂, h1, h2⟩
      obtain ⟨s₁, head, tail⟩ := reads_cons_iff.1 h1
      exact ⟨s₁, head, ih.2 ⟨s₂, tail, h2⟩⟩

/-- The characters for which `p` holds, up to the first one for which it does not, or to the end. -/
structure Run (p : Char → Bool) (cread : Reader Char σ) (s : σ) (cs : List Char) (s' : σ) :
    Prop where
  reads : Reads cread s cs s'
  all : ∀ c ∈ cs, p c = true
  stop : ∀ c s'', cread s' = some (c, s'') → p c = false

theorem Run.nil (h : ∀ c s'', cread s = some (c, s'') → p c = false) : Run p cread s [] s :=
  ⟨.nil s, fun _ hc => (not_mem_nil hc).elim, h⟩

theorem Run.cons (head : cread s = some (c, s₁)) (hc : p c = true) (h : Run p cread s₁ cs s') :
    Run p cread s (c :: cs) s' :=
  ⟨.cons head h.reads, forall_mem_cons.2 ⟨hc, h.all⟩, h.stop⟩

theorem Run.length_le (h : Run p cread s cs s') (hr : Reads cread s ds s'')
    (hds : ∀ d ∈ ds, p d = true) : ds.length ≤ cs.length := by
  obtain ⟨hreads, -, hstop⟩ := h
  induction hreads generalizing ds with
  | nil s =>
    cases hr with
    | nil => exact le_rfl
    | cons head tail =>
      have hfalse := hstop _ _ head
      rw [hds _ mem_cons_self] at hfalse
      cases hfalse
  | cons head tail ih =>
    cases hr with
    | nil => exact Nat.zero_le _
    | cons head' tail' =>
      rw [head] at head'
      cases head'
      exact Nat.succ_le_succ (ih tail' (fun d hd => hds d (mem_cons_of_mem _ hd)) hstop)

theorem Run.unique (h : Run p cread s cs s') (h' : Run p cread s ds s'') : cs = ds ∧ s' = s'' := by
  obtain ⟨hreads, hall, hstop⟩ := h
  induction hreads generalizing ds with
  | nil s =>
    cases h'.reads with
    | nil => exact ⟨rfl, rfl⟩
    | cons head tail =>
      have hfalse := hstop _ _ head
      rw [h'.all _ mem_cons_self] at hfalse
      cases hfalse
  | cons head tail ih =>
    obtain ⟨hreads', hall', hstop'⟩ := h'
    cases hreads' with
    | nil =>
      have hfalse := hstop' _ _ head
      rw [hall _ mem_cons_self] at hfalse
      cases hfalse
    | cons head' tail' =>
      rw [head] at head'
      cases head'
      obtain ⟨rfl, rfl⟩ := ih ⟨tail', fun d hd => hall' d (mem_cons_of_mem _ hd), hstop'⟩
        (fun d hd => hall d (mem_cons_of_mem _ hd)) hstop
      exact ⟨rfl, rfl⟩

theorem splitlLoop_of_run (h : Run p cread s cs s') (chars : List Char) :
    Yields (fun fuel => splitlLoop p cread fuel s chars) (chars.reverse ++ cs, s') := by
  obtain ⟨hreads, hall, hstop⟩ := h
  induction hreads generalizing chars with
  | nil s =>
    refine .of_succ fun fuel => ?_
    rw [splitlLoop, append_nil]
    cases hs : cread s with
    | none => rfl
    | some cs₁ =>
      obtain ⟨c, s₁⟩ := cs₁
      exact if_neg (by rw [hstop c s₁ hs]; exact Bool.false_ne_true)
  | @cons s s₁ s' c cs head tail ih =>
    have hloop := ih (c :: chars) (fun d hd => hall d (mem_cons_of_mem _ hd)) hstop
    rw [reverse_cons, append_assoc] at hloop
    refine hloop.succ fun fuel => ?_
    rw [splitlLoop, head]
    exact if_pos (hall c mem_cons_self)

theorem run_of_splitlLoop {fuel : ℕ} {chars : List Char}
    (h : splitlLoop p cread fuel s chars = some (cs, s')) :
    ∃ ds, cs = chars.reverse ++ ds ∧ Run p cread s ds s' := by
  induction fuel generalizing s chars with
  | zero => cases h
  | succ fuel ih =>
    rw [splitlLoop] at h
    cases hs : cread s with
    | none =>
      rw [hs] at h
      cases h
      exact ⟨[], (append_nil _).symm, .nil fun c s'' h => by rw [hs] at h; cases h⟩
    | some cs₁ =>
      obtain ⟨c, s₁⟩ := cs₁
      simp only [hs] at h
      cases hc : p c with
      | true =>
        rw [hc, if_pos rfl] at h
        obtain ⟨ds, hds, hrun⟩ := ih h
        refine ⟨c :: ds, ?_, .cons hs hc hrun⟩
        rw [hds, reverse_cons, append_assoc]
        rfl
      | false =>
        rw [hc, if_neg Bool.false_ne_true] at h
        cases h
        refine ⟨[], (append_nil _).symm, .nil fun c' s'' h => ?_⟩
        rw [hs] at h
        cases h
        exact hc

theorem skipWS_yields (h : Run isSpace cread s cs s') :
    Yields (fun fuel => skipWS cread fuel s) s' :=
  (splitlLoop_of_run h []).map Prod.snd

theorem run_of_skipWS {fuel : ℕ} (h : skipWS cread fuel s = some s') :
    ∃ cs, Run isSpace cread s cs s' := by
  obtain ⟨⟨cs, s'⟩, hsplit, rfl⟩ := Option.map_eq_some_iff.1 h
  obtain ⟨ds, -, hrun⟩ := run_of_splitlLoop hsplit
  exact ⟨ds, hrun⟩

end Runs

/-! ### Strings -/

theorem reads_string (pre cs : List Char) :
    Reads (stringReader (pre ++ cs)) pre.length cs (pre ++ cs).length := by
  induction cs generalizing pre with
  | nil =>
    rw [append_nil]
    exact .nil _
  | cons ch cs ih =>
    have htail := ih (pre ++ [ch])
    rw [append_assoc, length_append] at htail
    refine .cons ?_ htail
    simp [stringReader]

theorem length_of_reads {cs ds : List Char} {k s' : ℕ} (h : Reads (stringReader cs) k ds s')
    (hk : k ≤ cs.length) : k + ds.length ≤ cs.length := by
  induction h with
  | nil => exact hk
  | @cons s s₁ s' ch ds head tail ih =>
    obtain ⟨ch', hch, heq⟩ := Option.map_eq_some_iff.1 head
    cases heq
    obtain ⟨hlt, -⟩ := List.getElem?_eq_some_iff.1 hch
    have := ih hlt
    rw [length_cons]
    omega

end MultiMLton.Basis
