import MultiMLton.Basis.StringCvt

/-!
# Finding numerals

* `Scans`: how a scanner gets to the digits of an unsigned numeral;
* `scans_of_longest`, `exists_unsigned_iff`: it finds the longest one, and there is one if and only
  if the stream begins with a digit;
* `LongestNumeral.cases`, `exists_numeral_iff`: the same with white space and signs.
-/

namespace MultiMLton.Basis

open StringCvt

/-! ### Digits -/

def isDigit (radix : Radix) (c : Char) : Bool := (charToDigit radix c).isSome

theorem range_eq_some {add d : ℕ} {cmin cmax c : Char} (h : range add cmin cmax c = some d) :
    cmin.toNat ≤ c.toNat ∧ c.toNat ≤ cmax.toNat ∧ d = add + c.toNat - cmin.toNat := by
  unfold range at h
  split_ifs at h with hc
  exact ⟨hc.1, hc.2, (Option.some.inj h).symm⟩

theorem charToDigit_lt {radix : Radix} {c : Char} {d : ℕ} (h : charToDigit radix c = some d) :
    d < radixToInt radix := by
  cases radix with
  | hex =>
    simp only [charToDigit, combine, List.findSome?_cons, List.findSome?_nil] at h
    show d < 16
    cases h1 : range 0 '0' '9' c with
    | some d1 =>
      obtain ⟨-, hle, hd⟩ := range_eq_some h1
      rw [h1] at h
      cases h
      have : ('9' : Char).toNat = 57 := rfl
      have : ('0' : Char).toNat = 48 := rfl
      omega
    | none =>
      cases h2 : range 10 'a' 'f' c with
      | some d2 =>
        obtain ⟨-, hle, hd⟩ := range_eq_some h2
        rw [h1, h2] at h
        cases h
        have : ('f' : Char).toNat = 102 := rfl
        have : ('a' : Char).toNat = 97 := rfl
        omega
      | none =>
        rw [h1, h2] at h
        cases h3 : range 10 'A' 'F' c with
        | some d3 =>
          obtain ⟨-, hle, hd⟩ := range_eq_some h3
          rw [h3] at h
          cases h
          have : ('F' : Char).toNat = 70 := rfl
          have : ('A' : Char).toNat = 65 := rfl
          omega
        | none =>
          rw [h3] at h
          cases h
  | _ =>
    obtain ⟨-, hle, hd⟩ := range_eq_some h
    have : ('0' : Char).toNat = 48 := rfl
    have : ('1' : Char).toNat = 49 := rfl
    have : ('7' : Char).toNat = 55 := rfl
    have : ('9' : Char).toNat = 57 := rfl
    simp only [radixToInt]
    omega

theorem isDigit_of_isSpace {radix : Radix} {c : Char} (h : isSpace c = true) :
    isDigit radix c = false := by
  simp only [isSpace, Bool.or_eq_true, decide_eq_true_eq] at h
  rcases h with ((((rfl | rfl) | rfl) | rfl) | rfl) | rfl <;> cases radix <;> decide

theorem isSpace_of_isDigit {radix : Radix} {c : Char} (h : isDigit radix c = true) :
    isSpace c = false := by
  cases hc : isSpace c with
  | false => rfl
  | true => rw [isDigit_of_isSpace hc] at h; cases h

theorem isDigit_of_x {x : Char} (hx : x = 'x' ∨ x = 'X') : isDigit .hex x = false := by
  rcases hx with rfl | rfl <;> decide

theorem radixToInt_bounds (radix : Radix) : 2 ≤ radixToInt radix ∧ radixToInt radix ≤ 16 := by
  cases radix <;> simp [radixToInt]

@[simp] theorem digitsValue_nil (base : ℕ) : digitsValue base [] = 0 := rfl

theorem foldl_digits (base v : ℕ) (ds : List ℕ) :
    ds.foldl (fun v d => v * base + d) v = v * base ^ ds.length + digitsValue base ds := by
  induction ds generalizing v with
  | nil => simp
  | cons d ds ih =>
    have hcons : digitsValue base (d :: ds) = _ := ih (0 * base + d)
    rw [List.foldl_cons, ih, hcons, List.length_cons]
    ring

/-- Reading on makes a value no smaller. -/
theorem le_foldl_digits {base : ℕ} (hb : 2 ≤ base) (v : ℕ) (ds : List ℕ) :
    v ≤ v * base ^ ds.length + digitsValue base ds :=
  (Nat.le_mul_of_pos_right v (Nat.pow_pos (by omega))).trans (Nat.le_add_right _ _)

theorem digitsValue_cons (base d : ℕ) (ds : List ℕ) :
    digitsValue base (d :: ds) = d * base ^ ds.length + digitsValue base ds := by
  rw [digitsValue, List.foldl_cons, foldl_digits]
  ring

theorem digitsValue_append (base : ℕ) (ds es : List ℕ) :
    digitsValue base (ds ++ es) = digitsValue base ds * base ^ es.length + digitsValue base es := by
  rw [digitsValue, List.foldl_append, foldl_digits]
  rfl

theorem digitsValue_concat (base d : ℕ) (ds : List ℕ) :
    digitsValue base (ds ++ [d]) = digitsValue base ds * base + d := by
  rw [digitsValue_append, digitsValue_cons]
  simp

theorem digitsValue_lt {base : ℕ} {ds : List ℕ} (h : ∀ d ∈ ds, d < base) :
    digitsValue base ds < base ^ ds.length := by
  induction ds with
  | nil => simp
  | cons d ds ih =>
    rw [List.forall_mem_cons] at h
    have hlt := ih h.2
    have hd : d + 1 ≤ base := h.1
    rw [digitsValue_cons, List.length_cons]
    calc d * base ^ ds.length + digitsValue base ds
        < d * base ^ ds.length + base ^ ds.length := by omega
      _ = (d + 1) * base ^ ds.length := by ring
      _ ≤ base * base ^ ds.length := Nat.mul_le_mul_right _ hd
      _ = base ^ (ds.length + 1) := by ring

section Streams

variable {σ : Type} {radix : Radix} {cread : Reader Char σ} {s s₁ s₂ s' s'' : σ} {c : Char}
  {cs : List Char} {v : ℕ}

theorem Digits.all (h : Digits radix cs v) : ∀ c ∈ cs, isDigit radix c = true := by
  obtain ⟨-, ds, hds, -⟩ := h
  intro c hc
  obtain ⟨d, -, hd⟩ := List.mem_map.1 (hds ▸ List.mem_map_of_mem (f := charToDigit radix) hc)
  rw [isDigit, ← hd]
  rfl

theorem exists_digits (hne : cs ≠ []) (h : ∀ c ∈ cs, isDigit radix c = true) :
    ∃ v, Digits radix cs v := by
  refine ⟨_, hne, cs.filterMap (charToDigit radix), ?_, rfl⟩
  clear hne
  induction cs with
  | nil => rfl
  | cons c cs ih =>
    rw [List.forall_mem_cons] at h
    obtain ⟨d, hd⟩ := Option.isSome_iff_exists.1 h.1
    rw [List.map_cons, hd, List.filterMap_cons_some hd, List.map_cons, ih h.2]

theorem Digits.head (h : Digits radix cs v) (hr : Reads cread s cs s') :
    ∃ c s₁, cread s = some (c, s₁) ∧ isDigit radix c = true := by
  cases hr with
  | nil => exact (h.1 rfl).elim
  | cons head tail => exact ⟨_, _, head, h.all _ List.mem_cons_self⟩

/-! ### Unsigned numerals -/

/-- The stream begins with a digit. -/
def AtDigit (radix : Radix) (cread : Reader Char σ) (s : σ) : Prop :=
  ∃ c s₁, cread s = some (c, s₁) ∧ isDigit radix c = true

/-- The stream begins with `0x` or `0X` and a digit, in hexadecimal. -/
def AtPrefix (radix : Radix) (cread : Reader Char σ) (s s₂ : σ) : Prop :=
  radix = .hex ∧ ∃ s₁ x, cread s = some ('0', s₁) ∧ cread s₁ = some (x, s₂) ∧ (x = 'x' ∨ x = 'X') ∧
    AtDigit radix cread s₂

/-- From `s` a scanner finds an unsigned numeral with the value `v`, and leaves `s'`. -/
inductive Scans (radix : Radix) (cread : Reader Char σ) (s : σ) (v : ℕ) (s' : σ) : Prop
  | plain {cs : List Char} (run : Run (isDigit radix) cread s cs s') (value : Digits radix cs v)
      (plain : ∀ s₂, ¬AtPrefix radix cread s s₂)
  | prefixed {s₂ : σ} {cs : List Char} (pre : AtPrefix radix cread s s₂)
      (run : Run (isDigit radix) cread s₂ cs s') (value : Digits radix cs v)

theorem Unsigned.atDigit (h : Unsigned radix cs v) (hr : Reads cread s cs s') :
    AtDigit radix cread s := by
  cases h with
  | digits h => exact h.head hr
  | prefixed hex hx h =>
    obtain ⟨s₁, h0, -⟩ := reads_cons_iff.1 hr
    subst hex
    exact ⟨_, _, h0, by decide⟩

theorem exists_unsigned_iff :
    (∃ cs s' v, Reads cread s cs s' ∧ Unsigned radix cs v) ↔ AtDigit radix cread s := by
  constructor
  · rintro ⟨cs, s', v, hr, h⟩
    exact h.atDigit hr
  · rintro ⟨c, s₁, head, hc⟩
    obtain ⟨v, hv⟩ := exists_digits (List.cons_ne_nil c []) fun c' hc' => by
      rw [List.mem_singleton.1 hc']
      exact hc
    exact ⟨[c], s₁, v, .cons head (.nil s₁), .digits hv⟩

/-- The longest unsigned numeral at a stream. -/
def LongestUnsigned (radix : Radix) (cread : Reader Char σ) (s : σ) (v : ℕ) (s' : σ) : Prop :=
  ∃ cs, Unsigned radix cs v ∧ Longest (fun cs => ∃ v, Unsigned radix cs v) cread s cs s'

/-- Where a longest one ends there is no further digit. -/
theorem Longest.run (ds : List Char) (h : Longest (fun cs => ∃ v, Unsigned radix cs v) cread s
    (ds ++ cs) s') (hr : Reads cread s ds s₂) (hr' : Reads cread s₂ cs s')
    (hcs : Digits radix cs v)
    (hmore : ∀ cs' v', Digits radix cs' v' → ∃ v, Unsigned radix (ds ++ cs') v) :
    Run (isDigit radix) cread s₂ cs s' := by
  refine ⟨hr', hcs.all, fun c s'' hc => ?_⟩
  cases hdigit : isDigit radix c with
  | false => rfl
  | true =>
    -- one more digit would make a longer numeral
    have hall : ∀ c' ∈ cs ++ [c], isDigit radix c' = true := fun c' hc' => by
      rcases List.mem_append.1 hc' with hc' | hc'
      · exact hcs.all c' hc'
      · rw [List.mem_singleton.1 hc', hdigit]
    obtain ⟨v', hv'⟩ := exists_digits (by simp) hall
    have hlen := h.longest (ds ++ (cs ++ [c])) s''
      (reads_append_iff.2 ⟨s₂, hr, reads_append_iff.2 ⟨s', hr', .cons hc (.nil s'')⟩⟩)
      (hmore _ _ hv')
    simp only [List.length_append, List.length_cons, List.length_nil] at hlen
    omega

theorem scans_of_longest (h : LongestUnsigned radix cread s v s') : Scans radix cread s v s' := by
  obtain ⟨cs, hcs, hlong⟩ := h
  cases hcs with
  | digits hcs =>
    have hrun := Longest.run [] hlong (.nil s) hlong.reads hcs
      fun cs' v' h => ⟨v', .digits h⟩
    refine .plain hrun hcs fun s₂ hpre => ?_
    -- the prefix makes a numeral of three characters, but the run ends before the second
    obtain ⟨rfl, s₁, x, h0, h1, hx, d, s₃, h2, hd⟩ := hpre
    have hone : Run (isDigit .hex) cread s ['0'] s₁ :=
      .cons h0 (by decide) (.nil fun c s'' hc => by
        rw [h1] at hc
        cases hc
        exact isDigit_of_x hx)
    obtain ⟨rfl, -⟩ := hrun.unique hone
    obtain ⟨v', hv'⟩ := exists_digits (List.cons_ne_nil d []) fun c hc => by
      rw [List.mem_singleton.1 hc]
      exact hd
    have hlen := hlong.longest ['0', x, d] s₃ (.cons h0 (.cons h1 (.cons h2 (.nil s₃))))
      ⟨v', .prefixed rfl hx hv'⟩
    simp at hlen
  | @prefixed x cs v hex hx hcs =>
    obtain ⟨s₁, h0, hr⟩ := reads_cons_iff.1 hlong.reads
    obtain ⟨s₂, h1, hr⟩ := reads_cons_iff.1 hr
    have hrun := Longest.run ['0', x] hlong (.cons h0 (.cons h1 (.nil s₂))) hr hcs
      fun cs' v' h => ⟨v', .prefixed hex hx h⟩
    exact .prefixed ⟨hex, s₁, x, h0, h1, hx, hcs.head hr⟩ hrun hcs

/-! ### White space and signs -/

/-- The stream begins with a sign. -/
def AtSign (cread : Reader Char σ) (s : σ) (neg : Bool) (s₁ : σ) : Prop :=
  ∃ c, cread s = some (c, s₁) ∧ Sign [c] neg

theorem Sign.cases {c : Char} {neg : Bool} (h : Sign [c] neg) :
    (c = '+' ∧ neg = false) ∨ (c = '-' ∧ neg = true) ∨ (c = '~' ∧ neg = true) := by
  cases h <;> simp

theorem Sign.isSpace {c : Char} {neg : Bool} (h : Sign [c] neg) : StringCvt.isSpace c = false := by
  rcases h.cases with ⟨rfl, -⟩ | ⟨rfl, -⟩ | ⟨rfl, -⟩ <;> decide

theorem Sign.isDigit {c : Char} {neg : Bool} (h : Sign [c] neg) : isDigit radix c = false := by
  rcases h.cases with ⟨rfl, -⟩ | ⟨rfl, -⟩ | ⟨rfl, -⟩ <;> cases radix <;> decide

theorem AtDigit.not_atSign (h : AtDigit radix cread s) {neg : Bool} : ¬AtSign cread s neg s₁ := by
  rintro ⟨c, hc, hsign⟩
  obtain ⟨c', s₁', hc', hdigit⟩ := h
  rw [hc] at hc'
  cases hc'
  rw [hsign.isDigit] at hdigit
  cases hdigit

/-- Where a numeral can be read, white space is followed by a sign and a digit, or by a digit. -/
theorem exists_numeral_iff :
    (∃ cs s' v, Reads cread s cs s' ∧ Numeral radix cs v) ↔
      ∃ white s₁, Run isSpace cread s white s₁ ∧
        (AtDigit radix cread s₁ ∨ ∃ neg s₂, AtSign cread s₁ neg s₂ ∧ AtDigit radix cread s₂) := by
  constructor
  · rintro ⟨_, s', _, hr, @⟨white, sign, cs, neg, v, hwhite, hsign, hcs⟩⟩
    rw [List.append_assoc] at hr
    obtain ⟨s₁, hr1, hr2⟩ := reads_append_iff.1 hr
    obtain ⟨s₂, hr3, hr4⟩ := reads_append_iff.1 hr2
    have hdigit := hcs.atDigit hr4
    match sign, hsign with
    | [], _ =>
      cases hr3
      obtain ⟨c, s₃, hc, hd⟩ := hdigit
      refine ⟨white, s₁, ⟨hr1, hwhite, fun c' s'' hc' => ?_⟩, .inl ⟨c, s₃, hc, hd⟩⟩
      rw [hc] at hc'
      cases hc'
      exact isSpace_of_isDigit hd
    | [c], hsign =>
      obtain ⟨s₂', hc, hnil⟩ := reads_cons_iff.1 hr3
      cases hnil
      refine ⟨white, s₁, ⟨hr1, hwhite, fun c' s'' hc' => ?_⟩,
        .inr ⟨neg, s₂, ⟨c, hc, hsign⟩, hdigit⟩⟩
      rw [hc] at hc'
      cases hc'
      exact hsign.isSpace
  · rintro ⟨white, s₁, hrun, hdigit | ⟨neg, s₂, ⟨c, hc, hsign⟩, hdigit⟩⟩
    · obtain ⟨cs, s', v, hr, hcs⟩ := exists_unsigned_iff.2 hdigit
      exact ⟨_, s', _, by simpa using reads_append_iff.2 ⟨s₁, hrun.reads, hr⟩,
        .mk hrun.all .none hcs⟩
    · obtain ⟨cs, s', v, hr, hcs⟩ := exists_unsigned_iff.2 hdigit
      refine ⟨_, s', _, ?_, .mk hrun.all hsign hcs⟩
      rw [List.append_assoc]
      exact reads_append_iff.2 ⟨s₁, hrun.reads, .cons hc hr⟩

/-- The longest numeral is white space, a sign or none, and the longest unsigned one. -/
theorem LongestNumeral.cases {i : ℤ} (h : LongestNumeral radix cread s i s') :
    ∃ white s₁, Run isSpace cread s white s₁ ∧ ∃ v : ℕ,
      (i = v ∧ LongestUnsigned radix cread s₁ v s') ∨
      ∃ neg s₂, AtSign cread s₁ neg s₂ ∧ i = (if neg then -(v : ℤ) else v) ∧
        LongestUnsigned radix cread s₂ v s' := by
  obtain ⟨_, @⟨white, sign, cs, neg, v, hwhite, hsign, hcs⟩, hlong⟩ := h
  have hr := hlong.reads
  rw [List.append_assoc] at hr
  obtain ⟨s₁, hr1, hr2⟩ := reads_append_iff.1 hr
  obtain ⟨s₂, hr3, hr4⟩ := reads_append_iff.1 hr2
  obtain ⟨c₁, s₃, hc₁, hd⟩ := hcs.atDigit hr4
  have hlongest : LongestUnsigned radix cread s₂ v s' := by
    refine ⟨cs, hcs, hr4, ⟨v, hcs⟩, ?_⟩
    rintro cs' s'' hr' ⟨v', hcs'⟩
    have hlen := hlong.longest (white ++ sign ++ cs') s''
      (by
        rw [List.append_assoc]
        exact reads_append_iff.2 ⟨s₁, hr1, reads_append_iff.2 ⟨s₂, hr3, hr'⟩⟩)
      ⟨_, .mk hwhite hsign hcs'⟩
    simp only [List.length_append] at hlen
    omega
  match sign, hsign with
  | [], hsign =>
    cases hr3
    cases hsign
    refine ⟨white, s₁, ⟨hr1, hwhite, fun c' s'' hc' => ?_⟩, v, .inl ⟨rfl, hlongest⟩⟩
    rw [hc₁] at hc'
    cases hc'
    exact isSpace_of_isDigit hd
  | [c], hsign =>
    obtain ⟨s₂', hc, hnil⟩ := reads_cons_iff.1 hr3
    cases hnil
    refine ⟨white, s₁, ⟨hr1, hwhite, fun c' s'' hc' => ?_⟩, v,
      .inr ⟨neg, s₂, ⟨c, hc, hsign⟩, rfl, hlongest⟩⟩
    rw [hc] at hc'
    cases hc'
    exact hsign.isSpace

end Streams

end MultiMLton.Basis
