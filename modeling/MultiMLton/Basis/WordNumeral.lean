import MultiMLton.Basis.Numeral

/-!
# Finding words

The texts of words, which have prefixes with a `w`, and where a longest one is found.

* `prefix_of_reads`: what is read from one stream;
* `WordNumeral`, `LongestWord`: white space, a prefix or none, and digits;
* `longestWord_iff`, `exists_wordNumeral_iff`: the longest one in the parts that a scanner reads, and
  when there is one.
-/

namespace MultiMLton.Basis

open StringCvt List

/-- What may come before the digits of a word. -/
def wordPrefixes : Radix → List (List Char)
  | .hex => [['0', 'w', 'x'], ['0', 'w', 'X'], ['0', 'x'], ['0', 'X']]
  | _ => [['0', 'w']]

/-- The text of a word: white space, a prefix or none, and digits. -/
inductive WordNumeral (radix : Radix) : List Char → ℕ → Prop
  | mk {white pre cs : List Char} {v : ℕ} (hwhite : ∀ c ∈ white, isSpace c = true)
      (hpre : pre = [] ∨ pre ∈ wordPrefixes radix) (hcs : Digits radix cs v) :
      WordNumeral radix (white ++ pre ++ cs) v

section Streams

variable {σ : Type} {radix : Radix} {cread : Reader Char σ} {s s₁ s₂ s' s'' : σ} {c : Char}
  {cs ds pre pre' white : List Char} {v : ℕ}

/-- The longest word at `s` has the value `v`, and leaves `s'`. -/
def LongestWord (radix : Radix) (cread : Reader Char σ) (s : σ) (v : ℕ) (s' : σ) : Prop :=
  ∃ cs, WordNumeral radix cs v ∧ Longest (fun cs => ∃ v, WordNumeral radix cs v) cread s cs s'

/-! ### Prefixes -/

theorem prefix_of_reads (h : Reads cread s cs s') (h' : Reads cread s ds s'')
    (hlen : cs.length ≤ ds.length) : cs <+: ds := by
  induction h generalizing ds with
  | nil s => exact nil_prefix
  | cons head tail ih =>
    cases h' with
    | nil => exact absurd hlen (Nat.not_succ_le_zero _)
    | cons head' tail' =>
      rw [head] at head'
      cases head'
      exact cons_prefix_cons.2 ⟨rfl, ih tail' (Nat.le_of_succ_le_succ hlen)⟩

theorem reads_unique (h : Reads cread s cs s') (h' : Reads cread s cs s'') : s' = s'' := by
  induction h with
  | nil s =>
    cases h'
    rfl
  | cons head tail ih =>
    obtain ⟨s₁, head', tail'⟩ := reads_cons_iff.1 h'
    rw [head] at head'
    cases head'
    exact ih tail'

theorem isDigit_zero (radix : Radix) : isDigit radix '0' = true := by cases radix <;> decide

/-- A prefix is a zero and letters, of which the first is no digit. -/
theorem exists_letter (h : pre ∈ wordPrefixes radix) :
    ∃ x rest, pre = '0' :: x :: rest ∧ isDigit radix x = false := by
  cases radix with
  | hex =>
    simp only [wordPrefixes, mem_cons, not_mem_nil, or_false] at h
    rcases h with rfl | rfl | rfl | rfl <;> exact ⟨_, _, rfl, by decide⟩
  | _ => exact ⟨'w', [], mem_singleton.1 h, by decide⟩

/-- No prefix goes on as another one. -/
theorem wordPrefix_unique (h : pre ∈ wordPrefixes radix) (h' : pre' ∈ wordPrefixes radix)
    (hr : Reads cread s pre s₁) (hr' : Reads cread s pre' s₂) : pre = pre' ∧ s₁ = s₂ := by
  have hfree : ∀ p ∈ wordPrefixes radix, ∀ p' ∈ wordPrefixes radix, p <+: p' → p = p' := by
    cases radix <;> decide
  have heq : pre = pre' := by
    rcases le_total pre.length pre'.length with hle | hle
    · exact hfree pre h pre' h' (prefix_of_reads hr hr' hle)
    · exact (hfree pre' h' pre h (prefix_of_reads hr' hr hle)).symm
  subst heq
  exact ⟨rfl, reads_unique hr hr'⟩

/-- Digits end before the first letter of a prefix. -/
theorem length_le_of_prefix (h : pre ∈ wordPrefixes radix) (hr : Reads cread s pre s₁)
    (hr' : Reads cread s ds s') (hds : ∀ d ∈ ds, isDigit radix d = true) :
    ds.length < pre.length := by
  by_contra hle
  obtain ⟨x, rest, rfl, hx⟩ := exists_letter h
  have hpre := prefix_of_reads hr hr' (not_lt.1 hle)
  have hdigit := hds x (hpre.subset (by simp))
  rw [hx] at hdigit
  cases hdigit

/-- The stream begins with a prefix and a digit. -/
def AtWordPrefix (radix : Radix) (cread : Reader Char σ) (s s₂ : σ) : Prop :=
  ∃ pre ∈ wordPrefixes radix, Reads cread s pre s₂ ∧ AtDigit radix cread s₂

/-- From `s` a scanner finds a word with the value `v`, and leaves `s'`. -/
inductive ScansWord (radix : Radix) (cread : Reader Char σ) (s : σ) (v : ℕ) (s' : σ) : Prop
  | plain {cs : List Char} (run : Run (isDigit radix) cread s cs s') (value : Digits radix cs v)
      (plain : ∀ s₂, ¬AtWordPrefix radix cread s s₂)
  | prefixed {s₂ : σ} {pre cs : List Char} (hpre : pre ∈ wordPrefixes radix)
      (reads : Reads cread s pre s₂) (run : Run (isDigit radix) cread s₂ cs s')
      (value : Digits radix cs v)

/-! ### The longest word -/

/-- The parts of a word that is read. -/
theorem WordNumeral.parts (h : WordNumeral radix cs v) (hr : Reads cread s cs s') :
    ∃ white s₁ pre s₂ ds, cs = white ++ pre ++ ds ∧ Run isSpace cread s white s₁ ∧
      AtDigit radix cread s₁ ∧ Reads cread s₁ pre s₂ ∧ (pre = [] ∨ pre ∈ wordPrefixes radix) ∧
      Reads cread s₂ ds s' ∧ Digits radix ds v := by
  obtain @⟨white, pre, ds, v, hwhite, hpre, hds⟩ := h
  rw [append_assoc] at hr
  obtain ⟨s₁, hr1, hr2⟩ := reads_append_iff.1 hr
  obtain ⟨s₂, hr3, hr4⟩ := reads_append_iff.1 hr2
  have hdigit : AtDigit radix cread s₁ := by
    rcases hpre with rfl | hpre
    · cases hr3
      exact hds.head hr4
    · obtain ⟨x, rest, rfl, -⟩ := exists_letter hpre
      obtain ⟨s₃, head, -⟩ := reads_cons_iff.1 hr3
      exact ⟨'0', s₃, head, isDigit_zero radix⟩
  refine ⟨white, s₁, pre, s₂, ds, rfl, ⟨hr1, hwhite, fun c s'' hc => ?_⟩, hdigit, hr3, hpre, hr4, hds⟩
  obtain ⟨c', s₃, hc', hd⟩ := hdigit
  rw [hc] at hc'
  cases hc'
  exact isSpace_of_isDigit hd

/-- A word can be read if white space is followed by a digit. -/
theorem exists_wordNumeral_iff :
    (∃ cs s' v, Reads cread s cs s' ∧ WordNumeral radix cs v) ↔
      ∃ white s₁, Run isSpace cread s white s₁ ∧ AtDigit radix cread s₁ := by
  constructor
  · rintro ⟨cs, s', v, hr, h⟩
    obtain ⟨white, s₁, -, -, -, -, hrun, hdigit, -⟩ := h.parts hr
    exact ⟨white, s₁, hrun, hdigit⟩
  · rintro ⟨white, s₁, hrun, c, s₂, hc, hd⟩
    obtain ⟨v, hv⟩ := exists_digits (cons_ne_nil c []) fun c' hc' => by
      rw [mem_singleton.1 hc']
      exact hd
    refine ⟨white ++ [] ++ [c], s₂, v, ?_, .mk hrun.all (.inl rfl) hv⟩
    rw [append_nil]
    exact reads_append_iff.2 ⟨s₁, hrun.reads, .cons hc (.nil s₂)⟩

/-- One more digit would make a longer word. -/
theorem run_of_longest (h : Longest (fun cs => ∃ v, WordNumeral radix cs v) cread s
    (white ++ pre ++ ds) s') (hwhite : ∀ c ∈ white, isSpace c = true)
    (hpre : pre = [] ∨ pre ∈ wordPrefixes radix) (hds : Digits radix ds v)
    (hr : Reads cread s (white ++ pre) s₂) (hr' : Reads cread s₂ ds s') :
    Run (isDigit radix) cread s₂ ds s' := by
  refine ⟨hr', hds.all, fun c s'' hc => ?_⟩
  cases hdigit : isDigit radix c with
  | false => rfl
  | true =>
    have hall : ∀ c' ∈ ds ++ [c], isDigit radix c' = true := fun c' hc' => by
      rcases mem_append.1 hc' with hc' | hc'
      · exact hds.all c' hc'
      · rw [mem_singleton.1 hc', hdigit]
    obtain ⟨v', hv'⟩ := exists_digits (by simp) hall
    have hreads : Reads cread s (white ++ pre ++ (ds ++ [c])) s'' :=
      reads_append_iff.2 ⟨s₂, hr, reads_append_iff.2 ⟨s', hr', .cons hc (.nil s'')⟩⟩
    have hlen := h.longest _ s'' hreads ⟨v', .mk hwhite hpre hv'⟩
    simp only [length_append, length_cons, length_nil] at hlen
    omega

theorem scansWord_of_longest (h : LongestWord radix cread s v s') :
    ∃ white s₁, Run isSpace cread s white s₁ ∧ ScansWord radix cread s₁ v s' := by
  obtain ⟨_, hcs, hlong⟩ := h
  obtain ⟨white, s₁, pre, s₂, ds, rfl, hrun, -, hpre, hpres, hr, hds⟩ := hcs.parts hlong.reads
  have hrunds := run_of_longest hlong hrun.all hpres hds
    (reads_append_iff.2 ⟨s₁, hrun.reads, hpre⟩) hr
  refine ⟨white, s₁, hrun, ?_⟩
  rcases hpres with rfl | hpres
  · cases hpre
    refine .plain hrunds hds fun s₃ ⟨pre', hpre', hr', c, s₄, hc, hd⟩ => ?_
    -- with the prefix and one digit the word would be longer
    obtain ⟨v', hv'⟩ := exists_digits (cons_ne_nil c []) fun c' hc' => by
      rw [mem_singleton.1 hc']
      exact hd
    have hreads : Reads cread s (white ++ pre' ++ [c]) s₄ := by
      rw [append_assoc]
      exact reads_append_iff.2 ⟨s₁, hrun.reads,
        reads_append_iff.2 ⟨s₃, hr', .cons hc (.nil s₄)⟩⟩
    have hlen := hlong.longest _ s₄ hreads ⟨v', .mk hrun.all (.inr hpre') hv'⟩
    have hlt := length_le_of_prefix hpre' hr' hr hds.all
    simp only [length_append, length_cons, length_nil] at hlen
    omega
  · exact .prefixed hpres hpre hrunds hds

theorem longest_of_scansWord (hrun : Run isSpace cread s white s₁)
    (h : ScansWord radix cread s₁ v s') : LongestWord radix cread s v s' := by
  cases h with
  | @plain ds run value plain =>
    refine ⟨white ++ [] ++ ds, .mk hrun.all (.inl rfl) value, ?_,
      ⟨v, .mk hrun.all (.inl rfl) value⟩, fun cs' s'' hr' ⟨v', h'⟩ => ?_⟩
    · rw [append_nil]
      exact reads_append_iff.2 ⟨s₁, hrun.reads, run.reads⟩
    · obtain ⟨white', s₁', pre, s₂, ds', rfl, hrun', -, hpre, hpres, hds, hv'⟩ := h'.parts hr'
      obtain ⟨rfl, rfl⟩ := hrun.unique hrun'
      rcases hpres with rfl | hpres
      · cases hpre
        have hle := run.length_le hds hv'.all
        simpa using hle
      · exact absurd ⟨pre, hpres, hpre, hv'.head hds⟩ (plain s₂)
  | @prefixed s₂ pre ds hpre reads run value =>
    refine ⟨white ++ pre ++ ds, .mk hrun.all (.inr hpre) value, ?_,
      ⟨v, .mk hrun.all (.inr hpre) value⟩, fun cs' s'' hr' ⟨v', h'⟩ => ?_⟩
    · rw [append_assoc]
      exact reads_append_iff.2 ⟨s₁, hrun.reads, reads_append_iff.2 ⟨s₂, reads, run.reads⟩⟩
    · obtain ⟨white', s₁', pre', s₂', ds', rfl, hrun', -, hpre', hpres, hds, hv'⟩ := h'.parts hr'
      obtain ⟨rfl, rfl⟩ := hrun.unique hrun'
      simp only [length_append]
      rcases hpres with rfl | hpres
      · cases hpre'
        have hlt := length_le_of_prefix hpre reads hds hv'.all
        simp only [length_nil]
        omega
      · obtain ⟨rfl, rfl⟩ := wordPrefix_unique hpre hpres reads hpre'
        have hle := run.length_le hds hv'.all
        omega

theorem longestWord_iff : LongestWord radix cread s v s' ↔
    ∃ white s₁, Run isSpace cread s white s₁ ∧ ScansWord radix cread s₁ v s' :=
  ⟨scansWord_of_longest, fun ⟨_, _, hrun, h⟩ => longest_of_scansWord hrun h⟩

end Streams

end MultiMLton.Basis
