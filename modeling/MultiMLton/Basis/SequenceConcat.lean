import MultiMLton.Basis.Slice

/-!
# Concatenation of slices

`append`, `concat` and `concatWith` of `arrays-and-vectors/sequence.fun`.

* `concat_eq`: `concat` sums the lengths with `+?`, which raises nothing, so it makes a sequence of
  the sum's low bits;
* `Concatenation.run_iff`: the sequence or `Size`, exactly where no sum of lengths wraps into a
  valid length.
-/

namespace MultiMLton.Basis.Sequence

open Slice List Int Nat

variable {α : Type}

section Code

variable (s : SeqIndex) (isMutable : Bool)

/-- The function that `append` unfolds: the next element, and where to go on. -/
def appendNext (sl2 : Slice α) : ℤ × Slice α → Except Exn (α × (ℤ × Slice α))
  | (i, sl) =>
    if i < sl.len then do pure (← unsafeSub' s sl i, (s.addWrap i 1, sl))
    else do pure (← unsafeSub' s sl2 0, (1, sl2))

def append (sl1 sl2 : Slice α) : Except Exn (List α) :=
  if sl1.len = 0 then Slice.sequence s isMutable sl2
  else if sl2.len = 0 then Slice.sequence s isMutable sl1
  else
    match s.add sl1.len sl2.len with
    | none => .error .size
    | some n => (unfoldi' s isMutable n (0, sl1) fun _ => appendNext s sl2).map Prod.fst

/-- `loop` of `concat`: the next element, and where to go on. -/
def concatLoop : List (Slice α) → ℤ → Slice α → Except Exn (α × (ℤ × Slice α × List (Slice α)))
  | [], i, sl =>
    if i < sl.len then do pure (← unsafeSub' s sl i, (s.addWrap i 1, sl, []))
    else .error (.fail "Sequence.Slice.concat")
  | sl' :: sls, i, sl =>
    if i < sl.len then do pure (← unsafeSub' s sl i, (s.addWrap i 1, sl, sl' :: sls))
    else concatLoop sls 0 sl'

/-- The length that `concat` computes. -/
def concatLength (sls : List (Slice α)) : ℤ := sls.foldl (fun n sl => s.addWrap n sl.len) 0

def concat : List (Slice α) → Except Exn (List α)
  | [] => seq0 s isMutable
  | [sl] => Slice.sequence s isMutable sl
  | sl :: sls =>
    (unfoldi' s isMutable (concatLength s (sl :: sls)) (0, sl, sls) fun _ ac =>
      concatLoop s ac.2.2 ac.1 ac.2.1).map Prod.fst

/-- The function that `concatWith` folds. -/
def concatNext (sep seq : List α) (sl : Slice α) : Except Exn (List α) := do
  concat s isMutable [full seq, full sep, full (← Slice.sequence s isMutable sl)]

def concatWith (sep : List α) : List (Slice α) → Except Exn (List α)
  | [] => seq0 s isMutable
  | [sl] => Slice.sequence s isMutable sl
  | sl :: sls => do sls.foldlM (concatNext s isMutable sep) (← Slice.sequence s isMutable sl)

end Code

/-! ### `append` and `concat` -/

section Concat

variable {s : SeqIndex} {isMutable : Bool} {sl sl1 sl2 : Slice α} {sls : List (Slice α)} {i : ℤ}

/-- The index of the next element in the slice. -/
theorem addWrap_one (h : sl.Valid s) (h0 : 0 ≤ i) (hlt : i < sl.len) : s.addWrap i 1 = i + 1 := by
  have hmax := h.validLength.2
  have hmaxInt := s.maxLen'_le_maxInt'
  exact SeqIndex.addWrap_eq (SeqIndex.inRange_of_nonneg (by omega) (by omega))

/-- The next element is read in the slice while there is one. -/
theorem next_elem (h : sl.Valid s) (h0 : 0 ≤ i) (hlt : i < sl.len) {x : α} {xs ys : List α}
    (hxs : x :: xs = sl.elems.drop i.toNat ++ ys) : unsafeSub' s sl i = .ok x ∧
      0 ≤ s.addWrap i 1 ∧ xs = sl.elems.drop (s.addWrap i 1).toNat ++ ys := by
  have hlength := h.length_elems
  have hk : i.toNat < sl.elems.length := by omega
  rw [drop_eq_getElem_cons hk, List.cons_append] at hxs
  obtain ⟨rfl, rfl⟩ := List.cons.inj hxs
  rw [addWrap_one h h0 hlt, show (i + 1).toNat = i.toNat + 1 by omega]
  exact ⟨h.unsafeSub'_eq h0 (getElem?_eq_getElem hk), by omega, rfl⟩

theorem drop_elems_of_le (h : sl.Valid s) (hle : sl.len ≤ i) : sl.elems.drop i.toNat = [] := by
  have hlength := h.length_elems
  exact drop_eq_nil_of_le (by omega)

theorem seq0_eq : seq0 s isMutable = .ok ([] : List α) := by
  have hzero : fromIntForLength s 0 = .ok 0 := by
    rw [fromIntForLength, SeqIndex.fromInt, if_pos (validLength_zero (s := s)).inRange]
  have harray : arrayUninit' s isMutable 0 = .ok 0 := by
    rw [arrayUninit'_eq isMutable (validLength_zero (s := s)).inRange, if_pos validLength_zero]
  unfold seq0 unfoldi'
  rw [hzero]
  change (arrayUninit' s isMutable 0 >>= _) >>= _ = _
  rw [harray]
  rfl

/-- `append` gives the elements of both slices, or raises `Size`. -/
theorem append_eq (h1 : sl1.Valid s) (h2 : sl2.Valid s) : append s isMutable sl1 sl2 =
    if ValidLength s (sl1.elems ++ sl2.elems).length then .ok (sl1.elems ++ sl2.elems)
    else .error .size := by
  have hlen1 := h1.length_elems
  have hlen2 := h2.length_elems
  have hlength : ((sl1.elems ++ sl2.elems).length : ℤ) = sl1.len + sl2.len := by
    rw [length_append]
    omega
  by_cases hz1 : sl1.len = 0
  · have hnil : sl1.elems = [] := eq_nil_of_length_eq_zero (by omega)
    rw [append, if_pos hz1, h2.sequence_eq, if_pos, hnil, nil_append]
    rw [hlength, hz1, zero_add]
    exact h2.validLength
  by_cases hz2 : sl2.len = 0
  · have hnil : sl2.elems = [] := eq_nil_of_length_eq_zero (by omega)
    rw [append, if_neg hz1, if_pos hz2, h1.sequence_eq, if_pos, hnil, append_nil]
    rw [hlength, hz2, add_zero]
    exact h1.validLength
  rw [append, if_neg hz1, if_neg hz2]
  cases hadd : s.add sl1.len sl2.len with
  | none =>
    refine (if_neg fun hvalid => ?_).symm
    rw [hlength] at hvalid
    rw [SeqIndex.add, SeqIndex.fromInt, if_pos hvalid.inRange] at hadd
    cases hadd
  | some n =>
    obtain ⟨hrange, rfl⟩ := SeqIndex.fromInt_eq_some.1 hadd
    -- in the first slice the elements of the second are still to come
    refine (unfoldi'_eq
      (fun _ b xs => 0 ≤ b.1 ∧ b.2.Valid s ∧ (xs = b.2.elems.drop b.1.toNat ++ sl2.elems ∨
        b.2 = sl2 ∧ xs = sl2.elems.drop b.1.toNat)) ?_ ⟨le_rfl, h1, .inl rfl⟩ hrange
      (le_of_eq hlength.symm)).trans ?_
    · rintro - ⟨i, sl⟩ x xs ⟨h0, hsl, hxs⟩
      dsimp only at h0 hsl hxs
      unfold appendNext
      dsimp only
      split_ifs with hlt
      · rcases hxs with hxs | ⟨rfl, hxs⟩
        · obtain ⟨hx, hnext, hrest⟩ := next_elem hsl h0 hlt hxs
          rw [hx]
          exact ⟨_, rfl, hnext, hsl, .inl hrest⟩
        · obtain ⟨hx, hnext, hrest⟩ := next_elem hsl h0 hlt (hxs.trans (append_nil _).symm)
          rw [hx]
          exact ⟨_, rfl, hnext, hsl, .inr ⟨rfl, hrest.trans (append_nil _)⟩⟩
      · have hnil := drop_elems_of_le hsl (not_lt.1 hlt)
        rcases hxs with hxs | ⟨rfl, hxs⟩
        · have hpos : 0 < sl2.len := lt_of_le_of_ne h2.len_nonneg (Ne.symm hz2)
          rw [hnil, nil_append, ← append_nil sl2.elems] at hxs
          obtain ⟨hx, hnext, hrest⟩ := next_elem h2 le_rfl hpos hxs
          rw [addWrap_one h2 le_rfl hpos] at hrest
          rw [hx]
          exact ⟨_, rfl, zero_le_one, h2, .inr ⟨rfl, hrest.trans (append_nil _)⟩⟩
        · rw [hnil] at hxs
          cases hxs
    · rw [hlength, take_of_length_le (by omega)]

/-- `loop` finds the next element. -/
theorem concatLoop_eq (h0 : 0 ≤ i) (hsl : sl.Valid s) (hsls : ∀ sl ∈ sls, sl.Valid s) {x : α}
    {xs : List α} (hxs : x :: xs = sl.elems.drop i.toNat ++ sls.flatMap elems) :
    ∃ b, concatLoop s sls i sl = .ok (x, b) ∧ 0 ≤ b.1 ∧ b.2.1.Valid s ∧
      (∀ sl ∈ b.2.2, sl.Valid s) ∧ xs = b.2.1.elems.drop b.1.toNat ++ b.2.2.flatMap elems := by
  induction sls generalizing i sl with
  | nil =>
    unfold concatLoop
    split_ifs with hlt
    · obtain ⟨hx, hnext, hrest⟩ := next_elem hsl h0 hlt hxs
      rw [hx]
      exact ⟨_, rfl, hnext, hsl, hsls, hrest⟩
    · rw [drop_elems_of_le hsl (not_lt.1 hlt)] at hxs
      cases hxs
  | cons sl' sls ih =>
    unfold concatLoop
    split_ifs with hlt
    · obtain ⟨hx, hnext, hrest⟩ := next_elem hsl h0 hlt hxs
      rw [hx]
      exact ⟨_, rfl, hnext, hsl, hsls, hrest⟩
    · rw [drop_elems_of_le hsl (not_lt.1 hlt), nil_append, flatMap_cons] at hxs
      obtain ⟨hsl', hsls'⟩ := forall_mem_cons.1 hsls
      exact ih le_rfl hsl' hsls' (by rw [hxs, toNat_zero, drop_zero])

/-- The lengths are summed as words. -/
theorem concatLength_eq (hsls : ∀ sl ∈ sls, sl.Valid s) :
    concatLength s sls = s.wrap (sls.flatMap elems).length := by
  suffices h : ∀ n : ℤ, sls.foldl (fun n sl => s.addWrap n sl.len) (s.wrap n) =
      s.wrap (n + (sls.flatMap elems).length) by
    have hzero : s.wrap 0 = 0 := SeqIndex.wrap_eq (validLength_zero (s := s)).inRange
    simpa [concatLength, hzero] using h 0
  induction sls with
  | nil => simp
  | cons sl sls ih =>
    intro n
    obtain ⟨hsl, hsls⟩ := forall_mem_cons.1 hsls
    have hadd : s.addWrap (s.wrap n) sl.len = s.wrap (n + sl.len) := by
      simp [SeqIndex.addWrap, SeqIndex.wrap]
    rw [List.foldl_cons, hadd, ih hsls, flatMap_cons, length_append, Nat.cast_add,
      hsl.length_elems, add_assoc]

/-- Of two slices or more, `concat` gives as many elements as the low bits of the length say. -/
theorem concat_cons_cons (hsls : ∀ sl ∈ sl1 :: sl2 :: sls, sl.Valid s) {xs : List α}
    (hxs : (sl1 :: sl2 :: sls).flatMap elems = xs) :
    concat s isMutable (sl1 :: sl2 :: sls) =
      if s.maxLen' ≤ s.toWord xs.length then .error .size
      else .ok (xs.take (s.toWord xs.length).toNat) := by
  have hlength : concatLength s (sl1 :: sl2 :: sls) = s.wrap xs.length :=
    hxs ▸ concatLength_eq hsls
  obtain ⟨hsl1, htail⟩ := forall_mem_cons.1 hsls
  have hvalid := validLength_wrap (s := s) xs.length
  have hwrap := s.wrap_eq_toWord xs.length
  have hword := SeqIndex.toWord_natCast_le (s := s) xs.length
  have hle : s.wrap xs.length ≤ xs.length := by
    have hmax := s.one_le_maxInt'
    split_ifs at hwrap <;> omega
  have hspec := unfoldi'_eq (s := s) (m := isMutable) (n := s.wrap xs.length)
    (b := ((0 : ℤ), sl1, sl2 :: sls)) (f := fun _ ac => concatLoop s ac.2.2 ac.1 ac.2.1)
    (fun _ b xs => 0 ≤ b.1 ∧ b.2.1.Valid s ∧ (∀ sl ∈ b.2.2, sl.Valid s) ∧
      xs = b.2.1.elems.drop b.1.toNat ++ b.2.2.flatMap elems)
    (fun ⟨h0, hsl, hsls, hxs⟩ => concatLoop_eq h0 hsl hsls hxs)
    ⟨le_rfl, hsl1, htail, hxs.symm⟩ (SeqIndex.inRange_wrap _) hle
  change (unfoldi' s isMutable (concatLength s (sl1 :: sl2 :: sls)) (0, sl1, sl2 :: sls) fun _ ac =>
    concatLoop s ac.2.2 ac.1 ac.2.1).map Prod.fst = _
  rw [hlength]
  refine hspec.trans ?_
  by_cases hlt : s.toWord xs.length < s.maxLen'
  · rw [if_pos (hvalid.2 hlt), if_neg (not_le.2 hlt), hwrap,
      if_pos (show s.toWord xs.length ≤ s.maxInt' from hlt.le.trans s.maxLen'_le_maxInt')]
  · rw [if_neg (mt hvalid.1 hlt), if_pos (not_lt.1 hlt)]

end Concat

/-! ### `concatWith` -/

section ConcatWith

variable {s : SeqIndex} {isMutable : Bool} {sl : Slice α} {sls : List (Slice α)} {sep acc : List α}

theorem concatNext_eq (hsep : ValidLength s sep.length) (hacc : ValidLength s acc.length)
    (hsl : sl.Valid s) : concatNext s isMutable sep acc sl =
      if s.maxLen' ≤ s.toWord (acc ++ (sep ++ sl.elems)).length then .error .size
      else .ok ((acc ++ (sep ++ sl.elems)).take
        (s.toWord (acc ++ (sep ++ sl.elems)).length).toNat) := by
  rw [concatNext, hsl.sequence_eq]
  refine concat_cons_cons (fun sl' hmem => ?_) (by simp)
  simp only [mem_cons, not_mem_nil, or_false] at hmem
  rcases hmem with rfl | rfl | rfl
  · exact valid_full hacc
  · exact valid_full hsep
  · exact valid_full (by rw [hsl.length_elems]; exact hsl.validLength)

/-- While the length is valid, all elements are there. -/
theorem foldlM_concatNext (hsep : ValidLength s sep.length) (hsls : ∀ sl ∈ sls, sl.Valid s)
    (hv : ValidLength s (acc ++ sls.flatMap fun sl => sep ++ sl.elems).length) :
    sls.foldlM (concatNext s isMutable sep) acc =
      .ok (acc ++ sls.flatMap fun sl => sep ++ sl.elems) := by
  induction sls generalizing acc with
  | nil => simp [pure, Except.pure]
  | cons sl sls ih =>
    obtain ⟨hsl, hsls⟩ := forall_mem_cons.1 hsls
    rw [flatMap_cons, ← append_assoc] at hv ⊢
    have hle : (acc ++ (sep ++ sl.elems)).length ≤
        (acc ++ (sep ++ sl.elems) ++ sls.flatMap fun sl => sep ++ sl.elems).length := by
      rw [@length_append _ (acc ++ (sep ++ sl.elems))]
      exact le_add_right _ _
    have hle' : acc.length ≤ (acc ++ (sep ++ sl.elems)).length := by
      rw [length_append]
      exact le_add_right _ _
    have hlt := hv.2
    have hword := SeqIndex.toWord_of_nonneg (s := s) (natCast_nonneg (acc ++ (sep ++ sl.elems)).length)
      (by have := s.maxLen'_le_maxInt'; omega)
    rw [foldlM_cons, concatNext_eq hsep ⟨natCast_nonneg _, by omega⟩ hsl, hword,
      if_neg (by omega), toNat_natCast, take_length]
    exact ih hsls hv

/-- Each turn keeps as many elements as the low bits of the length say, or raises `Size`. -/
theorem length_foldlM_concatNext (hsep : ValidLength s sep.length) (hsls : ∀ sl ∈ sls, sl.Valid s)
    {n : ℕ} (hacc : ValidLength s acc.length) (hn : (acc.length : ℤ) = s.toWord n) :
    (∃ k, s.maxLen' ≤ s.toWord (n + ((sls.take k).flatMap fun sl => sep ++ sl.elems).length : ℕ)) ∧
      sls.foldlM (concatNext s isMutable sep) acc = .error .size ∨
    (∀ k, s.toWord (n + ((sls.take k).flatMap fun sl => sep ++ sl.elems).length : ℕ) < s.maxLen') ∧
      ∃ v, sls.foldlM (concatNext s isMutable sep) acc = .ok v ∧
        (v.length : ℤ) = s.toWord (n + (sls.flatMap fun sl => sep ++ sl.elems).length : ℕ) := by
  induction sls generalizing acc n with
  | nil =>
    refine .inr ⟨fun k => ?_, acc, rfl, by simpa using hn⟩
    rw [take_nil, flatMap_nil, length_nil, add_zero, ← hn]
    exact hacc.2
  | cons sl sls ih =>
    obtain ⟨hsl, hsls⟩ := forall_mem_cons.1 hsls
    have hword : s.toWord (acc ++ (sep ++ sl.elems)).length =
        s.toWord (n + (sep ++ sl.elems).length : ℕ) := by
      rw [length_append, Nat.cast_add, Nat.cast_add, hn]
      simp [SeqIndex.toWord]
    have htake (k : ℕ) : n + (((sl :: sls).take (k + 1)).flatMap fun sl => sep ++ sl.elems).length =
        n + (sep ++ sl.elems).length + ((sls.take k).flatMap fun sl => sep ++ sl.elems).length := by
      rw [take_succ_cons, flatMap_cons, length_append, ← Nat.add_assoc]
    rw [foldlM_cons, concatNext_eq hsep hacc hsl, hword]
    by_cases hle : s.maxLen' ≤ s.toWord (n + (sep ++ sl.elems).length : ℕ)
    · refine .inl ⟨⟨1, ?_⟩, by rw [if_pos hle]; rfl⟩
      rw [htake 0]
      simpa using hle
    · rw [if_neg hle]
      have hlength : (((acc ++ (sep ++ sl.elems)).take
          (s.toWord (n + (sep ++ sl.elems).length : ℕ)).toNat).length : ℤ) =
          s.toWord (n + (sep ++ sl.elems).length : ℕ) := by
        have hnat := SeqIndex.toWord_natCast_le (s := s) (acc ++ (sep ++ sl.elems)).length
        have hnonneg := s.toWord_nonneg (n + (sep ++ sl.elems).length : ℕ)
        rw [hword] at hnat
        rw [length_take]
        omega
      have hvalid : ValidLength s ((acc ++ (sep ++ sl.elems)).take
          (s.toWord (n + (sep ++ sl.elems).length : ℕ)).toNat).length :=
        ⟨natCast_nonneg _, by rw [hlength]; exact not_le.1 hle⟩
      rcases ih hsls hvalid hlength with ⟨⟨k, hk⟩, heq⟩ | ⟨hall, v, heq, hv⟩
      · exact .inl ⟨⟨k + 1, by rw [htake]; exact hk⟩, heq⟩
      · refine .inr ⟨fun k => ?_, v, heq, ?_⟩
        · cases k with
          | zero =>
            rw [take_zero, flatMap_nil, length_nil, add_zero, ← hn]
            exact hacc.2
          | succ k =>
            rw [htake]
            exact hall k
        · rw [flatMap_cons, length_append, ← Nat.add_assoc]
          exact hv

/-- The first slice, and each other one after a separator. -/
theorem intercalate_elems (sep : List α) (sl : Slice α) (sls : List (Slice α)) :
    sep.intercalate ((sl :: sls).map elems) =
      sl.elems ++ sls.flatMap fun sl => sep ++ sl.elems := by
  induction sls generalizing sl with
  | nil => simp
  | cons sl' sls ih =>
    rw [map_cons, map_cons, intercalate_cons_cons, ← map_cons, ih,
      flatMap_cons, append_assoc, append_assoc]

end ConcatWith

/-! ### All three -/

/-- A call of `append`, `concat` or `concatWith`. -/
inductive Concatenation (α : Type)
  | append (sl1 sl2 : Slice α)
  | concat (sls : List (Slice α))
  | concatWith (sep : List α) (sls : List (Slice α))

namespace Concatenation

def run (s : SeqIndex) (isMutable : Bool) : Concatenation α → Except Exn (List α)
  | append sl1 sl2 => Sequence.append s isMutable sl1 sl2
  | concat sls => Sequence.concat s isMutable sls
  | concatWith sep sls => Sequence.concatWith s isMutable sep sls

/-- The elements of the slices, with the separators. -/
def elems : Concatenation α → List α
  | append sl1 sl2 => sl1.elems ++ sl2.elems
  | concat sls => sls.flatMap Slice.elems
  | concatWith sep sls => sep.intercalate (sls.map Slice.elems)

/-- The slices and the separator are valid. -/
def Valid (s : SeqIndex) : Concatenation α → Prop
  | append sl1 sl2 => sl1.Valid s ∧ sl2.Valid s
  | concat sls => ∀ sl ∈ sls, sl.Valid s
  | concatWith sep sls => ValidLength s sep.length ∧ ∀ sl ∈ sls, sl.Valid s

/-- Where the length is not valid, neither are its low bits: those of the whole length for
`concat`, and for `concatWith` those of the length up to one of the slices. -/
def Fits (s : SeqIndex) : Concatenation α → Prop
  | append _ _ => True
  | concat sls =>
    ¬ValidLength s (sls.flatMap Slice.elems).length →
      s.maxLen' ≤ s.toWord (sls.flatMap Slice.elems).length
  | concatWith sep sls =>
    ¬ValidLength s (sep.intercalate (sls.map Slice.elems)).length →
      ∃ k, s.maxLen' ≤ s.toWord (sep.intercalate ((sls.take k).map Slice.elems)).length

end Concatenation

/-- A run that gives a result of the low bits' length is right where these are the length. -/
theorem toWord_of_validLength {s : SeqIndex} {n : ℤ} (h : ValidLength s n) : s.toWord n = n :=
  SeqIndex.toWord_of_nonneg h.1 (h.2.le.trans s.maxLen'_le_maxInt')

theorem concat_iff {s : SeqIndex} {isMutable : Bool} {sls : List (Slice α)}
    (h : ∀ sl ∈ sls, sl.Valid s) :
    Sequence.concat s isMutable sls =
        (if ValidLength s (sls.flatMap elems).length then .ok (sls.flatMap elems)
        else .error .size) ↔
      (Concatenation.concat sls).Fits s := by
  match sls, h with
  | [], _ =>
    have hvalid : ValidLength s ((([] : List (Slice α)).flatMap elems).length : ℤ) :=
      validLength_zero
    rw [Sequence.concat, seq0_eq, if_pos hvalid]
    exact iff_of_true rfl fun hnot => absurd hvalid hnot
  | [sl], h =>
    have hsl := h sl (mem_singleton_self sl)
    have hvalid : ValidLength s (([sl].flatMap elems).length : ℤ) := by
      rw [flatMap_singleton, hsl.length_elems]
      exact hsl.validLength
    rw [Sequence.concat, hsl.sequence_eq, if_pos hvalid, flatMap_singleton]
    exact iff_of_true rfl fun hnot => absurd hvalid hnot
  | sl1 :: sl2 :: sls, h =>
    rw [concat_cons_cons h rfl]
    by_cases hvalid : ValidLength s ((sl1 :: sl2 :: sls).flatMap elems).length
    · rw [if_pos hvalid, toWord_of_validLength hvalid, if_neg (not_le.2 hvalid.2),
        toNat_natCast, take_length]
      exact iff_of_true rfl fun hnot => absurd hvalid hnot
    · rw [if_neg hvalid]
      split_ifs with hword
      · exact iff_of_true rfl fun _ => hword
      · exact iff_of_false (fun heq => by cases heq) fun hfits => hword (hfits hvalid)

theorem concatWith_iff {s : SeqIndex} {isMutable : Bool} {sep : List α} {sls : List (Slice α)}
    (hsep : ValidLength s sep.length) (h : ∀ sl ∈ sls, sl.Valid s) :
    Sequence.concatWith s isMutable sep sls =
        (if ValidLength s (sep.intercalate (sls.map elems)).length then
          .ok (sep.intercalate (sls.map elems))
        else .error .size) ↔
      (Concatenation.concatWith sep sls).Fits s := by
  match sls, h with
  | [], _ =>
    have hvalid : ValidLength s ((sep.intercalate (([] : List (Slice α)).map elems)).length : ℤ) :=
      validLength_zero
    rw [Sequence.concatWith, seq0_eq, if_pos hvalid]
    exact iff_of_true rfl fun hnot => absurd hvalid hnot
  | [sl], h =>
    have hsl := h sl (mem_singleton_self sl)
    have helems : sep.intercalate ([sl].map elems) = sl.elems := by simp
    have hvalid : ValidLength s ((sep.intercalate ([sl].map elems)).length : ℤ) := by
      rw [helems, hsl.length_elems]
      exact hsl.validLength
    rw [Sequence.concatWith, hsl.sequence_eq, if_pos hvalid, helems]
    exact iff_of_true rfl fun hnot => absurd hvalid hnot
  | sl :: sl' :: sls, h =>
    obtain ⟨hsl, hsls⟩ := forall_mem_cons.1 h
    have hlen : ValidLength s sl.elems.length := hsl.length_elems.symm ▸ hsl.validLength
    have hrun : Sequence.concatWith s isMutable sep (sl :: sl' :: sls) =
        (sl' :: sls).foldlM (concatNext s isMutable sep) sl.elems := by
      change Slice.sequence s isMutable sl >>= _ = _
      rw [hsl.sequence_eq]
      rfl
    rw [hrun]
    by_cases hvalid : ValidLength s (sep.intercalate ((sl :: sl' :: sls).map elems)).length
    · rw [if_pos hvalid, intercalate_elems]
      rw [intercalate_elems] at hvalid
      refine iff_of_true (foldlM_concatNext hsep hsls hvalid) fun hnot => absurd hvalid ?_
      rwa [intercalate_elems] at hnot
    · rw [if_neg hvalid]
      rcases length_foldlM_concatNext hsep hsls hlen
        (toWord_of_validLength hlen).symm with ⟨⟨k, hk⟩, heq⟩ | ⟨hall, v, heq, -⟩
      · refine iff_of_true heq fun _ => ⟨k + 1, ?_⟩
        rw [take_succ_cons, intercalate_elems, length_append]
        exact hk
      · rw [heq]
        refine iff_of_false (fun heq => by cases heq) fun hfits => ?_
        obtain ⟨k, hk⟩ := hfits hvalid
        cases k with
        | zero =>
          have hzero : s.toWord (([] : List α).length : ℤ) = 0 :=
            toWord_of_validLength validLength_zero
          rw [take_zero, map_nil, intercalate_nil, hzero] at hk
          have := s.one_le_maxLen'
          omega
        | succ k =>
          rw [take_succ_cons, intercalate_elems, length_append] at hk
          exact absurd hk (not_le.2 (hall k))

/-- **Concatenation raises `Size`** instead of truncating, exactly where no sum of lengths wraps
into a valid length. -/
theorem Concatenation.run_iff {s : SeqIndex} (isMutable : Bool) (c : Concatenation α)
    (h : c.Valid s) :
    c.run s isMutable =
        (if ValidLength s c.elems.length then .ok c.elems else .error .size) ↔ c.Fits s := by
  cases c with
  | append sl1 sl2 => exact iff_of_true (append_eq h.1 h.2) trivial
  | concat sls => exact concat_iff h
  | concatWith sep sls => exact concatWith_iff h.1 h.2

/-- The slices of two short sequences. -/
theorem Concatenation.run_iff_short :
    (Concatenation.concat [full [1], full [2, 3]]).run SeqIndex.int64Int32 false =
        (if ValidLength SeqIndex.int64Int32 3 then .ok [1, 2, 3] else .error .size) ↔
      (Concatenation.concat [full [1], full [2, 3]]).Fits SeqIndex.int64Int32 :=
  Concatenation.run_iff false (.concat [full [1], full [2, 3]]) (by
    intro sl hsl
    simp only [List.mem_cons, List.not_mem_nil, or_false] at hsl
    rcases hsl with rfl | rfl <;> exact valid_full (by decide))

/-- Four times `2 ^ 30` elements are none. -/
theorem concat_four {sl : Slice α} (h : sl.Valid .int32) (hlen : sl.len = 2 ^ 30) :
    (Concatenation.concat [sl, sl, sl, sl]).Valid .int32 ∧
    ¬ValidLength .int32 (Concatenation.concat [sl, sl, sl, sl]).elems.length ∧
    (Concatenation.concat [sl, sl, sl, sl]).run .int32 false = .ok [] := by
  have hvalid : ∀ sl' ∈ [sl, sl, sl, sl], sl'.Valid .int32 := by
    simpa using h
  have hlength : ([sl, sl, sl, sl].flatMap elems).length = 2 ^ 32 := by
    have hone : sl.elems.length = 2 ^ 30 := by
      have := h.length_elems
      omega
    simp [hone]
  have hinvalid : ¬ValidLength .int32 ((2 ^ 32 : ℕ) : ℤ) := by decide
  refine ⟨hvalid, hlength ▸ hinvalid, ?_⟩
  have hrun : concat .int32 false [sl, sl, sl, sl] = _ := concat_cons_cons hvalid rfl
  have hzero : (SeqIndex.int32.toWord ((2 ^ 32 : ℕ) : ℤ)).toNat = 0 := by decide
  rw [hlength, if_neg (by decide), hzero, take_zero] at hrun
  exact hrun

/-- All of a sequence of `2 ^ 30` elements. -/
def large : Slice ℕ := full (List.replicate (2 ^ 30) 0)

theorem concat_truncates : (Concatenation.concat [large, large, large, large]).Valid .int32 ∧
    ¬ValidLength .int32 (Concatenation.concat [large, large, large, large]).elems.length ∧
    (Concatenation.concat [large, large, large, large]).run .int32 false = .ok [] := by
  have hlength : ((List.replicate (2 ^ 30) 0).length : ℤ) = 2 ^ 30 := by
    rw [List.length_replicate]
    norm_num
  exact concat_four (valid_full (hlength ▸ by decide)) hlength

end MultiMLton.Basis.Sequence
