import Mathlib.Data.List.DropRight
import MultiMLton.Basis.Slice
import MultiMLton.Lib.Fuel

/-!
# Searching and splitting slices

The functions of the structure `Slice` of `arrays-and-vectors/sequence.fun` that look for elements
in a slice or take it apart. Their loops have as many turns as they have fuel, and a read outside
of the sequence is an error.

* `Slice.Of`: a valid slice of the same sequence, with given elements;
* `matchLoop`: the comparison of a pattern with the elements from some place on;
* `Refines`, `slice_refines`: what the functions do to the lists of elements.
-/

namespace MultiMLton.Basis.Sequence

open Lib List Nat

variable {α ρ : Type}

/-- What a loop returns or raises, if its fuel is enough. -/
abbrev Run (ρ : Type) := Option (Except Exn ρ)

/-- Go on with an element that is read. -/
def reading (read : Except Exn α) (k : α → Run ρ) : Run ρ :=
  match read with
  | .ok x => k x
  | .error e => some (.error e)

namespace Slice

section Code

variable (s : SeqIndex)

/-! ### Trimming and splitting -/

def triml (k : ℤ) (sl : Slice α) : Except Exn (Slice α) :=
  if k < 0 then .error .subscript
  else
    match s.fromInt k with
    | some k =>
      if k > sl.len then .ok (unsafeSlice' s sl.seq (s.addWrap sl.start sl.len) (some 0))
      else .ok (unsafeSlice' s sl.seq (s.addWrap sl.start k) (some (s.subWrap sl.len k)))
    | none => .ok (unsafeSlice' s sl.seq (s.addWrap sl.start sl.len) (some 0))

def trimr (k : ℤ) (sl : Slice α) : Except Exn (Slice α) :=
  if k < 0 then .error .subscript
  else
    match s.fromInt k with
    | some k =>
      if k > sl.len then .ok (unsafeSlice' s sl.seq sl.start (some 0))
      else .ok (unsafeSlice' s sl.seq sl.start (some (s.subWrap sl.len k)))
    | none => .ok (unsafeSlice' s sl.seq sl.start (some 0))

def split' (sl : Slice α) (i : ℤ) : Slice α × Slice α :=
  (unsafeSlice' s sl.seq sl.start (some (s.subWrap i sl.start)),
    unsafeSlice' s sl.seq i (some (s.subWrap sl.len (s.subWrap i sl.start))))

/-- `loop` of `splitl` -/
def splitlLoop (f : α → Bool) (seq : List α) (stop : ℤ) : ℕ → ℤ → Run ℤ
  | 0, _ => none
  | fuel + 1, i =>
    if i ≥ stop then some (.ok i)
    else reading (subUnsafe seq i) fun x =>
      if f x then splitlLoop f seq stop fuel (s.addWrap i 1) else some (.ok i)

def splitl (f : α → Bool) (sl : Slice α) (fuel : ℕ) : Run (Slice α × Slice α) :=
  let stop := s.addWrap sl.start sl.len
  (splitlLoop s f sl.seq stop fuel sl.start).map (·.map (split' s sl))

/-- `loop` of `splitr` -/
def splitrLoop (f : α → Bool) (seq : List α) (start : ℤ) : ℕ → ℤ → Run ℤ
  | 0, _ => none
  | fuel + 1, i =>
    if i < start then some (.ok start)
    else reading (subUnsafe seq i) fun x =>
      if f x then splitrLoop f seq start fuel (s.subWrap i 1) else some (.ok (s.addWrap i 1))

def splitr (f : α → Bool) (sl : Slice α) (fuel : ℕ) : Run (Slice α × Slice α) :=
  (splitrLoop s f sl.seq sl.start fuel (s.subWrap (s.addWrap sl.start sl.len) 1)).map
    (·.map (split' s sl))

def splitAt' (sl : Slice α) (i : ℤ) : Except Exn (Slice α × Slice α) :=
  if s.gtu i sl.len then .error .subscript
  else .ok (unsafeSlice' s sl.seq sl.start (some i),
    unsafeSlice' s sl.seq (s.addWrap sl.start i) (some (s.subWrap sl.len i)))

def splitAt (sl : Slice α) (i : ℤ) : Except Exn (Slice α × Slice α) :=
  match s.fromInt i with
  | some i => splitAt' s sl i
  | none => .error .subscript

/-! ### Looking for a pattern -/

/-- The loop of `isPrefix` and `isSuffix` and the inner one of `position`: the pattern, of length
`n`, against the elements that `read` gives. -/
def matchLoop (eq : α → α → Bool) (n : ℤ) (pat : List α) (read : ℤ → Except Exn α) :
    ℕ → ℤ → Run Bool
  | 0, _ => none
  | fuel + 1, j =>
    if j ≥ n then some (.ok true)
    else reading (subUnsafe pat j) fun y => reading (read j) fun x =>
      if eq y x then matchLoop eq n pat read fuel (s.addWrap j 1) else some (.ok false)

def isPrefix (eq : α → α → Bool) (seq : List α) (sl : Slice α) (fuel : ℕ) : Run Bool :=
  let n : ℤ := seq.length
  let n' := sl.len
  if n ≤ n' then matchLoop s eq n seq (fun j => unsafeSub' s sl j) fuel 0 else some (.ok false)

def isSuffix (eq : α → α → Bool) (seq : List α) (sl : Slice α) (fuel : ℕ) : Run Bool :=
  let n : ℤ := seq.length
  let n' := sl.len
  if n ≤ n' then
    let n'' := s.subWrap n' n
    matchLoop s eq n seq (fun j => unsafeSub' s sl (s.addWrap n'' j)) fuel 0
  else some (.ok false)

/-- `loop` of `isSubsequence` -/
def isSubsequenceLoop (eq : α → α → Bool) (seq : List α) (sl : Slice α) (n n'' : ℤ) :
    ℕ → ℤ → ℤ → Run Bool
  | 0, _, _ => none
  | fuel + 1, i, j =>
    if i > n'' then some (.ok false)
    else if j ≥ n then some (.ok true)
    else reading (subUnsafe seq j) fun y => reading (unsafeSub' s sl (s.addWrap i j)) fun x =>
      if eq y x then isSubsequenceLoop eq seq sl n n'' fuel i (s.addWrap j 1)
      else isSubsequenceLoop eq seq sl n n'' fuel (s.addWrap i 1) 0

def isSubsequence (eq : α → α → Bool) (seq : List α) (sl : Slice α) (fuel : ℕ) : Run Bool :=
  let n : ℤ := seq.length
  let n' := sl.len
  if n ≤ n' then isSubsequenceLoop s eq seq sl n (s.subWrap n' n) fuel 0 0
  else some (.ok false)

/-- `loop` of `position` -/
def positionLoop (eq : α → α → Bool) (seq' : List α) (sl : Slice α) (max : ℤ) : ℕ → ℤ → Run ℤ
  | 0, _ => none
  | fuel + 1, i =>
    if i ≥ max then some (.ok (s.addWrap sl.start sl.len))
    else
      match matchLoop s (fun y x => eq x y) seq'.length seq'
        (fun j => subUnsafe sl.seq (s.addWrap i j)) fuel 0 with
      | none => none
      | some (.error e) => some (.error e)
      | some (.ok true) => some (.ok i)
      | some (.ok false) => positionLoop eq seq' sl max fuel (s.addWrap i 1)

def position (eq : α → α → Bool) (seq' : List α) (sl : Slice α) (fuel : ℕ) :
    Run (Slice α × Slice α) :=
  let max := s.addWrap (s.subWrap (s.addWrap sl.start sl.len) seq'.length) 1
  (positionLoop s eq seq' sl max fuel sl.start).map (·.map (split' s sl))

/-! ### `span`, `tokens` and `fields` -/

def span (eq : List α → List α → Bool) (sl sl' : Slice α) : Except Exn (Slice α) :=
  if !eq sl.seq sl'.seq || s.addWrap sl'.start sl'.len < sl.start then .error .span
  else .ok (unsafeSlice' s sl.seq sl.start
    (some (s.subWrap (s.addWrap sl'.start sl'.len) sl.start)))

/-- `finish` of `tokens` -/
def finishToken (seq : List α) (start stop : ℤ) (sls : List (Slice α)) : List (Slice α) :=
  if start = stop then sls else unsafeSlice' s seq start (some (s.subWrap stop start)) :: sls

/-- `finish` of `fields` -/
def finishField (seq : List α) (start stop : ℤ) (sls : List (Slice α)) : List (Slice α) :=
  unsafeSlice' s seq start (some (s.subWrap stop start)) :: sls

/-- `loop` of `make` -/
def makeLoop (finish : List α → ℤ → ℤ → List (Slice α) → List (Slice α)) (p : α → Bool)
    (seq : List α) (max : ℤ) : ℕ → ℤ → ℤ → List (Slice α) → Run (List (Slice α))
  | 0, _, _, _ => none
  | fuel + 1, i, start, sls =>
    if i ≥ max then some (.ok (finish seq start i sls).reverse)
    else reading (subUnsafe seq i) fun x =>
      if p x then
        makeLoop finish p seq max fuel (s.addWrap i 1) (s.addWrap i 1) (finish seq start i sls)
      else makeLoop finish p seq max fuel (s.addWrap i 1) start sls

def make (finish : List α → ℤ → ℤ → List (Slice α) → List (Slice α)) (p : α → Bool)
    (sl : Slice α) (fuel : ℕ) : Run (List (Slice α)) :=
  let max := s.addWrap sl.start sl.len
  makeLoop s finish p sl.seq max fuel sl.start sl.start []

def tokens (p : α → Bool) (sl : Slice α) : ℕ → Run (List (Slice α)) := make s (finishToken s) p sl

def fields (p : α → Bool) (sl : Slice α) : ℕ → Run (List (Slice α)) := make s (finishField s) p sl

end Code

/-! ### Slices of the same sequence -/

/-- `r` is a valid slice of the sequence of `sl`, with the elements `xs`. -/
structure Of (s : SeqIndex) (sl : Slice α) (xs : List α) (r : Slice α) : Prop where
  seq_eq : r.seq = sl.seq
  valid : r.Valid s
  elems_eq : r.elems = xs

variable {k : ℕ}

section Parts

variable {s : SeqIndex} {sl : Slice α} (h : sl.Valid s)
include h

theorem Valid.inRange {i : ℤ} (h0 : -1 ≤ i) (hle : i ≤ sl.start + sl.len + 1) : s.InRange i := by
  have hlt := h.length.2
  have hstop := h.stop_le
  have hone := s.one_le_maxInt'
  have hmaxInt := s.maxLen'_le_maxInt'
  exact ⟨by omega, by omega⟩

/-- The part of a slice from place `k` on, of `m` elements. -/
theorem Valid.part {k m : ℕ} (hle : (k + m : ℤ) ≤ sl.len) {i n : ℤ} (hi : i = sl.start + k)
    (hn : n = m) : Of s sl ((sl.elems.drop k).take m) (unsafeSlice' s sl.seq i (some n)) := by
  have hstart := h.start_nonneg
  have hstop := h.stop_le
  have hwrap : s.addWrap 0 i = i := by
    rw [SeqIndex.addWrap_eq (h.inRange (by omega) (by omega)), zero_add]
  refine ⟨rfl, ⟨h.length, ?_, ?_, ?_⟩, ?_⟩
  · change 0 ≤ s.addWrap 0 i
    omega
  · change 0 ≤ n
    omega
  · change s.addWrap 0 i + n ≤ sl.seq.length
    omega
  · change (sl.seq.drop (s.addWrap 0 i).toNat).take n.toNat = _
    rw [hwrap, elems, drop_take, drop_drop, take_take, hi, hn]
    congr 1
    · omega
    · congr 1
      omega

theorem Valid.split' (hk : (k : ℤ) ≤ sl.len) {i : ℤ} (hi : i = sl.start + k) :
    Of s sl (sl.elems.take k) (split' s sl i).1 ∧ Of s sl (sl.elems.drop k) (split' s sl i).2 := by
  have hstart := h.start_nonneg
  have hlength := h.length_elems
  have hsub : s.subWrap i sl.start = k := by
    rw [SeqIndex.subWrap_eq (h.inRange (by omega) (by omega))]
    omega
  have hrest : s.subWrap sl.len k = (sl.elems.length - k : ℕ) := by
    rw [SeqIndex.subWrap_eq (h.inRange (by omega) (by omega))]
    omega
  have hleft := h.part (k := 0) (m := k) (by omega) (i := sl.start) (by omega) hsub
  have hright := h.part (k := k) (m := sl.elems.length - k) (by omega) hi
    (n := s.subWrap sl.len (s.subWrap i sl.start)) (by rw [hsub, hrest])
  rw [drop_zero] at hleft
  rw [take_of_length_le (by rw [length_drop])] at hright
  exact ⟨hleft, hright⟩

end Parts

/-! ### Trimming -/

section Trim

variable {s : SeqIndex} {sl : Slice α} (h : sl.Valid s)
include h

/-- Trimming by more elements than there are leaves none. -/
theorem Valid.trim_returns {k : ℤ} (hk : ¬k < 0) {Q : Slice α → Prop} {empty : Slice α}
    {rest : ℤ → Slice α} (hempty : sl.len < k → Q empty) (hrest : k ≤ sl.len →
      s.subWrap sl.len k = (sl.elems.length - k.toNat : ℕ) → Q (rest k)) :
    ∃ r, (match s.fromInt k with
      | some k => if k > sl.len then .ok empty else .ok (rest k)
      | none => .ok empty : Except Exn (Slice α)) = .ok r ∧ Q r := by
  have hlength := h.length_elems
  have hlen := h.len_nonneg
  have hstart := h.start_nonneg
  cases hfrom : s.fromInt k with
  | none =>
    refine ⟨_, rfl, hempty ?_⟩
    by_contra hle
    rw [SeqIndex.fromInt, if_pos (h.inRange (by omega) (by omega))] at hfrom
    cases hfrom
  | some k' =>
    obtain ⟨-, rfl⟩ := SeqIndex.fromInt_eq_some.1 hfrom
    dsimp only
    split_ifs with hgt
    · exact ⟨_, rfl, hempty hgt⟩
    · refine ⟨_, rfl, hrest (not_lt.1 hgt) ?_⟩
      rw [SeqIndex.subWrap_eq (h.inRange (by omega) (by omega))]
      omega

theorem triml_eq (k : ℤ) : if k < 0 then triml s k sl = .error .subscript
    else ∃ r, triml s k sl = .ok r ∧ Of s sl (sl.elems.drop k.toNat) r := by
  have hlength := h.length_elems
  have hlen := h.len_nonneg
  split_ifs with hneg
  · rw [triml, if_pos hneg]
  rw [triml, if_neg hneg]
  refine h.trim_returns hneg (fun hk => ?_) fun hk hsub => ?_
  · have hstop : s.addWrap sl.start sl.len = sl.start + sl.elems.length := by
      rw [h.addWrap_start hlen le_rfl, hlength]
    have hpart := h.part (k := sl.elems.length) (m := 0) (by omega) hstop (n := 0) rfl
    rw [take_zero] at hpart
    rwa [drop_eq_nil_of_le (by omega)]
  · have hadd : s.addWrap sl.start k = sl.start + k.toNat := by
      rw [h.addWrap_start (by omega) (by omega)]
      omega
    have hpart := h.part (by omega) hadd hsub
    rwa [take_of_length_le (by rw [length_drop])] at hpart

theorem trimr_eq (k : ℤ) : if k < 0 then trimr s k sl = .error .subscript
    else ∃ r, trimr s k sl = .ok r ∧ Of s sl (sl.elems.rdrop k.toNat) r := by
  have hlength := h.length_elems
  have hlen := h.len_nonneg
  split_ifs with hneg
  · rw [trimr, if_pos hneg]
  rw [trimr, if_neg hneg]
  refine h.trim_returns hneg (fun hk => ?_) fun hk hsub => ?_
  · have hpart := h.part (k := 0) (m := 0) (by omega) (i := sl.start) (by omega) (n := 0) rfl
    rw [take_zero] at hpart
    rwa [rdrop, show sl.elems.length - k.toNat = 0 by omega, take_zero]
  · have hpart := h.part (k := 0) (by omega) (i := sl.start) (by omega) hsub
    rwa [drop_zero] at hpart

theorem splitAt_eq (i : ℤ) : if 0 ≤ i ∧ i ≤ sl.len then
      ∃ l r, splitAt s sl i = .ok (l, r) ∧ Of s sl (sl.elems.take i.toNat) l ∧
        Of s sl (sl.elems.drop i.toNat) r
    else splitAt s sl i = .error .subscript := by
  have hlength := h.length_elems
  have hlen := h.len_nonneg
  have hstart := h.start_nonneg
  have hmax : sl.len ≤ s.maxInt' := h.validLength.2.le.trans s.maxLen'_le_maxInt'
  unfold splitAt
  cases hfrom : s.fromInt i with
  | none =>
    refine (if_neg fun hin => ?_).mpr rfl
    rw [SeqIndex.fromInt, if_pos (h.inRange (by omega) (by omega))] at hfrom
    cases hfrom
  | some i' =>
    obtain ⟨hrange, rfl⟩ := SeqIndex.fromInt_eq_some.1 hfrom
    have hgtu := SeqIndex.gtu_iff hrange hlen hmax
    dsimp only
    unfold splitAt'
    split_ifs with hin hout hout
    · exact absurd hin (hgtu.1 hout)
    · have hsub : s.subWrap sl.len i = (sl.elems.length - i.toNat : ℕ) := by
        rw [SeqIndex.subWrap_eq (h.inRange (by omega) (by omega))]
        omega
      have hadd : s.addWrap sl.start i = sl.start + i.toNat := by
        rw [h.addWrap_start (by omega) (by omega)]
        omega
      have hleft := h.part (k := 0) (m := i.toNat) (by omega) (i := sl.start) (by omega) (n := i)
        (by omega)
      have hright := h.part (by omega) hadd hsub
      rw [drop_zero] at hleft
      rw [take_of_length_le (by rw [length_drop])] at hright
      exact ⟨_, _, rfl, hleft, hright⟩
    · rfl
    · exact absurd (hgtu.2 hin) hout

end Trim

/-! ### Splitting where a predicate fails -/

section Split

variable {s : SeqIndex} {sl : Slice α} (h : sl.Valid s)
include h

/-- The element at place `k`. -/
theorem Valid.read (hk : (k : ℤ) < sl.len) : ∃ x,
    subUnsafe sl.seq (sl.start + k) = .ok x ∧ sl.elems.drop k = x :: sl.elems.drop (k + 1) := by
  have hlength := h.length_elems
  have hlt : k < sl.elems.length := by omega
  exact ⟨sl.elems[k], h.subUnsafe_eq (Int.natCast_nonneg k) (getElem?_eq_getElem hlt),
    drop_eq_getElem_cons hlt⟩

/-- The place after `k`. -/
theorem Valid.addWrap_one (hk : (k : ℤ) < sl.len) :
    s.addWrap (sl.start + k) 1 = sl.start + (k + 1 : ℕ) := by
  have hstart := h.start_nonneg
  rw [SeqIndex.addWrap_eq (h.inRange (by omega) (by omega))]
  push_cast
  ring

theorem splitlLoop_eq (f : α → Bool) (hk : (k : ℤ) ≤ sl.len) :
    Yields (fun fuel => splitlLoop s f sl.seq (sl.start + sl.len) fuel (sl.start + k))
      (.ok (sl.start + (k + ((sl.elems.drop k).takeWhile f).length : ℕ))) := by
  have hlength := h.length_elems
  obtain ⟨d, hd⟩ : ∃ d : ℕ, (k + d : ℤ) = sl.len := ⟨(sl.len - k).toNat, by omega⟩
  induction d generalizing k with
  | zero =>
    refine .of_succ fun fuel => ?_
    rw [splitlLoop, if_pos (by omega), drop_eq_nil_of_le (by omega)]
    rfl
  | succ d ih =>
    obtain ⟨x, hx, hdrop⟩ := h.read (k := k) (by omega)
    rw [hdrop, takeWhile_cons]
    cases hf : f x with
    | false =>
      refine .of_succ fun fuel => ?_
      rw [splitlLoop, if_neg (by omega), hx, reading, hf, if_neg Bool.false_ne_true,
        if_neg Bool.false_ne_true]
      rfl
    | true =>
      have hnext := ih (k := k + 1) (by omega) (by omega)
      rw [if_pos rfl, length_cons, show k + ((sl.elems.drop (k + 1)).takeWhile f).length.succ =
        k + 1 + ((sl.elems.drop (k + 1)).takeWhile f).length by omega]
      refine hnext.succ fun fuel => ?_
      rw [splitlLoop, if_neg (by omega), hx, reading, hf, if_pos rfl, h.addWrap_one (by omega)]

/-- A split where the elements of a list do: `xs` before it and `ys` from there on. -/
theorem Valid.split'_append {xs ys : List α} (heq : xs ++ ys = sl.elems) {i : ℤ}
    (hi : i = sl.start + xs.length) :
    Of s sl xs (Slice.split' s sl i).1 ∧ Of s sl ys (Slice.split' s sl i).2 := by
  have hlength := h.length_elems
  have hle := congrArg List.length heq
  rw [length_append] at hle
  have hparts := h.split' (k := xs.length) (by omega) hi
  rwa [← heq, take_left, List.drop_left] at hparts

theorem splitl_eq (f : α → Bool) : ∃ l r, Yields (splitl s f sl) (.ok (l, r)) ∧
    Of s sl (sl.elems.takeWhile f) l ∧ Of s sl (sl.elems.dropWhile f) r := by
  have hloop := splitlLoop_eq h f (k := 0) h.len_nonneg
  rw [drop_zero, cast_zero, add_zero, zero_add] at hloop
  obtain ⟨hleft, hright⟩ := h.split'_append takeWhile_append_dropWhile rfl
  refine ⟨_, _, (hloop.map (·.map (Slice.split' s sl))).congr fun fuel => ?_, hleft, hright⟩
  rw [splitl, h.addWrap_start h.len_nonneg le_rfl]

theorem splitrLoop_eq (f : α → Bool) (hk : (k : ℤ) ≤ sl.len) :
    Yields (fun fuel => splitrLoop s f sl.seq sl.start fuel (sl.start + k - 1))
      (.ok (sl.start + ((sl.elems.take k).rdropWhile f).length)) := by
  have hlength := h.length_elems
  have hstart := h.start_nonneg
  induction k with
  | zero =>
    refine .of_succ fun fuel => ?_
    rw [splitrLoop, if_pos (by omega), take_zero, rdropWhile_nil]
    simp
  | succ k ih =>
    obtain ⟨x, hx, hdrop⟩ := h.read (k := k) (by omega)
    have htake : sl.elems.take (k + 1) = sl.elems.take k ++ [x] := by
      have hget : sl.elems[k]? = some x := by rw [← head?_drop, hdrop, head?_cons]
      rw [List.take_add_one, hget]
      rfl
    rw [htake, rdropWhile_concat, show sl.start + (k + 1 : ℕ) - 1 = sl.start + k by
      push_cast; ring]
    cases hf : f x with
    | false =>
      refine .of_succ fun fuel => ?_
      rw [splitrLoop, if_neg (by omega), hx, reading, hf, if_neg Bool.false_ne_true,
        if_neg Bool.false_ne_true, h.addWrap_one (by omega), ← htake, length_take,
        min_eq_left (by omega)]
    | true =>
      rw [if_pos rfl]
      refine (ih (by omega)).succ fun fuel => ?_
      rw [splitrLoop, if_neg (by omega), hx, reading, hf, if_pos rfl,
        SeqIndex.subWrap_eq (h.inRange (by omega) (by omega))]

theorem splitr_eq (f : α → Bool) : ∃ l r, Yields (splitr s f sl) (.ok (l, r)) ∧
    Of s sl (sl.elems.rdropWhile f) l ∧ Of s sl (sl.elems.rtakeWhile f) r := by
  have hlength := h.length_elems
  have hstart := h.start_nonneg
  have hloop := splitrLoop_eq h f (k := sl.elems.length) (by omega)
  rw [take_length, hlength] at hloop
  obtain ⟨hleft, hright⟩ := h.split'_append rdropWhile_append_rtakeWhile rfl
  refine ⟨_, _, (hloop.map (·.map (Slice.split' s sl))).congr fun fuel => ?_, hleft, hright⟩
  rw [splitr, h.addWrap_start h.len_nonneg le_rfl,
    SeqIndex.subWrap_eq (h.inRange (by omega) (by omega))]

end Split

/-! ### Patterns -/

/-- The list begins with elements that match the pattern. -/
def prefixBy (eq : α → α → Bool) : List α → List α → Bool
  | [], _ => true
  | _ :: _, [] => false
  | y :: pat, x :: xs => eq y x && prefixBy eq pat xs

variable {eq : α → α → Bool} {pat xs : List α}

/-- A pattern that is longer than the list does not match. -/
theorem prefixBy_eq_false (hlt : xs.length < pat.length) : prefixBy eq pat xs = false := by
  induction pat generalizing xs with
  | nil => simp at hlt
  | cons y pat ih =>
    cases xs with
    | nil => rfl
    | cons x xs => rw [prefixBy, ih (by simpa using hlt), Bool.and_false]

/-- Nor does it match in one of the list's tails. -/
theorem any_tails_eq_false (hlt : xs.length < pat.length) :
    xs.tails.any (prefixBy eq pat) = false := by
  refine any_eq_false.2 fun ys hys => ?_
  have hle := ((mem_tails ys xs).1 hys).length_le
  rw [prefixBy_eq_false (by omega)]
  exact Bool.false_ne_true

theorem any_tails_drop (p : List α → Bool) (xs : List α) (k : ℕ) :
    (xs.drop k).tails.any p = (p (xs.drop k) || (xs.drop (k + 1)).tails.any p) := by
  rw [← drop_drop]
  cases xs.drop k with
  | nil => simp
  | cons x xs => simp [tails]

/-- The first of the tails for which `p` holds is the list, or one of the others. -/
theorem findIdx_tails_drop (p : List α → Bool) {xs : List α} (hk : k < xs.length) :
    (xs.drop k).tails.findIdx p =
      if p (xs.drop k) then 0 else (xs.drop (k + 1)).tails.findIdx p + 1 := by
  have hdrop := drop_eq_getElem_cons hk
  rw [hdrop, tails, findIdx_cons]
  cases p (xs[k] :: xs.drop (k + 1)) <;> rfl

theorem findIdx_tails_eq (hlt : xs.length < pat.length) :
    xs.tails.findIdx (prefixBy eq pat) = xs.length + 1 := by
  rw [← length_tails, findIdx_eq_length]
  intro ys hys
  have hle := ((mem_tails ys xs).1 hys).length_le
  exact prefixBy_eq_false (by omega)

/-- The elements of `ys` match the pattern. -/
def Matches (eq : α → α → Bool) (pat ys : List α) : Prop := List.Forall₂ (fun y x => eq y x) pat ys

theorem prefixBy_iff : prefixBy eq pat xs ↔ ∃ ys zs, xs = ys ++ zs ∧ Matches eq pat ys := by
  induction pat generalizing xs with
  | nil => exact iff_of_true rfl ⟨[], xs, rfl, .nil⟩
  | cons y pat ih =>
    cases xs with
    | nil =>
      refine iff_of_false Bool.false_ne_true ?_
      rintro ⟨ys, zs, heq, hmatch⟩
      obtain ⟨rfl, -⟩ := append_eq_nil_iff.1 heq.symm
      cases hmatch
    | cons x xs =>
      rw [prefixBy, Bool.and_eq_true, ih]
      constructor
      · rintro ⟨heq, ys, zs, rfl, hmatch⟩
        exact ⟨x :: ys, zs, rfl, .cons heq hmatch⟩
      · rintro ⟨ys, zs, happend, hmatch⟩
        cases hmatch with
        | cons heq hmatch =>
          obtain ⟨rfl, rfl⟩ := List.cons.inj happend
          exact ⟨heq, _, zs, rfl, hmatch⟩

/-- The pattern matches in one of the tails. -/
theorem any_tails_iff :
    xs.tails.any (prefixBy eq pat) ↔ ∃ ys zs ws, xs = ys ++ zs ++ ws ∧ Matches eq pat zs := by
  rw [any_eq_true]
  constructor
  · rintro ⟨t, ht, hmatch⟩
    obtain ⟨ys, rfl⟩ := (mem_tails _ _).1 ht
    obtain ⟨zs, ws, rfl, hzs⟩ := prefixBy_iff.1 hmatch
    exact ⟨ys, zs, ws, (append_assoc ys zs ws).symm, hzs⟩
  · rintro ⟨ys, zs, ws, rfl, hmatch⟩
    refine ⟨zs ++ ws, (mem_tails _ _).2 ?_, prefixBy_iff.2 ⟨zs, ws, rfl, hmatch⟩⟩
    exact ⟨ys, (append_assoc ys zs ws).symm⟩

section Match

variable {s : SeqIndex} {sl : Slice α} (h : sl.Valid s) {pat : List α}
  (hpat : ValidLength s pat.length) (eq : α → α → Bool)
include h hpat

omit h in
theorem read_pattern {j : ℕ} (hj : j < pat.length) :
    ∃ y, subUnsafe pat j = .ok y ∧ pat.drop j = y :: pat.drop (j + 1) := by
  obtain ⟨y, hy, hdrop⟩ := (valid_full hpat).read (k := j)
    (show (j : ℤ) < pat.length by omega)
  rw [elems_full] at hdrop
  rw [full, zero_add] at hy
  exact ⟨y, hy, hdrop⟩

/-- The comparison from place `k` of the slice on, where the pattern fits. -/
theorem matchLoop_eq {f : ℤ → Except Exn α}
    (hread : ∀ j : ℕ, j < pat.length → f j = subUnsafe sl.seq (sl.start + (k + j : ℕ)))
    (hk : (k + pat.length : ℤ) ≤ sl.len) {j : ℕ} (hj : j ≤ pat.length) :
    Yields (fun fuel => matchLoop s eq pat.length pat f fuel j)
      (.ok (prefixBy eq (pat.drop j) (sl.elems.drop (k + j)))) := by
  have hstart := h.start_nonneg
  have hlt := hpat.2
  have hmaxInt := s.maxLen'_le_maxInt'
  obtain ⟨d, hd⟩ := Nat.exists_eq_add_of_le hj
  induction d generalizing j with
  | zero =>
    refine .of_succ fun fuel => ?_
    rw [matchLoop, if_pos (by omega), drop_eq_nil_of_le (by omega), prefixBy]
  | succ d ih =>
    obtain ⟨y, hy, hpdrop⟩ := read_pattern hpat (j := j) (by omega)
    obtain ⟨x, hx, hdrop⟩ := h.read (k := k + j) (by push_cast; omega)
    rw [hpdrop, hdrop, prefixBy]
    cases heq : eq y x with
    | false =>
      refine .of_succ fun fuel => ?_
      rw [matchLoop, if_neg (by omega), hy, reading, hread j (by omega), hx, reading, heq,
        if_neg Bool.false_ne_true, Bool.false_and]
    | true =>
      rw [Bool.true_and]
      refine (ih (j := j + 1) (by omega) (by omega)).succ fun fuel => ?_
      rw [matchLoop, if_neg (by omega), hy, reading, hread j (by omega), hx, reading, heq,
        if_pos rfl, SeqIndex.addWrap_eq (SeqIndex.inRange_of_nonneg (by omega) (by omega))]
      rfl

theorem isPrefix_eq : Yields (isPrefix s eq pat sl) (.ok (prefixBy eq pat sl.elems)) := by
  have hlength := h.length_elems
  by_cases hle : (pat.length : ℤ) ≤ sl.len
  · have hloop := matchLoop_eq h hpat eq (f := fun j => unsafeSub' s sl j) (k := 0)
      (fun j hj => by
        rw [unsafeSub', h.addWrap_start (by omega) (by omega), zero_add])
      (by omega) (Nat.zero_le _)
    rw [drop_zero, drop_zero] at hloop
    exact hloop.congr fun fuel => by rw [isPrefix, if_pos hle]; rfl
  · refine .of_forall fun fuel => ?_
    rw [isPrefix, if_neg hle, prefixBy_eq_false (by omega)]

theorem isSuffix_eq : ∃ b, Yields (isSuffix s eq pat sl) (.ok b) ∧
    (b ↔ ∃ ys zs, sl.elems = ys ++ zs ∧ Matches eq pat zs) := by
  have hlength := h.length_elems
  by_cases hle : (pat.length : ℤ) ≤ sl.len
  · have hstart := h.start_nonneg
    have hsub : s.subWrap sl.len pat.length = (sl.elems.length - pat.length : ℕ) := by
      rw [SeqIndex.subWrap_eq (h.inRange (by omega) (by omega))]
      omega
    have hloop := matchLoop_eq h hpat eq
      (f := fun j => unsafeSub' s sl (s.addWrap (s.subWrap sl.len pat.length) j))
      (k := sl.elems.length - pat.length)
      (fun j hj => by
        rw [hsub, SeqIndex.addWrap_eq (h.inRange (by omega) (by omega)), unsafeSub',
          h.addWrap_start (by omega) (by omega)]
        push_cast
        rfl)
      (by omega) (Nat.zero_le _)
    rw [drop_zero, Nat.add_zero] at hloop
    refine ⟨_, hloop.congr fun fuel => by rw [isSuffix, if_pos hle]; rfl, ?_⟩
    rw [prefixBy_iff]
    constructor
    · rintro ⟨ys, zs, heq, hmatch⟩
      -- the rest is as long as the pattern
      have hzs : zs = [] := by
        have hlen := congrArg List.length heq
        rw [length_drop, length_append, ← hmatch.length_eq] at hlen
        exact eq_nil_of_length_eq_zero (by omega)
      rw [hzs, append_nil] at heq
      exact ⟨_, ys, by rw [← heq, take_append_drop], hmatch⟩
    · rintro ⟨ys, zs, heq, hmatch⟩
      refine ⟨zs, [], ?_, hmatch⟩
      rw [heq, length_append, hmatch.length_eq, Nat.add_sub_cancel, List.drop_left,
        append_nil]
  · refine ⟨false, .of_forall fun fuel => by rw [isSuffix, if_neg hle], ?_⟩
    refine iff_of_false Bool.false_ne_true ?_
    rintro ⟨ys, zs, heq, hmatch⟩
    have hlen := congrArg List.length heq
    rw [length_append, ← hmatch.length_eq] at hlen
    omega

/-- A place where the pattern may match: if it does not, the loop goes on with the next one. -/
theorem isSubsequenceLoop_here {i : ℕ} (hi : (i + pat.length : ℤ) ≤ sl.len) {b : Bool}
    (hnext : Yields (fun fuel => isSubsequenceLoop s eq pat sl pat.length (sl.len - pat.length) fuel
      ((i + 1 : ℕ) : ℤ) 0) (.ok b)) {j : ℕ} (hj : j ≤ pat.length) :
    Yields (fun fuel => isSubsequenceLoop s eq pat sl pat.length (sl.len - pat.length) fuel i j)
      (.ok (prefixBy eq (pat.drop j) (sl.elems.drop (i + j)) || b)) := by
  have hstart := h.start_nonneg
  obtain ⟨d, hd⟩ := Nat.exists_eq_add_of_le hj
  induction d generalizing j with
  | zero =>
    refine .of_succ fun fuel => ?_
    rw [isSubsequenceLoop, if_neg (by omega), if_pos (by omega), drop_eq_nil_of_le (by omega),
      prefixBy, Bool.true_or]
  | succ d ih =>
    obtain ⟨y, hy, hpdrop⟩ := read_pattern hpat (j := j) (by omega)
    obtain ⟨x, hx, hdrop⟩ := h.read (k := i + j) (by push_cast; omega)
    have hread : unsafeSub' s sl (s.addWrap i j) = .ok x := by
      rw [SeqIndex.addWrap_eq (h.inRange (by omega) (by omega)), unsafeSub',
        h.addWrap_start (by omega) (by omega)]
      exact_mod_cast hx
    rw [hpdrop, hdrop, prefixBy]
    cases heq : eq y x with
    | false =>
      rw [Bool.false_and, Bool.false_or]
      refine hnext.succ fun fuel => ?_
      rw [isSubsequenceLoop, if_neg (by omega), if_neg (by omega), hy, reading, hread, reading, heq,
        if_neg Bool.false_ne_true, SeqIndex.addWrap_eq (h.inRange (by omega) (by omega))]
      rfl
    | true =>
      rw [Bool.true_and]
      refine (ih (j := j + 1) (by omega) (by omega)).succ fun fuel => ?_
      rw [isSubsequenceLoop, if_neg (by omega), if_neg (by omega), hy, reading, hread, reading, heq,
        if_pos rfl, SeqIndex.addWrap_eq (h.inRange (by omega) (by omega))]
      rfl

theorem isSubsequenceLoop_eq {i : ℕ} (hi : (i + pat.length : ℤ) ≤ sl.len) :
    Yields (fun fuel => isSubsequenceLoop s eq pat sl pat.length (sl.len - pat.length) fuel i 0)
      (.ok ((sl.elems.drop i).tails.any (prefixBy eq pat))) := by
  have hlength := h.length_elems
  obtain ⟨d, hd⟩ : ∃ d : ℕ, (i + pat.length + d : ℤ) = sl.len :=
    ⟨(sl.len - pat.length - i).toNat, by omega⟩
  induction d generalizing i with
  | zero =>
    have hend : Yields (fun fuel => isSubsequenceLoop s eq pat sl pat.length (sl.len - pat.length)
        fuel ((i + 1 : ℕ) : ℤ) 0) (.ok false) :=
      .of_succ fun fuel => by rw [isSubsequenceLoop, if_pos (by omega)]
    have hhere := isSubsequenceLoop_here h hpat eq hi hend (Nat.zero_le _)
    rw [drop_zero, Nat.add_zero, Bool.or_false] at hhere
    rw [any_tails_drop]
    cases pat with
    | nil => exact hhere
    | cons y pat =>
      rw [any_tails_eq_false, Bool.or_false]
      · exact hhere
      · rw [length_drop, length_cons]
        rw [length_cons] at hd
        omega
  | succ d ih =>
    have hnext := ih (i := i + 1) (by omega) (by omega)
    have hhere := isSubsequenceLoop_here h hpat eq hi hnext (Nat.zero_le _)
    rwa [drop_zero, Nat.add_zero, ← any_tails_drop] at hhere

theorem isSubsequence_eq :
    Yields (isSubsequence s eq pat sl) (.ok (sl.elems.tails.any (prefixBy eq pat))) := by
  have hlength := h.length_elems
  have hstart := h.start_nonneg
  by_cases hle : (pat.length : ℤ) ≤ sl.len
  · have hloop := isSubsequenceLoop_eq h hpat eq (i := 0) (by omega)
    rw [drop_zero] at hloop
    refine hloop.congr fun fuel => ?_
    rw [isSubsequence, if_pos hle, SeqIndex.subWrap_eq (h.inRange (by omega) (by omega))]
    rfl
  · refine .of_forall fun fuel => ?_
    rw [isSubsequence, if_neg hle, any_tails_eq_false (by omega)]

omit hpat in
/-- Where the pattern no longer fits, the whole slice comes first. -/
theorem positionLoop_end (hk : sl.len < k + pat.length) :
    Yields (fun fuel => positionLoop s eq pat sl (sl.start + sl.len - pat.length + 1) fuel
        (sl.start + k))
      (.ok (sl.start + sl.elems.length)) := by
  refine .of_succ fun fuel => ?_
  rw [positionLoop, if_pos (by omega), h.addWrap_start h.len_nonneg le_rfl, h.length_elems]

/-- Where it fits, it matches there, or the loop goes on with the next place. -/
theorem positionLoop_here (hk : (k + pat.length : ℤ) ≤ sl.len) {r : Except Exn ℤ}
    (hnext : prefixBy (fun y x => eq x y) pat (sl.elems.drop k) = false →
      Yields (fun fuel => positionLoop s eq pat sl (sl.start + sl.len - pat.length + 1) fuel
        (sl.start + (k + 1 : ℕ))) r) :
    Yields (fun fuel => positionLoop s eq pat sl (sl.start + sl.len - pat.length + 1) fuel
        (sl.start + k))
      (if prefixBy (fun y x => eq x y) pat (sl.elems.drop k) then .ok (sl.start + k) else r) := by
  have hstart := h.start_nonneg
  have hmatch := matchLoop_eq h hpat (fun y x => eq x y)
    (f := fun j => subUnsafe sl.seq (s.addWrap (sl.start + k) j)) (k := k)
    (fun j hj => by
      rw [SeqIndex.addWrap_eq (h.inRange (by omega) (by omega)), cast_add, add_assoc])
    hk (Nat.zero_le _)
  rw [drop_zero, Nat.add_zero, cast_zero] at hmatch
  have hadd : s.addWrap (sl.start + k) 1 = sl.start + (k + 1 : ℕ) := by
    rw [SeqIndex.addWrap_eq (h.inRange (by omega) (by omega))]
    push_cast
    ring
  refine Yields.succ ?_ fun fuel => rfl
  cases hb : prefixBy (fun y x => eq x y) pat (sl.elems.drop k) with
  | true =>
    filter_upwards [hmatch] with fuel hfuel
    rw [positionLoop, if_neg (by omega), hfuel, hb]
    rfl
  | false =>
    filter_upwards [hmatch, hnext hb] with fuel hfuel hrest
    rw [positionLoop, if_neg (by omega), hfuel, hb, if_neg Bool.false_ne_true, hadd]
    exact hrest

/-- From place `k` on: the place of the first tail that matches, or the end. -/
theorem positionLoop_eq (hk : (k : ℤ) ≤ sl.len) :
    Yields (fun fuel => positionLoop s eq pat sl (sl.start + sl.len - pat.length + 1) fuel
        (sl.start + k))
      (.ok (sl.start + (min sl.elems.length
        (k + (sl.elems.drop k).tails.findIdx (prefixBy (fun y x => eq x y) pat)) : ℕ))) := by
  have hlength := h.length_elems
  have hstart := h.start_nonneg
  obtain ⟨d, hd⟩ : ∃ d : ℕ, (k + d : ℤ) = sl.len := ⟨(sl.len - k).toNat, by omega⟩
  by_cases hfits : (k + pat.length : ℤ) ≤ sl.len
  · induction d generalizing k with
    | zero =>
      obtain rfl : pat = [] := eq_nil_of_length_eq_zero (by omega)
      have hhere := positionLoop_here h hpat eq hfits (r := .ok 0) fun hfalse => by cases hfalse
      rw [prefixBy, if_pos rfl] at hhere
      rwa [min_eq_left (by omega), show (sl.elems.length : ℤ) = k by omega]
    | succ d ih =>
      rw [findIdx_tails_drop _ (by omega)]
      by_cases hfits' : ((k + 1 : ℕ) + pat.length : ℤ) ≤ sl.len
      · have hhere := positionLoop_here h hpat eq hfits fun _ =>
          ih (k := k + 1) (by omega) (by omega) hfits'
        convert hhere using 2
        split_ifs with hb
        · rw [min_eq_right (by omega), Nat.add_zero]
        · rw [add_assoc, add_comm 1]
      · have hhere := positionLoop_here h hpat eq hfits fun _ =>
          positionLoop_end h eq (k := k + 1) (by omega)
        rw [findIdx_tails_eq (by rw [length_drop]; omega), length_drop]
        convert hhere using 2
        split_ifs with hb
        · rw [min_eq_right (by omega), Nat.add_zero]
        · rw [min_eq_left (by omega)]
  · rw [findIdx_tails_eq (by rw [length_drop]; omega), length_drop,
      min_eq_left (by omega)]
    exact positionLoop_end h eq (by omega)

theorem position_eq : ∃ l r, Yields (position s eq pat sl) (.ok (l, r)) ∧
    Of s sl (sl.elems.take (sl.elems.tails.findIdx (prefixBy (fun y x => eq x y) pat))) l ∧
    Of s sl (sl.elems.drop (sl.elems.tails.findIdx (prefixBy (fun y x => eq x y) pat))) r := by
  have hlength := h.length_elems
  have hstart := h.start_nonneg
  have hlen := h.len_nonneg
  have hpos := hpat.1
  have hlt := hpat.2
  have hmaxInt := s.maxLen'_le_maxInt'
  have hloop := positionLoop_eq h hpat eq (k := 0) hlen
  rw [drop_zero, cast_zero, add_zero, zero_add] at hloop
  have hsplit := h.split'_append (take_append_drop
    (sl.elems.tails.findIdx (prefixBy (fun y x => eq x y) pat)) sl.elems) rfl
  rw [length_take, min_comm] at hsplit
  refine ⟨_, _, (hloop.map (·.map (Slice.split' s sl))).congr fun fuel => ?_, hsplit.1, hsplit.2⟩
  have hsub : s.subWrap (sl.start + sl.len) pat.length = sl.start + sl.len - pat.length :=
    SeqIndex.subWrap_eq ⟨by omega, (h.inRange (i := sl.start + sl.len) (by omega)
      (by omega)).2.trans' (by omega)⟩
  rw [position, h.addWrap_start hlen le_rfl, hsub, SeqIndex.addWrap_eq ⟨by omega,
    (h.inRange (i := sl.start + sl.len + 1) (by omega) le_rfl).2.trans' (by omega)⟩]

end Match

/-! ### `span`, `tokens` and `fields` -/

section Fields

variable {s : SeqIndex} {sl : Slice α}

/-- `span` from the start of one slice to the end of another. -/
theorem span_eq {eq : List α → List α → Bool} (heq : ∀ xs ys, eq xs ys → xs = ys) {sl' : Slice α}
    (h : sl.Valid s) (h' : sl'.Valid s) :
    if eq sl.seq sl'.seq ∧ sl.start ≤ sl'.start + sl'.len then
      ∃ r, span s eq sl sl' = .ok r ∧ Of s sl ((sl.seq.drop sl.start.toNat).take
        (sl'.start + sl'.len - sl.start).toNat) r ∧
        r.start = sl.start ∧ r.start + r.len = sl'.start + sl'.len
    else span s eq sl sl' = .error .span := by
  have hstart := h.start_nonneg
  have hstart' := h'.start_nonneg
  have hlen' := h'.len_nonneg
  have hstop' := h'.stop_le
  have hadd := h'.addWrap_start hlen' le_rfl
  unfold span
  split_ifs with hspan hraise hraise
  · simp [hspan.1, hadd] at hraise
    omega
  · have hseq := heq _ _ hspan.1
    rw [← hseq] at hstop'
    have hfull := valid_full h.length
    have hsub : s.subWrap (s.addWrap sl'.start sl'.len) sl.start =
        (sl'.start + sl'.len - sl.start).toNat := by
      rw [hadd, SeqIndex.subWrap_eq (h'.inRange (by omega) (by omega))]
      omega
    have hpart := hfull.part (k := sl.start.toNat) (m := (sl'.start + sl'.len - sl.start).toNat)
      (i := sl.start) (show _ ≤ (sl.seq.length : ℤ) by omega) (show _ = (0 : ℤ) + _ by omega) hsub
    rw [elems_full] at hpart
    have hwrap : s.addWrap 0 sl.start = sl.start := by
      rw [SeqIndex.addWrap_eq (h.inRange (by omega) (by have := h.len_nonneg; omega)), zero_add]
    refine ⟨_, rfl, ⟨hpart.seq_eq, hpart.valid, hpart.elems_eq⟩, hwrap, ?_⟩
    change s.addWrap 0 sl.start + s.subWrap (s.addWrap sl'.start sl'.len) sl.start = _
    rw [hwrap, hsub]
    omega
  · rfl
  · simp [hadd] at hraise
    exact absurd ⟨hraise.1, hraise.2⟩ hspan

/-- The elements from place `m` up to place `k`. -/
def between (xs : List α) (m k : ℕ) : List α := (xs.drop m).take (k - m)

theorem between_self (xs : List α) (k : ℕ) : between xs k k = [] := by
  rw [between, Nat.sub_self, take_zero]

theorem between_succ {xs : List α} {m k : ℕ} {x : α} (hle : m ≤ k) (hx : xs[k]? = some x) :
    between xs m (k + 1) = between xs m k ++ [x] := by
  rw [between, between, Nat.sub_add_comm hle, List.take_add_one, List.getElem?_drop,
    Nat.add_sub_cancel' hle, hx]
  rfl

variable (h : sl.Valid s) {f : List α → ℤ → ℤ → List (Slice α) → List (Slice α)}
  {p : α → Bool} {q : List α → Bool}
include h

section

variable
  (hfinish : ∀ {m k : ℕ} {parts sls}, m ≤ k → (k : ℤ) ≤ sl.len →
    List.Forall₂ (Of s sl) parts sls.reverse →
    List.Forall₂ (Of s sl) (parts ++ [between sl.elems m k].filter q)
      (f sl.seq (sl.start + m) (sl.start + k) sls).reverse)

include hfinish

/-- The parts of the list at the elements with `p`, as slices: the ones that `f` keeps. -/
theorem makeLoop_eq
    {m k : ℕ} {parts : List (List α)} {sls : List (Slice α)} (hm : m ≤ k) (hk : (k : ℤ) ≤ sl.len)
    (hsls : List.Forall₂ (Of s sl) parts sls.reverse) :
    ∃ rs, Yields (fun fuel => makeLoop s f p sl.seq (sl.start + sl.len) fuel (sl.start + k)
        (sl.start + m) sls) (.ok rs) ∧
      List.Forall₂ (Of s sl) (parts ++ ((sl.elems.drop k).splitOnPPrepend p
        (between sl.elems m k).reverse).filter q) rs := by
  have hlength := h.length_elems
  obtain ⟨d, hd⟩ : ∃ d : ℕ, (k + d : ℤ) = sl.len := ⟨(sl.len - k).toNat, by omega⟩
  induction d generalizing m k parts sls with
  | zero =>
    refine ⟨_, .of_succ fun fuel => by rw [makeLoop, if_pos (by omega)], ?_⟩
    rw [drop_eq_nil_of_le (by omega), splitOnPPrepend_nil, reverse_reverse]
    exact hfinish hm hk hsls
  | succ d ih =>
    obtain ⟨x, hx, hdrop⟩ := h.read (k := k) (by omega)
    have hget : sl.elems[k]? = some x := by rw [← head?_drop, hdrop, head?_cons]
    rw [hdrop, splitOnPPrepend_cons_eq_if]
    cases hp : p x with
    | true =>
      obtain ⟨rs, hrs, hall⟩ := ih (m := k + 1) (k := k + 1) le_rfl (by omega)
        (hfinish hm hk hsls) (by omega)
      refine ⟨rs, hrs.succ fun fuel => ?_, ?_⟩
      · rw [makeLoop, if_neg (by omega), hx, reading, hp, if_pos rfl, h.addWrap_one (by omega)]
      · rw [between_self, reverse_nil, splitOnPPrepend_nil_right, append_assoc,
          ← filter_append] at hall
        rwa [if_pos rfl, reverse_reverse]
    | false =>
      obtain ⟨rs, hrs, hall⟩ := ih (m := m) (k := k + 1) (by omega) (by omega) hsls (by omega)
      refine ⟨rs, hrs.succ fun fuel => ?_, ?_⟩
      · rw [makeLoop, if_neg (by omega), hx, reading, hp, if_neg Bool.false_ne_true,
          h.addWrap_one (by omega)]
      · rw [between_succ hm hget, reverse_append, reverse_singleton,
          List.singleton_append] at hall
        rwa [if_neg Bool.false_ne_true]

theorem make_eq : ∃ rs, Yields (make s f p sl) (.ok rs) ∧
      List.Forall₂ (Of s sl) ((sl.elems.splitOnP p).filter q) rs := by
  obtain ⟨rs, hrs, hall⟩ := @makeLoop_eq _ s sl h f p q hfinish 0 0 [] [] le_rfl h.len_nonneg .nil
  rw [between_self, reverse_nil, splitOnPPrepend_nil_right, drop_zero,
    nil_append] at hall
  refine ⟨rs, hrs.congr fun fuel => ?_, hall⟩
  rw [make, h.addWrap_start h.len_nonneg le_rfl, cast_zero, add_zero]

end

/-- The slice between two places. -/
theorem Valid.between {m k : ℕ} (hm : m ≤ k) (hk : (k : ℤ) ≤ sl.len) :
    Of s sl (Slice.between sl.elems m k)
      (unsafeSlice' s sl.seq (sl.start + m) (some (s.subWrap (sl.start + k) (sl.start + m)))) := by
  have hstart := h.start_nonneg
  have hsub : s.subWrap (sl.start + k) (sl.start + m) = (k - m : ℕ) := by
    rw [SeqIndex.subWrap_eq (h.inRange (by omega) (by omega))]
    omega
  exact h.part (by omega) rfl hsub

theorem fields_eq (p : α → Bool) : ∃ rs, Yields (fields s p sl) (.ok rs) ∧
    List.Forall₂ (Of s sl) (sl.elems.splitOnP p) rs := by
  obtain ⟨rs, hrs, hall⟩ := make_eq (f := finishField s) (p := p) (q := fun _ => true) h
    fun {m k parts sls} hm hk hsls => by
      rw [finishField, reverse_cons]
      exact rel_append hsls (.cons (h.between hm hk) .nil)
  rw [filter_true] at hall
  exact ⟨rs, hrs, hall⟩

theorem tokens_eq (p : α → Bool) : ∃ rs, Yields (tokens s p sl) (.ok rs) ∧
    List.Forall₂ (Of s sl) ((sl.elems.splitOnP p).filter (!·.isEmpty)) rs := by
  refine make_eq h fun {m k parts sls} hm hk hsls => ?_
  have hlength := h.length_elems
  unfold finishToken
  split_ifs with heq
  · obtain rfl : m = k := by omega
    rwa [between_self, filter_cons_of_neg (by simp), filter_nil, append_nil]
  · have hne : (between sl.elems m k).isEmpty = false := by
      rw [isEmpty_eq_false_iff, ← length_pos_iff, between, length_take,
        length_drop]
      omega
    rw [filter_cons_of_pos (by simp [hne]), filter_nil, reverse_cons]
    exact rel_append hsls (.cons (h.between hm hk) .nil)

end Fields

/-! ### All of them -/

/-- What the functions do with a slice, in terms of lists. -/
structure Refines (s : SeqIndex) (sl : Slice α) : Prop where
  triml : ∀ k : ℤ, if k < 0 then triml s k sl = .error .subscript
    else ∃ r, triml s k sl = .ok r ∧ Of s sl (sl.elems.drop k.toNat) r
  trimr : ∀ k : ℤ, if k < 0 then trimr s k sl = .error .subscript
    else ∃ r, trimr s k sl = .ok r ∧ Of s sl (sl.elems.rdrop k.toNat) r
  splitAt : ∀ i : ℤ, if 0 ≤ i ∧ i ≤ sl.len then
      ∃ l r, splitAt s sl i = .ok (l, r) ∧ Of s sl (sl.elems.take i.toNat) l ∧
        Of s sl (sl.elems.drop i.toNat) r
    else splitAt s sl i = .error .subscript
  splitl : ∀ f, ∃ l r, Yields (splitl s f sl) (.ok (l, r)) ∧
    Of s sl (sl.elems.takeWhile f) l ∧ Of s sl (sl.elems.dropWhile f) r
  splitr : ∀ f, ∃ l r, Yields (splitr s f sl) (.ok (l, r)) ∧
    Of s sl (sl.elems.rdropWhile f) l ∧ Of s sl (sl.elems.rtakeWhile f) r
  isPrefix : ∀ (eq : α → α → Bool) pat, ValidLength s pat.length →
    ∃ b, Yields (isPrefix s eq pat sl) (.ok b) ∧
      (b ↔ ∃ ys zs, sl.elems = ys ++ zs ∧ Matches eq pat ys)
  isSuffix : ∀ (eq : α → α → Bool) pat, ValidLength s pat.length →
    ∃ b, Yields (isSuffix s eq pat sl) (.ok b) ∧
      (b ↔ ∃ ys zs, sl.elems = ys ++ zs ∧ Matches eq pat zs)
  isSubsequence : ∀ (eq : α → α → Bool) pat, ValidLength s pat.length →
    ∃ b, Yields (isSubsequence s eq pat sl) (.ok b) ∧
      (b ↔ ∃ ys zs ws, sl.elems = ys ++ zs ++ ws ∧ Matches eq pat zs)
  /-- the split is where the first tail begins with elements that match -/
  position : ∀ (eq : α → α → Bool) pat, ValidLength s pat.length → ∃ l r,
    Yields (position s eq pat sl) (.ok (l, r)) ∧
    Of s sl (sl.elems.take (sl.elems.tails.findIdx (prefixBy (fun y x => eq x y) pat))) l ∧
    Of s sl (sl.elems.drop (sl.elems.tails.findIdx (prefixBy (fun y x => eq x y) pat))) r
  span : ∀ (eq : List α → List α → Bool), (∀ xs ys, eq xs ys → xs = ys) → ∀ sl', sl'.Valid s →
    if eq sl.seq sl'.seq ∧ sl.start ≤ sl'.start + sl'.len then
      ∃ r, span s eq sl sl' = .ok r ∧ Of s sl ((sl.seq.drop sl.start.toNat).take
        (sl'.start + sl'.len - sl.start).toNat) r ∧
        r.start = sl.start ∧ r.start + r.len = sl'.start + sl'.len
    else span s eq sl sl' = .error .span
  tokens : ∀ p, ∃ rs, Yields (tokens s p sl) (.ok rs) ∧
    List.Forall₂ (Of s sl) ((sl.elems.splitOnP p).filter (!·.isEmpty)) rs
  fields : ∀ p, ∃ rs, Yields (fields s p sl) (.ok rs) ∧
    List.Forall₂ (Of s sl) (sl.elems.splitOnP p) rs

/-- **Searching and splitting slices refine list functions**: no read is outside of the sequence,
and what is returned are valid slices of the same sequence with the elements that the lists have. -/
theorem slice_refines {s : SeqIndex} {sl : Slice α} (h : sl.Valid s) : sl.Refines s where
  triml := triml_eq h
  trimr := trimr_eq h
  splitAt := splitAt_eq h
  splitl := splitl_eq h
  splitr := splitr_eq h
  isPrefix eq _ hpat := ⟨_, isPrefix_eq h hpat eq, prefixBy_iff⟩
  isSuffix eq _ hpat := isSuffix_eq h hpat eq
  isSubsequence eq _ hpat := ⟨_, isSubsequence_eq h hpat eq, any_tails_iff⟩
  position eq _ hpat := position_eq h hpat eq
  span _ heq _ h' := span_eq heq h h'
  tokens := tokens_eq h
  fields := fields_eq h

theorem slice_refines_empty : (⟨[1, 2], 2, 0⟩ : Slice ℕ).Refines .int32 ∧
    (⟨[3, 1, 2, 1], 1, 2⟩ : Slice ℕ).Refines .int64 :=
  ⟨slice_refines ⟨by decide, by decide, by decide, by decide⟩,
    slice_refines ⟨by decide, by decide, by decide, by decide⟩⟩

end Slice

end MultiMLton.Basis.Sequence
