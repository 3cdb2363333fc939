import MultiMLton.Basis.SeqIndex

/-!
# Slices

The slices of `arrays-and-vectors/sequence.fun` and `unfoldi'`. A sequence is the list of its
elements; in `unfoldi'` these are written one after the other.

* `Slice.Valid`: the slice lies inside its sequence;
* `unfoldLoop_eq`: what `unfoldi'` writes, along a relation between its state and the elements to
  come.
-/

namespace MultiMLton.Basis.Sequence

open List

variable {α β : Type}

/-- `subUnsafe` -/
def subUnsafe (seq : List α) (i : ℤ) : Except Exn α :=
  if 0 ≤ i then
    match seq[i.toNat]? with
    | some x => .ok x
    | none => .error .outside
  else .error .outside

/-- `loop` of `unfoldi'`, with the turns that are left: an index below `n` does not wrap. -/
def unfoldLoop (s : SeqIndex) (f : ℤ → β → Except Exn (α × β)) :
    ℕ → ℤ → β → Except Exn (List α × β)
  | 0, _, b => .ok ([], b)
  | turns + 1, i, b => do
    let (x, b') ← f i b
    let (xs, b'') ← unfoldLoop s f turns (s.addWrap i 1) b'
    pure (x :: xs, b'')

def unfoldi' (s : SeqIndex) (isMutable : Bool) (n : ℤ) (b : β)
    (f : ℤ → β → Except Exn (α × β)) : Except Exn (List α × β) := do
  let n ← arrayUninit' s isMutable n
  unfoldLoop s f n.toNat 0 b

def tabulate' (s : SeqIndex) (isMutable : Bool) (n : ℤ) (f : ℤ → Except Exn α) :
    Except Exn (List α) := do
  let (xs, _) ← unfoldi' s isMutable n () fun i _ => do pure (← f i, ())
  pure xs

/-- `seq0` -/
def seq0 (s : SeqIndex) (isMutable : Bool) : Except Exn (List α) := do
  let n ← fromIntForLength s 0
  let (xs, _) ← unfoldi' s isMutable n () fun _ _ => .error (.fail "Sequence.seq0")
  pure xs

structure Slice (α : Type) where
  seq : List α
  start : ℤ
  len : ℤ
  deriving DecidableEq

namespace Slice

section Code

variable (s : SeqIndex) (isMutable : Bool)

def full (seq : List α) : Slice α := ⟨seq, 0, seq.length⟩

def unsafeSub' (sl : Slice α) (i : ℤ) : Except Exn α := subUnsafe sl.seq (s.addWrap sl.start i)

def unsafeSubslice' (sl : Slice α) (start' : ℤ) (len' : Option ℤ) : Slice α where
  seq := sl.seq
  start := s.addWrap sl.start start'
  len :=
    match len' with
    | none => s.subWrap sl.len start'
    | some len' => len'

def unsafeSlice' (seq : List α) (start : ℤ) (len : Option ℤ) : Slice α :=
  unsafeSubslice' s (full seq) start len

/-- `map (fn x => x)` -/
def copy (sl : Slice α) : Except Exn (List α) :=
  tabulate' s isMutable sl.len fun i => subUnsafe sl.seq (s.addWrap sl.start i)

def sequence (sl : Slice α) : Except Exn (List α) :=
  if isMutable || sl.start ≠ 0 || sl.len ≠ sl.seq.length then copy s isMutable sl
  else .ok sl.seq

end Code

/-! ### Valid slices and their elements -/

/-- The elements of a slice. -/
def elems (sl : Slice α) : List α := (sl.seq.drop sl.start.toNat).take sl.len.toNat

/-- The slice lies inside a sequence that can be. -/
structure Valid (s : SeqIndex) (sl : Slice α) : Prop where
  length : ValidLength s sl.seq.length
  start_nonneg : 0 ≤ sl.start
  len_nonneg : 0 ≤ sl.len
  stop_le : sl.start + sl.len ≤ sl.seq.length

variable {s : SeqIndex} {sl : Slice α} {seq : List α} {i : ℤ} {x : α}

theorem valid_full (h : ValidLength s seq.length) : (full seq).Valid s :=
  ⟨h, le_rfl, h.1, by simp [full]⟩

@[simp] theorem elems_full : (full seq).elems = seq := by
  simp [full, elems]

namespace Valid

variable (h : sl.Valid s)
include h

theorem length_elems : (sl.elems.length : ℤ) = sl.len := by
  obtain ⟨-, h0, h1, h2⟩ := h
  rw [elems, length_take, length_drop]
  omega

theorem validLength : ValidLength s sl.len :=
  ⟨h.len_nonneg, by have := h.stop_le; have := h.start_nonneg; have := h.length.2; omega⟩

theorem addWrap_start (h0 : 0 ≤ i) (hle : i ≤ sl.len) :
    s.addWrap sl.start i = sl.start + i := by
  have := h.stop_le
  have := h.start_nonneg
  have hlt := h.length.2
  have hmaxInt := s.maxLen'_le_maxInt'
  exact SeqIndex.addWrap_eq (SeqIndex.inRange_of_nonneg (by omega) (by omega))

theorem getElem?_elems (h0 : 0 ≤ i) (hlt : i < sl.len) :
    sl.elems[i.toNat]? = sl.seq[(sl.start + i).toNat]? := by
  have hstart := h.start_nonneg
  rw [elems, getElem?_take_of_lt (by omega), getElem?_drop,
    show sl.start.toNat + i.toNat = (sl.start + i).toNat by omega]

/-- A read inside the slice. -/
theorem subUnsafe_eq (h0 : 0 ≤ i) (hx : sl.elems[i.toNat]? = some x) :
    subUnsafe sl.seq (sl.start + i) = .ok x := by
  have hstart := h.start_nonneg
  have hlt : i < sl.len := by
    have hlen := (List.getElem?_eq_some_iff.1 hx).1
    have := h.length_elems
    omega
  rw [subUnsafe, if_pos (by omega), ← h.getElem?_elems h0 hlt, hx]

theorem unsafeSub'_eq (h0 : 0 ≤ i) (hx : sl.elems[i.toNat]? = some x) :
    unsafeSub' s sl i = .ok x := by
  have hlen := (List.getElem?_eq_some_iff.1 hx).1
  have hlength := h.length_elems
  rw [unsafeSub', h.addWrap_start h0 (by omega)]
  exact h.subUnsafe_eq h0 hx

end Valid

end Slice

/-! ### What `unfoldi'` writes -/

section Unfold

variable {s : SeqIndex} {m : Bool} {f : ℤ → β → Except Exn (α × β)} {n : ℤ}

section

variable (R : ℤ → β → List α → Prop)
  (hstep : ∀ {i b x xs}, R i b (x :: xs) → ∃ b', f i b = .ok (x, b') ∧ R (s.addWrap i 1) b' xs)

include R hstep

/-- With `R` between a state and the elements to come, the first ones are written. -/
theorem unfoldLoop_eq
    {turns : ℕ} {i : ℤ} {b : β} {xs : List α} (h : R i b xs) (hle : turns ≤ xs.length) :
    ∃ b', unfoldLoop s f turns i b = .ok (xs.take turns, b') := by
  induction turns generalizing i b xs with
  | zero => exact ⟨b, by simp [unfoldLoop]⟩
  | succ turns ih =>
    match xs with
    | [] => simp at hle
    | x :: xs =>
      obtain ⟨b', hf, hR⟩ := hstep h
      obtain ⟨b'', hrest⟩ := ih hR (by simpa using hle)
      refine ⟨b'', ?_⟩
      rw [unfoldLoop, hf]
      change (unfoldLoop s f turns (s.addWrap i 1) b' >>= _) = _
      rw [hrest]
      rfl

theorem unfoldi'_eq {b : β} {xs : List α} (h : R 0 b xs) (hn : s.InRange n) (hle : n ≤ xs.length) :
    (unfoldi' s m n b f).map Prod.fst =
      if ValidLength s n then .ok (xs.take n.toNat) else .error .size := by
  rw [unfoldi', arrayUninit'_eq m hn]
  split_ifs with hvalid
  · obtain ⟨b', heq⟩ := unfoldLoop_eq R hstep h (show n.toNat ≤ _ by omega)
    change (unfoldLoop s f n.toNat 0 b).map Prod.fst = _
    rw [heq]
    rfl
  · rfl

end

end Unfold

namespace Slice

variable {s : SeqIndex} {isMutable : Bool} {sl : Slice α}

theorem Valid.copy_eq (h : sl.Valid s) : copy s isMutable sl = .ok sl.elems := by
  have hspec := unfoldi'_eq (s := s) (m := isMutable) (b := ())
    (f := fun i _ => do pure (← subUnsafe sl.seq (s.addWrap sl.start i), ()))
    (fun i _ xs => 0 ≤ i ∧ i ≤ sl.len ∧ xs = sl.elems.drop i.toNat) ?_
    ⟨le_rfl, h.len_nonneg, rfl⟩ h.validLength.inRange (by rw [Int.toNat_zero, drop_zero,
      h.length_elems])
  · rw [if_pos h.validLength] at hspec
    unfold copy tabulate'
    cases hrun : unfoldi' s isMutable sl.len ()
      (fun i _ => do pure (← subUnsafe sl.seq (s.addWrap sl.start i), ())) with
    | error e => rw [hrun] at hspec; cases hspec
    | ok r =>
      rw [hrun] at hspec
      have hfst : r.1 = (sl.elems.drop (0 : ℤ).toNat).take sl.len.toNat := Except.ok.inj hspec
      change Except.ok r.1 = _
      rw [hfst, Int.toNat_zero, drop_zero,
        take_of_length_le (by have := h.length_elems; omega)]
  · rintro i b x xs ⟨h0, hle, hxs⟩
    have hx : sl.elems[i.toNat]? = some x := by
      rw [← List.head?_drop, ← hxs, List.head?_cons]
    have hlen := (List.getElem?_eq_some_iff.1 hx).1
    have hlength := h.length_elems
    refine ⟨(), ?_, ?_⟩
    · rw [h.addWrap_start h0 hle, h.subUnsafe_eq h0 hx]
      rfl
    · have hmax := h.validLength.2
      have hmaxInt := s.maxLen'_le_maxInt'
      rw [SeqIndex.addWrap_eq (SeqIndex.inRange_of_nonneg (by omega) (by omega))]
      refine ⟨by omega, by omega, ?_⟩
      rw [show (i + 1).toNat = i.toNat + 1 by omega, ← tail_drop, ← hxs, tail_cons]

theorem Valid.sequence_eq (h : sl.Valid s) : sequence s isMutable sl = .ok sl.elems := by
  unfold sequence
  split_ifs with hcopy
  · exact h.copy_eq
  · simp only [ne_eq, decide_not, Bool.or_eq_true, Bool.not_eq_true', decide_eq_false_iff_not,
      not_or, Bool.not_eq_true, not_not] at hcopy
    rw [elems, hcopy.1.2, hcopy.2]
    simp

end Slice

end MultiMLton.Basis.Sequence
