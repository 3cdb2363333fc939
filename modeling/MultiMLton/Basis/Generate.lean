import MultiMLton.Basis.SeqIndex

/-!
# Building a sequence element by element

`generate` of `arrays-and-vectors/sequence.fun`: the functions `sub`, `update` and `done` over one
array. `done` hands out the array itself.

* `Safe`: what a call should do, after the calls before it;
* `Fits`: the calls that stay clear of the two gaps in the checks. `sub` converts its index to a
  `SeqIndex.int` without a check, and after `done` an update of the first element is taken;
* `generate_safe`: in a run of the other calls, every call is safe.
-/

namespace MultiMLton.Basis.Sequence

open List

variable {α : Type}

/-- The array and the references of `generate'`. An element not yet set is `none`. -/
structure Generator (α : Type) where
  n : ℤ
  a : List (Option α)
  subLim : ℤ
  updateLim : ℤ
  gotIt : Bool
  deriving DecidableEq

inductive Call (α : Type)
  | sub (i : ℤ)
  | update (i : ℤ) (x : α)
  | done

/-- What a call returns or raises. -/
inductive Reply (α : Type)
  | elt (x : Option α)
  | unit
  | sequence (v : List (Option α))
  | raise (e : Exn)
  | overflow
  deriving DecidableEq

section Code

variable (s : SeqIndex)

def generate' (isMutable : Bool) (n : ℤ) : Except Exn (Generator α) := do
  let len ← arrayUninit' s isMutable n
  pure ⟨n, List.replicate len.toNat none, 0, 0, false⟩

def generate (isMutable : Bool) (n : ℤ) : Except Exn (Generator α) := do
  generate' s isMutable (← fromIntForLength s n)

def sub' (i : ℤ) (g : Generator α) : Reply α × Generator α :=
  if s.geu i g.subLim then (.raise .subscript, g) else (.elt (g.a.getD i.toNat none), g)

def update' (i : ℤ) (x : α) (g : Generator α) : Reply α × Generator α :=
  let updated := { g with a := g.a.set i.toNat (some x) }
  if s.geu i g.updateLim then
    if i = g.updateLim ∧ i < g.n then
      match s.add i 1 with
      | some lim => (.unit, { updated with subLim := lim, updateLim := lim })
      | none => (.overflow, updated)
    else (.raise .subscript, g)
  else (.unit, updated)

def done (g : Generator α) : Reply α × Generator α :=
  if g.gotIt then (.raise (.fail "already got vector"), g)
  else if g.n = g.updateLim then (.sequence g.a, { g with gotIt := true, updateLim := 0 })
  else (.raise (.fail "vector not full"), g)

/-- A call of a function that `generate` returns: `unwrap1 sub`, `unwrap2 update` or `done`. -/
def call (g : Generator α) : Call α → Reply α × Generator α
  | .sub i => sub' s (s.fromIntUnsafe i) g
  | .update i x => update' s (s.fromIntUnsafe i) x g
  | .done => done g

/-- The state after some calls. -/
def after (g : Generator α) (cs : List (Call α)) : Generator α :=
  cs.foldl (fun g c => (call s g c).2) g

@[simp] theorem after_nil (g : Generator α) : after s g [] = g := rfl

@[simp] theorem after_concat (g : Generator α) (cs : List (Call α)) (c : Call α) :
    after s g (cs ++ [c]) = (call s (after s g cs) c).2 := by
  simp [after]

/-! ### What the builder promises -/

/-- Among the calls `cs`, a call of `done` has returned `v`. -/
def HandedOut (g : Generator α) (cs : List (Call α)) (v : List (Option α)) : Prop :=
  ∃ pre, pre ++ [.done] <+: cs ∧ (call s (after s g pre) .done).1 = .sequence v

/-- What `c` does after the calls `cs`. -/
structure Safe (g : Generator α) (cs : List (Call α)) (c : Call α) : Prop where
  /-- `sub` succeeds only for an element that is set, and returns it -/
  sub_set : ∀ {i x}, c = .sub i → (call s (after s g cs) c).1 = .elt x →
    0 ≤ i ∧ ∃ y, x = some y ∧ (after s g cs).a[i.toNat]? = some (some y)
  /-- `done` succeeds only when all `n` elements are set -/
  done_full : ∀ {v}, (call s (after s g cs) c).1 = .sequence v →
    (v.length : ℤ) = g.n ∧ ∀ x ∈ v, x.isSome
  /-- and at most once -/
  done_once : ∀ {v}, (call s (after s g cs) c).1 = .sequence v → ∀ v', ¬HandedOut s g cs v'
  /-- a sequence that `done` has returned does not change -/
  kept : ∀ {v}, HandedOut s g cs v → (after s g (cs ++ [c])).a = v

/-- The calls that do not reach a gap in the checks. -/
def Fits (g : Generator α) : Call α → Prop
  | .sub i => s.InRange i
  | .update i _ => ¬(g.gotIt ∧ s.fromIntUnsafe i = 0 ∧ 0 < g.n)
  | .done => True

/-- Every call of the run fits. -/
def Fitting (g : Generator α) (cs : List (Call α)) : Prop :=
  ∀ pre c, pre ++ [c] <+: cs → Fits s (after s g pre) c

end Code

/-! ### The invariant -/

section Invariant

variable {s : SeqIndex} {g : Generator α} {cs : List (Call α)} {c : Call α} {i : ℤ} {x : α}

/-- The limits of a builder, between its calls. -/
structure Limits (s : SeqIndex) (g : Generator α) : Prop where
  valid : ValidLength s g.n
  length : (g.a.length : ℤ) = g.n
  sub_nonneg : 0 ≤ g.subLim
  sub_le : g.subLim ≤ g.n
  /-- the elements below `subLim` are set -/
  set : ∀ i, 0 ≤ i → i < g.subLim → ∃ y, g.a[i.toNat]? = some (some y)
  /-- until `done` returns, the limits are equal -/
  update_eq : g.gotIt = false → g.updateLim = g.subLim
  /-- then there is no more to update -/
  update_zero : g.gotIt = true → g.updateLim = 0

theorem generate_limits {isMutable : Bool} {n : ℤ} (h : generate s isMutable n = .ok g) :
    Limits s g ∧ g.n = n := by
  unfold generate fromIntForLength at h
  cases hn : s.fromInt n with
  | none => rw [hn] at h; cases h
  | some m =>
    obtain ⟨hrange, rfl⟩ := SeqIndex.fromInt_eq_some.1 hn
    rw [hn] at h
    change generate' s isMutable n = .ok g at h
    rw [generate', arrayUninit'_eq isMutable hrange] at h
    split_ifs at h with hvalid
    · cases h
      refine ⟨⟨hvalid, ?_, le_rfl, hvalid.1, ?_, fun _ => rfl, fun h => by cases h⟩, rfl⟩
      · rw [length_replicate, Int.toNat_of_nonneg hvalid.1]
      · intro i h0 hlt
        exact absurd hlt (not_lt.2 h0)
    · cases h

theorem Limits.updateLim_nonneg (h : Limits s g) : 0 ≤ g.updateLim := by
  cases hg : g.gotIt with
  | false => exact h.update_eq hg ▸ h.sub_nonneg
  | true => exact (h.update_zero hg).ge

theorem Limits.updateLim_le (h : Limits s g) : g.updateLim ≤ g.n := by
  cases hg : g.gotIt with
  | false => exact h.update_eq hg ▸ h.sub_le
  | true => exact h.update_zero hg ▸ h.valid.1

/-- An index is refused by `geu` where it is not below the limit. -/
theorem Limits.geu_iff (h : Limits s g) {lim : ℤ} (hi : s.InRange i) (h0 : 0 ≤ lim)
    (hle : lim ≤ g.n) : s.geu i lim ↔ ¬(0 ≤ i ∧ i < lim) :=
  SeqIndex.geu_iff hi h0 (hle.trans (h.valid.2.le.trans s.maxLen'_le_maxInt'))

/-- An element stays set when one is set. -/
theorem set_isSet {a : List (Option α)} {j k : ℕ} (h : ∃ y, a[j]? = some (some y)) :
    ∃ y, (a.set k (some x))[j]? = some (some y) := by
  obtain ⟨y, hy⟩ := h
  rcases eq_or_ne k j with rfl | hne
  · refine ⟨x, ?_⟩
    rw [List.getElem?_set_self (List.getElem?_eq_some_iff.1 hy).1]
  · exact ⟨y, by rw [List.getElem?_set_ne hne, hy]⟩

/-- What an update does: it is refused, sets an element once more, or sets the next one. -/
theorem update'_cases (h : Limits s g) (hi : s.InRange i) :
    (update' s i x g = (.raise .subscript, g)) ∨
    (0 ≤ i ∧ i < g.updateLim ∧
      update' s i x g = (.unit, { g with a := g.a.set i.toNat (some x) })) ∨
    (i = g.updateLim ∧ i < g.n ∧ update' s i x g = (.unit,
      { g with a := g.a.set i.toNat (some x), subLim := i + 1, updateLim := i + 1 })) := by
  have hgeu := h.geu_iff hi h.updateLim_nonneg h.updateLim_le
  by_cases hlt : 0 ≤ i ∧ i < g.updateLim
  · refine .inr (.inl ⟨hlt.1, hlt.2, ?_⟩)
    rw [update', if_neg fun hcontra => hgeu.1 hcontra hlt]
  · by_cases heq : i = g.updateLim ∧ i < g.n
    · have hadd : s.add i 1 = some (i + 1) := by
        refine SeqIndex.fromInt_eq_some.2 ⟨SeqIndex.inRange_of_nonneg ?_ ?_, rfl⟩
        · have := h.updateLim_nonneg
          omega
        · have := h.valid.2
          have hmaxInt := s.maxLen'_le_maxInt'
          omega
      refine .inr (.inr ⟨heq.1, heq.2, ?_⟩)
      rw [update', if_pos (hgeu.2 hlt), if_pos heq, hadd]
    · left
      rw [update', if_pos (hgeu.2 hlt), if_neg heq]

theorem call_n (g : Generator α) (c : Call α) : (call s g c).2.n = g.n := by
  cases c with
  | sub i => unfold call sub'; dsimp only; split_ifs <;> rfl
  | update i x =>
    unfold call update'
    dsimp only
    split_ifs
    · cases s.add (s.fromIntUnsafe i) 1 <;> rfl
    · rfl
    · rfl
  | done => unfold call done; split_ifs <;> rfl

theorem after_n (g : Generator α) (cs : List (Call α)) : (after s g cs).n = g.n := by
  induction cs using reverseRecOn with
  | nil => rfl
  | append_singleton cs c ih => rw [after_concat, call_n, ih]

theorem sub'_snd (i : ℤ) (g : Generator α) : (sub' s i g).2 = g := by
  unfold sub'
  split_ifs <;> rfl

/-- `done` returns the array once it is full, or fails. -/
theorem done_cases (g : Generator α) :
    (∃ e, done g = (.raise e, g)) ∨
    (g.gotIt = false ∧ g.n = g.updateLim ∧
      done g = (.sequence g.a, { g with gotIt := true, updateLim := 0 })) := by
  unfold done
  split_ifs with hgot hfull
  · exact .inl ⟨_, rfl⟩
  · exact .inr ⟨by simpa using hgot, hfull, rfl⟩
  · exact .inl ⟨_, rfl⟩

/-- A call that fits keeps the limits. -/
theorem Limits.call (h : Limits s g) (hfits : Fits s g c) : Limits s (call s g c).2 := by
  cases c with
  | sub i => exact (sub'_snd (s := s) (s.fromIntUnsafe i) g).symm ▸ h
  | update i x =>
    have hi : s.InRange (s.fromIntUnsafe i) := SeqIndex.inRange_wrap i
    change Limits s (update' s (s.fromIntUnsafe i) x g).2
    rcases update'_cases (x := x) h hi with heq | ⟨h0, hlt, heq⟩ | ⟨hlim, hlt, heq⟩ <;> rw [heq]
    · exact h
    · exact ⟨h.valid, by simpa using h.length, h.sub_nonneg, h.sub_le,
        fun j hj hjlt => set_isSet (h.set j hj hjlt), h.update_eq, h.update_zero⟩
    · have hgot : g.gotIt = false := by
        by_contra hgot
        have hgot : g.gotIt = true := by simpa using hgot
        have hzero := hlim.trans (h.update_zero hgot)
        exact hfits ⟨hgot, hzero, hzero ▸ hlt⟩
      have hsub := hlim.trans (h.update_eq hgot)
      have hnonneg := h.sub_nonneg
      have hlength := h.length
      refine ⟨h.valid, by simpa using h.length, ?_, ?_, fun j hj hjlt => ?_, fun _ => rfl,
        fun hgot' => absurd (hgot.symm.trans hgot') (by simp)⟩
      · change 0 ≤ s.fromIntUnsafe i + 1
        omega
      · change s.fromIntUnsafe i + 1 ≤ g.n
        omega
      · change j < s.fromIntUnsafe i + 1 at hjlt
        rcases eq_or_ne j (s.fromIntUnsafe i) with rfl | hne
        · exact ⟨x, List.getElem?_set_self (by omega)⟩
        · exact set_isSet (h.set j hj (by omega))
  | done =>
    change Limits s (Sequence.done g).2
    obtain ⟨e, heq⟩ | ⟨hgot, hfull, heq⟩ := done_cases g <;> rw [heq]
    · exact h
    · exact ⟨h.valid, h.length, h.sub_nonneg, h.sub_le, h.set,
        fun hgot' => Bool.noConfusion hgot', fun _ => rfl⟩

/-- The array of a builder that has handed it out does not change. -/
theorem call_kept (h : Limits s g) (hfits : Fits s g c) (hgot : g.gotIt = true) :
    (call s g c).2.a = g.a ∧ (call s g c).2.gotIt = true := by
  cases c with
  | sub i =>
    have heq := sub'_snd (s := s) (s.fromIntUnsafe i) g
    exact ⟨congrArg Generator.a heq, (congrArg Generator.gotIt heq).trans hgot⟩
  | update i x =>
    have hzero := h.update_zero hgot
    have hi : s.InRange (s.fromIntUnsafe i) := SeqIndex.inRange_wrap i
    change (update' s (s.fromIntUnsafe i) x g).2.a = g.a ∧
      (update' s (s.fromIntUnsafe i) x g).2.gotIt = true
    rcases update'_cases (x := x) h hi with heq | ⟨h0, hlt, heq⟩ | ⟨hlim, hlt, heq⟩
    · rw [heq]
      exact ⟨rfl, hgot⟩
    · omega
    · have hi := hlim.trans hzero
      exact absurd ⟨hgot, hi, hi ▸ hlt⟩ hfits
  | done =>
    obtain ⟨e, heq⟩ | ⟨hnot, -⟩ := done_cases g
    · change (Sequence.done g).2.a = _ ∧ (Sequence.done g).2.gotIt = _
      rw [heq]
      exact ⟨rfl, hgot⟩
    · exact absurd (hnot.symm.trans hgot) (by simp)

/-- Only `done` hands out a sequence: the array, when it is full. -/
theorem call_eq_sequence {v : List (Option α)} (hv : (call s g c).1 = .sequence v) :
    c = .done ∧ g.gotIt = false ∧ g.n = g.updateLim ∧ v = g.a := by
  cases c with
  | sub i => unfold call sub' at hv; dsimp only at hv; split_ifs at hv
  | update i x =>
    unfold call update' at hv
    dsimp only at hv
    split_ifs at hv
    cases hadd : s.add (s.fromIntUnsafe i) 1 <;> rw [hadd] at hv <;> cases hv
  | done =>
    obtain ⟨e, heq⟩ | ⟨hgot, hfull, heq⟩ := done_cases g <;> rw [call, heq] at hv <;> cases hv
    exact ⟨rfl, hgot, hfull, rfl⟩

theorem Fitting.init (h : Fitting s g (cs ++ [c])) :
    Fitting s g cs ∧ Fits s (after s g cs) c :=
  ⟨fun pre c' hpre => h pre c' (hpre.trans (prefix_append cs [c])), h cs c (prefix_refl _)⟩

/-- What has been handed out after one more call. -/
theorem handedOut_concat {v : List (Option α)} : HandedOut s g (cs ++ [c]) v ↔
    HandedOut s g cs v ∨ (c = .done ∧ (call s (after s g cs) .done).1 = .sequence v) := by
  constructor
  · rintro ⟨pre, hpre, hv⟩
    rcases prefix_concat_iff.1 hpre with heq | hpre
    · obtain ⟨rfl, hc⟩ := append_inj' heq rfl
      cases singleton_injective hc
      exact .inr ⟨rfl, hv⟩
    · exact .inl ⟨pre, hpre, hv⟩
  · rintro (⟨pre, hpre, hv⟩ | ⟨rfl, hv⟩)
    · exact ⟨pre, hpre.trans (prefix_append cs [c]), hv⟩
    · exact ⟨cs, prefix_refl _, hv⟩

/-- Through a run: the limits, and the array is the sequence that has been handed out. -/
theorem Fitting.invariant (hg : Limits s g) (h : Fitting s g cs) :
    Limits s (after s g cs) ∧
    ∀ v, HandedOut s g cs v → (after s g cs).gotIt = true ∧ (after s g cs).a = v := by
  induction cs using reverseRecOn with
  | nil =>
    refine ⟨hg, fun v hv => ?_⟩
    obtain ⟨pre, hpre, -⟩ := hv
    simp at hpre
  | append_singleton cs c ih =>
    obtain ⟨hinit, hfits⟩ := h.init
    obtain ⟨hlimits, hhanded⟩ := ih hinit
    rw [after_concat]
    refine ⟨hlimits.call hfits, fun v hv => ?_⟩
    rcases handedOut_concat.1 hv with hold | ⟨rfl, hnew⟩
    · obtain ⟨hgot, hav⟩ := hhanded v hold
      obtain ⟨ha, hgot'⟩ := call_kept hlimits hfits hgot
      exact ⟨hgot', ha.trans hav⟩
    · obtain ⟨-, hnot, hfull, rfl⟩ := call_eq_sequence hnew
      have heq : (call s (after s g cs) .done).2 =
          { after s g cs with gotIt := true, updateLim := 0 } := by
        simp [call, done, hnot, hfull]
      rw [heq]
      exact ⟨rfl, rfl⟩

end Invariant

/-- **Builders hand out sequences that no longer change**: whatever the calls are, none of them
outside `Fits`, and whether they fail or not, every call is safe. -/
theorem generate_safe (s : SeqIndex) (isMutable : Bool) (n : ℤ) {g : Generator α}
    (hg : generate s isMutable n = .ok g) {cs : List (Call α)} (hcs : Fitting s g cs) :
    ∀ pre c, pre ++ [c] <+: cs → Safe s g pre c := by
  intro pre c hpre
  obtain ⟨hlimits, -⟩ := generate_limits hg
  have hfit : Fitting s g (pre ++ [c]) := fun p c' hp => hcs p c' (hp.trans hpre)
  obtain ⟨hinit, hfits⟩ := hfit.init
  obtain ⟨hlim, hhanded⟩ := hinit.invariant hlimits
  refine ⟨fun hc hx => ?_, fun hv => ?_, fun hv v' hv' => ?_, fun {v} hv => ?_⟩
  · subst hc
    rename_i i x
    -- the conversion keeps the index
    change (sub' s (s.fromIntUnsafe i) (after s g pre)).1 = .elt x at hx
    rw [SeqIndex.fromIntUnsafe_eq hfits, sub'] at hx
    split_ifs at hx with hgeu
    have hin := not_not.1 (mt (hlim.geu_iff hfits hlim.sub_nonneg hlim.sub_le).2 hgeu)
    obtain ⟨y, hy⟩ := hlim.set i hin.1 hin.2
    cases hx
    exact ⟨hin.1, y, by rw [List.getD_eq_getElem?_getD, hy]; rfl, hy⟩
  · obtain ⟨-, hnot, hfull, rfl⟩ := call_eq_sequence hv
    have hlength := hlim.length
    refine ⟨hlength.trans (after_n g pre), fun x hx => ?_⟩
    obtain ⟨k, hk, rfl⟩ := List.getElem_of_mem hx
    have hsub := hlim.update_eq hnot
    obtain ⟨y, hy⟩ := hlim.set k (by omega) (by omega)
    rw [Int.toNat_natCast, List.getElem?_eq_getElem hk] at hy
    rw [Option.some.inj hy]
    rfl
  · obtain ⟨-, hnot, -⟩ := call_eq_sequence hv
    exact absurd ((hhanded v' hv').1.symm.trans hnot) (by simp)
  · obtain ⟨hgot', hav⟩ := hhanded v hv
    rw [after_concat, (call_kept hlim hfits hgot').1, hav]

/-- The builder of a vector of one element. -/
def generateOne : Generator ℕ := ⟨1, [none], 0, 0, false⟩

theorem generate_one : generate SeqIndex.int32 false 1 = .ok generateOne := by
  decide

theorem generate_safe_one :
    Safe SeqIndex.int32 generateOne [.update 0 7, .done, .sub 0] (.update 1 8) := by
  refine generate_safe SeqIndex.int32 false 1 generate_one (fun pre c hpre => ?_) _ _ List.prefix_rfl
  obtain ⟨post, hpost⟩ := hpre
  match pre, hpost with
  | [], h => cases h; simp [Fits, generateOne]
  | [_], h => cases h; exact trivial
  | [_, _], h => cases h; exact (by decide : SeqIndex.int32.InRange 0)
  | [_, _, _], h =>
    cases h
    rintro ⟨-, h0, -⟩
    exact absurd h0 (by decide)
  | _ :: _ :: _ :: _ :: _, h => simp at h

/-- After `done`, the first element of the vector can be updated; and with integers that are wider
than indices, `sub` takes an index outside the vector for one inside. -/
theorem generate_unsafe : generate SeqIndex.int32 false 1 = .ok generateOne ∧
    ¬Safe SeqIndex.int32 generateOne [.update 0 7, .done] (.update 0 8) ∧
    ¬Safe SeqIndex.int32 generateOne [.update 0 7] (.sub (2 ^ 32)) := by
  refine ⟨generate_one, fun h => ?_, fun h => ?_⟩
  · have hkept := h.kept ⟨[.update 0 7], List.prefix_refl _, (by decide :
      (call SeqIndex.int32 (after SeqIndex.int32 generateOne [.update 0 7]) .done).1 =
        .sequence [some 7])⟩
    exact absurd hkept (by decide)
  · obtain ⟨-, y, -, hy⟩ := h.sub_set rfl (by decide :
      (call SeqIndex.int32 (after SeqIndex.int32 generateOne [.update 0 7]) (.sub (2 ^ 32))).1 =
        .elt (some 7))
    have hlt := (List.getElem?_eq_some_iff.1 hy).1
    exact absurd hlt (by decide)

end MultiMLton.Basis.Sequence
