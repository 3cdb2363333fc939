import Mathlib.Data.Finset.Card
import Mathlib.Order.Bounds.Basic
import MultiMLton.Backend.Rssa
import MultiMLton.Lib.Folds

/-!
# Where functions return to

`returnsTo` of `backend/chunkify.fun` finds the continuations of every function, passing them on
through calls without a continuation of their own.

* `Solves`: the equations that the continuations have to meet;
* `Spreads`: what adding one continuation to a function does to all functions;
* `returnsTo_isLeast`: the result is the least solution, and the recursion ends.
-/

namespace MultiMLton.Backend

open Lib Rssa List Finset

namespace Chunkify

variable {F L V ν : Type} [DecidableEq F] [DecidableEq L]

/-- What is known of the functions: their continuations and the functions they call in tail
position. -/
structure ReturnInfo (F L : Type) where
  returnsTo : F → List L
  tailCalls : F → List F

namespace ReturnInfo

def init : ReturnInfo F L := ⟨fun _ => [], fun _ => []⟩

def pushReturn (s : ReturnInfo F L) (f : F) (j : L) : ReturnInfo F L :=
  { s with returnsTo := Function.update s.returnsTo f (j :: s.returnsTo f) }

def pushTailCall (s : ReturnInfo F L) (f f' : F) : ReturnInfo F L :=
  { s with tailCalls := Function.update s.tailCalls f (f' :: s.tailCalls f) }

end ReturnInfo

/-- `returnTo`, with a bound on the depth of the recursion. -/
def returnTo : ℕ → ReturnInfo F L → F → L → Option (ReturnInfo F L)
  | 0, _, _, _ => none
  | n + 1, s, f, j =>
    if j ∈ s.returnsTo f then some s
    else ((s.pushReturn f j).tailCalls f).foldlM (fun s f' => returnTo n s f' j) (s.pushReturn f j)

/-- `tailCall` -/
def tailCall (n : ℕ) (s : ReturnInfo F L) (f f' : F) : Option (ReturnInfo F L) :=
  if f' ∈ s.tailCalls f then some s
  else ((s.pushTailCall f f').returnsTo f).foldlM (fun s j => returnTo n s f' j)
    (s.pushTailCall f f')

/-- What `returnsTo` does with a block of the function `name`. -/
def visitBlock (n : ℕ) (s : ReturnInfo F L) (nb : F × Block F L V ν) : Option (ReturnInfo F L) :=
  match nb.2.transfer with
  | .call _ func (.nonTail cont _) => returnTo n s func cont
  | .call _ func _ => tailCall n s nb.1 func
  | _ => some s

/-- The blocks of a program, with the names of their functions. -/
def namedBlocks (p : Program F L V ν) : List (F × Block F L V ν) :=
  p.all.flatMap fun f => f.blocks.map (f.name, ·)

/-- `returnsTo`. A continuation is passed on through every function at most once. -/
def returnsTo (p : Program F L V ν) : Option (F → List L) := do
  let s ← (namedBlocks p).foldlM (visitBlock (p.names.length + 1)) .init
  some s.returnsTo

/-! ### The equations -/

/-- A call that leaves the continuation as it is. -/
def IsTail : Return L → Prop
  | .nonTail _ _ => False
  | .dead | .tail => True

/-- The functions of the blocks return at least to the continuations `R`: a call pushes its own
continuation, and any other call hands on those of its function. -/
structure Solves (bs : List (F × Block F L V ν)) (R : F → Set L) : Prop where
  cont : ∀ nb ∈ bs, ∀ args func cont handler,
    nb.2.transfer = .call args func (.nonTail cont handler) → cont ∈ R func
  tail : ∀ nb ∈ bs, ∀ args func r, nb.2.transfer = .call args func r → IsTail r →
    R nb.1 ⊆ R func

/-! ### Spreading one continuation -/

/-- The continuation `j` was added to some functions, and with each of them to all functions it
calls in tail position. -/
structure Spreads (j : L) (s s' : ReturnInfo F L) : Prop where
  tailCalls_eq : s'.tailCalls = s.tailCalls
  mono : ∀ f, s.returnsTo f ⊆ s'.returnsTo f
  only : ∀ f, ∀ l ∈ s'.returnsTo f, l ∈ s.returnsTo f ∨ l = j
  closed : ∀ f, j ∈ s'.returnsTo f → j ∉ s.returnsTo f → ∀ f' ∈ s.tailCalls f, j ∈ s'.returnsTo f'

omit [DecidableEq F] [DecidableEq L] in
theorem Spreads.refl (j : L) (s : ReturnInfo F L) : Spreads j s s :=
  ⟨rfl, fun _ => List.Subset.refl _, fun _ _ h => .inl h, fun _ h h' => absurd h h'⟩

omit [DecidableEq F] in
theorem Spreads.trans {j : L} {s s' s'' : ReturnInfo F L} (h : Spreads j s s')
    (h' : Spreads j s' s'') : Spreads j s s'' where
  tailCalls_eq := h'.tailCalls_eq.trans h.tailCalls_eq
  mono f := List.Subset.trans (h.mono f) (h'.mono f)
  only f l hl := by
    rcases h'.only f l hl with hl | rfl
    · exact h.only f l hl
    · exact .inr rfl
  closed f hf hf' f' htail := by
    by_cases hmid : j ∈ s'.returnsTo f
    · exact h'.mono f' (h.closed f hmid hf' f' htail)
    · exact h'.closed f hf hmid f' (by rwa [h.tailCalls_eq])

/-- The functions that do not have the continuation yet. -/
def missing (U : Finset F) (s : ReturnInfo F L) (j : L) : Finset F :=
  U.filter fun f => j ∉ s.returnsTo f

variable {s s' : ReturnInfo F L}

omit [DecidableEq F] in
theorem Spreads.missing_subset {j : L} (h : Spreads j s s') (U : Finset F) :
    missing U s' j ⊆ missing U s j := by
  intro f hf
  simp only [missing, Finset.mem_filter] at hf ⊢
  exact ⟨hf.1, fun hj => hf.2 (h.mono f hj)⟩

variable {s : ReturnInfo F L}

omit [DecidableEq L] in
theorem mem_pushReturn {f f' : F} {j l : L} :
    l ∈ (s.pushReturn f j).returnsTo f' ↔ l ∈ s.returnsTo f' ∨ (f' = f ∧ l = j) := by
  by_cases hf : f' = f
  · subst hf
    simp [ReturnInfo.pushReturn, or_comm]
  · simp [ReturnInfo.pushReturn, hf]

variable {U : Finset F}

theorem missing_pushReturn {f : F} {j : L} (hf : f ∈ U)
    (hj : j ∉ s.returnsTo f) : (missing U (s.pushReturn f j) j).card < (missing U s j).card := by
  apply Finset.card_lt_card
  refine Finset.ssubset_iff_subset_ne.2 ⟨fun f' hf' => ?_, fun heq => ?_⟩
  · simp only [missing, Finset.mem_filter, mem_pushReturn] at hf' ⊢
    exact ⟨hf'.1, fun h => hf'.2 (.inl h)⟩
  · have hmem : f ∈ missing U s j := Finset.mem_filter.2 ⟨hf, hj⟩
    rw [← heq] at hmem
    simp [missing, mem_pushReturn] at hmem

/-- A fold of a function that spreads the continuation, over functions of the program. -/
theorem foldlM_spreads {j : L} {n : ℕ}
    (ih : ∀ (s : ReturnInfo F L) (f : F), f ∈ U → (∀ f, ∀ f' ∈ s.tailCalls f, f' ∈ U) →
      (missing U s j).card < n →
      ∃ s', returnTo n s f j = some s' ∧ Spreads j s s' ∧ j ∈ s'.returnsTo f)
    (fs : List F) (s : ReturnInfo F L) (hfs : ∀ f ∈ fs, f ∈ U)
    (hU : ∀ f, ∀ f' ∈ s.tailCalls f, f' ∈ U) (hn : (missing U s j).card < n) :
    ∃ s', fs.foldlM (fun s f' => returnTo n s f' j) s = some s' ∧ Spreads j s s' ∧
      ∀ f ∈ fs, j ∈ s'.returnsTo f := by
  induction fs generalizing s with
  | nil => exact ⟨s, rfl, .refl j s, by simp⟩
  | cons f fs ihfs =>
    obtain ⟨s1, hs1, hspread, hj⟩ := ih s f (hfs f mem_cons_self) hU hn
    obtain ⟨s2, hs2, hspread', hall⟩ := ihfs s1 (fun f' hf' => hfs f' (mem_cons_of_mem _ hf'))
      (by rwa [hspread.tailCalls_eq])
      (lt_of_le_of_lt (card_le_card (hspread.missing_subset U)) hn)
    refine ⟨s2, by simp [foldlM_cons, hs1, hs2], hspread.trans hspread', ?_⟩
    intro f' hf'
    rcases List.mem_cons.1 hf' with rfl | hf'
    · exact hspread'.mono _ hj
    · exact hall f' hf'

/-- The recursion ends after it has come through every function. -/
theorem returnTo_spreads {j : L} (n : ℕ) (s : ReturnInfo F L) (f : F) (hf : f ∈ U)
    (hU : ∀ f, ∀ f' ∈ s.tailCalls f, f' ∈ U) (hn : (missing U s j).card < n) :
    ∃ s', returnTo n s f j = some s' ∧ Spreads j s s' ∧ j ∈ s'.returnsTo f := by
  induction n generalizing s f with
  | zero => omega
  | succ n ih =>
    rw [returnTo]
    split_ifs with hj
    · exact ⟨s, rfl, .refl j s, hj⟩
    have hlt := missing_pushReturn hf hj
    obtain ⟨s', hs', hspread, hall⟩ := foldlM_spreads ih ((s.pushReturn f j).tailCalls f)
      (s.pushReturn f j) (fun f' hf' => hU f f' hf') hU (by omega)
    have hmem : j ∈ s'.returnsTo f := hspread.mono f (mem_pushReturn.2 (.inr ⟨rfl, rfl⟩))
    refine ⟨s', hs', ?_, hmem⟩
    refine ⟨hspread.tailCalls_eq, fun f' l hl => hspread.mono f' (mem_pushReturn.2 (.inl hl)), ?_, ?_⟩
    · intro f' l hl
      rcases hspread.only f' l hl with hl | rfl
      · rcases mem_pushReturn.1 hl with hl | ⟨-, rfl⟩
        · exact .inl hl
        · exact .inr rfl
      · exact .inr rfl
    · intro f' hf' hnot f'' hf''
      by_cases heq : f' = f
      · exact hall f'' (heq ▸ hf'')
      · refine hspread.closed f' hf' ?_ f'' hf''
        rw [mem_pushReturn]
        rintro (h | ⟨h, -⟩)
        · exact hnot h
        · exact heq h

/-! ### Least solutions -/

/-- No more is known than in a solution `R`. -/
structure Below (R : F → Set L) (s : ReturnInfo F L) : Prop where
  returnsTo : ∀ f, ∀ l ∈ s.returnsTo f, l ∈ R f
  tailCalls : ∀ f, ∀ f' ∈ s.tailCalls f, R f ⊆ R f'

theorem Below.returnTo {R : F → Set L} {n : ℕ} {f : F} {j : L}
    (hs : Below R s) (hj : j ∈ R f) (h : returnTo n s f j = some s') : Below R s' := by
  induction n generalizing s s' f with
  | zero => cases h
  | succ n ih =>
    rw [Chunkify.returnTo] at h
    split_ifs at h with hmem
    · cases h
      exact hs
    have hpush : Below R (s.pushReturn f j) := by
      refine ⟨fun f' l hl => ?_, hs.tailCalls⟩
      rcases mem_pushReturn.1 hl with hl | ⟨rfl, rfl⟩
      · exact hs.returnsTo f' l hl
      · exact hj
    exact foldlM_preserves (Below R)
      (fun f' hf' s1 s2 hs1 hs2 => ih hs1 (hs.tailCalls f f' hf' hj) hs2) hpush h

theorem Below.tailCall {R : F → Set L} {n : ℕ} {f f' : F}
    (hs : Below R s) (hsub : R f ⊆ R f') (h : tailCall n s f f' = some s') : Below R s' := by
  rw [Chunkify.tailCall] at h
  split_ifs at h with hmem
  · cases h
    exact hs
  have hpush : Below R (s.pushTailCall f f') := by
    refine ⟨hs.returnsTo, fun g g' hg' => ?_⟩
    by_cases hg : g = f
    · subst hg
      simp only [ReturnInfo.pushTailCall, Function.update_self, List.mem_cons] at hg'
      rcases hg' with rfl | hg'
      · exact hsub
      · exact hs.tailCalls g g' hg'
    · simp only [ReturnInfo.pushTailCall, Function.update_of_ne hg] at hg'
      exact hs.tailCalls g g' hg'
  exact foldlM_preserves (Below R)
    (fun j hj s1 s2 hs1 hs2 => hs1.returnTo (hsub (hs.returnsTo f j hj)) hs2) hpush h

theorem Below.visitBlock {R : F → Set L} {n : ℕ}
    {bs : List (F × Block F L V ν)} (hR : Solves bs R) {nb : F × Block F L V ν} (hnb : nb ∈ bs)
    (hs : Below R s) (h : visitBlock n s nb = some s') : Below R s' := by
  unfold Chunkify.visitBlock at h
  split at h
  · next args func cont handler htransfer =>
    exact hs.returnTo (hR.cont nb hnb _ _ _ _ htransfer) h
  · next args func r hr htransfer =>
    have htail : IsTail r := by
      cases r with
      | nonTail cont handler => exact absurd rfl (hr cont handler)
      | _ => trivial
    exact hs.tailCall (hR.tail nb hnb _ _ _ htransfer htail) h
  · cases h
    exact hs

/-! ### The result solves the equations -/

/-- What holds after some blocks have been visited. -/
structure Visited (U : Finset F) (bs : List (F × Block F L V ν)) (s : ReturnInfo F L) : Prop where
  closed : ∀ f, ∀ f' ∈ s.tailCalls f, s.returnsTo f ⊆ s.returnsTo f'
  range : ∀ f, ∀ f' ∈ s.tailCalls f, f' ∈ U
  cont : ∀ nb ∈ bs, ∀ args func cont handler,
    nb.2.transfer = .call args func (.nonTail cont handler) → cont ∈ s.returnsTo func
  tail : ∀ nb ∈ bs, ∀ args func r, nb.2.transfer = .call args func r → IsTail r →
    func ∈ s.tailCalls nb.1

omit [DecidableEq F] in
/-- Spreading a continuation to a closed state leaves it closed. -/
theorem Spreads.closed_of_closed {j : L} (h : Spreads j s s')
    (hs : ∀ f, ∀ f' ∈ s.tailCalls f, s.returnsTo f ⊆ s.returnsTo f') :
    ∀ f, ∀ f' ∈ s'.tailCalls f, s'.returnsTo f ⊆ s'.returnsTo f' := by
  intro f f' hf' l hl
  rw [h.tailCalls_eq] at hf'
  by_cases hold : l ∈ s.returnsTo f
  · exact h.mono f' (hs f f' hf' hold)
  · obtain rfl : l = j := (h.only f l hl).resolve_left hold
    exact h.closed f hl hold f' hf'

/-- Handing on the continuations `js` of `f` to `f'`, where nothing else is left to do. -/
theorem foldlM_closed {n : ℕ} {f f' : F} (hf' : f' ∈ U) (hn : U.card < n)
    (js : List L) (s : ReturnInfo F L) (hU : ∀ g, ∀ g' ∈ s.tailCalls g, g' ∈ U)
    (hs : ∀ g, ∀ g' ∈ s.tailCalls g, ∀ l ∈ s.returnsTo g,
      l ∈ s.returnsTo g' ∨ (g = f ∧ g' = f' ∧ l ∈ js)) :
    ∃ s', js.foldlM (fun s j => returnTo n s f' j) s = some s' ∧ s'.tailCalls = s.tailCalls ∧
      (∀ g, s.returnsTo g ⊆ s'.returnsTo g) ∧
      ∀ g, ∀ g' ∈ s'.tailCalls g, s'.returnsTo g ⊆ s'.returnsTo g' := by
  induction js generalizing s with
  | nil =>
    refine ⟨s, rfl, rfl, fun g => List.Subset.refl _, fun g g' hg' l hl => ?_⟩
    rcases hs g g' hg' l hl with h | ⟨-, -, h⟩
    · exact h
    · cases h
  | cons j js ih =>
    have hmissing : (missing U s j).card < n :=
      lt_of_le_of_lt (card_le_card (filter_subset _ _)) hn
    obtain ⟨s1, hs1, hspread, hj⟩ := returnTo_spreads n s f' hf' hU hmissing
    obtain ⟨s2, hs2, htail, hmono, hclosed⟩ := ih s1 (by rwa [hspread.tailCalls_eq]) (by
      intro g g' hg' l hl
      rw [hspread.tailCalls_eq] at hg'
      by_cases hold : l ∈ s.returnsTo g
      · rcases hs g g' hg' l hold with h | ⟨rfl, rfl, h⟩
        · exact .inl (hspread.mono g' h)
        · rcases List.mem_cons.1 h with rfl | h
          · exact .inl hj
          · exact .inr ⟨rfl, rfl, h⟩
      · obtain rfl : l = j := (hspread.only g l hl).resolve_left hold
        exact .inl (hspread.closed g hl hold g' hg'))
    exact ⟨s2, by simp [foldlM_cons, hs1, hs2], htail.trans hspread.tailCalls_eq,
      fun g => List.Subset.trans (hspread.mono g) (hmono g), hclosed⟩

omit [DecidableEq L] in
theorem mem_pushTailCall {f f' g g' : F} :
    g' ∈ (s.pushTailCall f f').tailCalls g ↔ g' ∈ s.tailCalls g ∨ (g = f ∧ g' = f') := by
  by_cases hg : g = f
  · subst hg
    simp [ReturnInfo.pushTailCall, or_comm]
  · simp [ReturnInfo.pushTailCall, hg]

/-- One more block. -/
theorem Visited.visitBlock {n : ℕ} {bs : List (F × Block F L V ν)}
    (h : Visited U bs s) (hn : U.card < n) (nb : F × Block F L V ν)
    (hnb : ∀ args func r, nb.2.transfer = .call args func r → func ∈ U) :
    ∃ s', visitBlock n s nb = some s' ∧ Visited U (bs ++ [nb]) s' := by
  -- the blocks before stay visited when more is known
  have keep {s' : ReturnInfo F L} (hcalls : ∀ f, s.tailCalls f ⊆ s'.tailCalls f)
      (hmono : ∀ f, s.returnsTo f ⊆ s'.returnsTo f)
      (hclosed : ∀ f, ∀ f' ∈ s'.tailCalls f, s'.returnsTo f ⊆ s'.returnsTo f')
      (hrange : ∀ f, ∀ f' ∈ s'.tailCalls f, f' ∈ U)
      (hcont : ∀ args func cont handler,
        nb.2.transfer = .call args func (.nonTail cont handler) → cont ∈ s'.returnsTo func)
      (htail : ∀ args func r, nb.2.transfer = .call args func r → IsTail r →
        func ∈ s'.tailCalls nb.1) : Visited U (bs ++ [nb]) s' := by
    refine ⟨hclosed, hrange, fun nb' hnb' => ?_, fun nb' hnb' => ?_⟩
    · rcases mem_append.1 hnb' with hold | hnew
      · exact fun args func cont handler ht => hmono func (h.cont nb' hold _ _ _ _ ht)
      · obtain rfl := List.mem_singleton.1 hnew
        exact hcont
    · rcases mem_append.1 hnb' with hold | hnew
      · exact fun args func r ht hr => hcalls nb'.1 (h.tail nb' hold _ _ _ ht hr)
      · obtain rfl := List.mem_singleton.1 hnew
        exact htail
  unfold Chunkify.visitBlock
  split
  · next args func cont handler htransfer =>
    have hmissing : (missing U s cont).card < n :=
      lt_of_le_of_lt (card_le_card (filter_subset _ _)) hn
    obtain ⟨s', hs', hspread, hmem⟩ := returnTo_spreads n s func (hnb _ _ _ htransfer) h.range hmissing
    refine ⟨s', hs', keep ?_ hspread.mono (hspread.closed_of_closed h.closed) ?_ ?_ ?_⟩
    · rw [hspread.tailCalls_eq]
      exact fun f => List.Subset.refl _
    · rw [hspread.tailCalls_eq]
      exact h.range
    · rintro args' func' cont' handler' ht
      rw [htransfer] at ht
      cases ht
      exact hmem
    · rintro args' func' r' ht hr
      rw [htransfer] at ht
      cases ht
      exact absurd hr id
  · next args func r hr htransfer =>
    have hother {s' : ReturnInfo F L} : ∀ args func cont handler,
        nb.2.transfer = .call args func (.nonTail cont handler) → cont ∈ s'.returnsTo func := by
      intro args' func' cont' handler' ht
      rw [htransfer] at ht
      cases ht
      exact absurd rfl (hr cont' handler')
    rw [tailCall]
    split_ifs with hmem
    · refine ⟨s, rfl, keep (fun f => List.Subset.refl _) (fun f => List.Subset.refl _) h.closed
        h.range hother ?_⟩
      intro args' func' r' ht _
      rw [htransfer] at ht
      cases ht
      exact hmem
    · have hrange : ∀ g, ∀ g' ∈ (s.pushTailCall nb.1 func).tailCalls g, g' ∈ U := by
        intro g g' hg'
        rcases mem_pushTailCall.1 hg' with hg' | ⟨-, rfl⟩
        · exact h.range g g' hg'
        · exact hnb _ _ _ htransfer
      obtain ⟨s', hs', hcalls, hmono, hclosed⟩ := foldlM_closed (f := nb.1)
        (hnb _ _ _ htransfer) hn ((s.pushTailCall nb.1 func).returnsTo nb.1)
        (s.pushTailCall nb.1 func) hrange (by
          intro g g' hg' l hl
          rcases mem_pushTailCall.1 hg' with hg' | ⟨rfl, rfl⟩
          · exact .inl (h.closed g g' hg' hl)
          · exact .inr ⟨rfl, rfl, hl⟩)
      refine ⟨s', hs', keep ?_ hmono hclosed ?_ hother ?_⟩
      · rw [hcalls]
        exact fun f f' hf' => mem_pushTailCall.2 (.inl hf')
      · rwa [hcalls]
      · intro args' func' r' ht _
        rw [htransfer] at ht
        cases ht
        rw [hcalls]
        exact mem_pushTailCall.2 (.inr ⟨rfl, rfl⟩)
  · next hcall =>
    refine ⟨s, rfl, keep (fun f => List.Subset.refl _) (fun f => List.Subset.refl _) h.closed
      h.range ?_ ?_⟩
    · exact fun args func cont handler ht => absurd ht (hcall _ _ _)
    · exact fun args func r ht _ => absurd ht (hcall _ _ _)

theorem Visited.foldlM {n : ℕ} (hn : U.card < n) (rest : List (F × Block F L V ν))
    (hrest : ∀ nb ∈ rest, ∀ args func r, nb.2.transfer = .call args func r → func ∈ U)
    {visited : List (F × Block F L V ν)} (h : Visited U visited s) :
    ∃ s', rest.foldlM (Chunkify.visitBlock n) s = some s' ∧ Visited U (visited ++ rest) s' := by
  induction rest generalizing visited s with
  | nil => exact ⟨s, rfl, by rwa [append_nil]⟩
  | cons nb rest ih =>
    obtain ⟨s1, hs1, h1⟩ := h.visitBlock hn nb (hrest nb mem_cons_self)
    obtain ⟨s2, hs2, h2⟩ := ih (fun nb' h' => hrest nb' (mem_cons_of_mem _ h')) h1
    refine ⟨s2, by simp [foldlM_cons, hs1, hs2], ?_⟩
    rwa [append_assoc, singleton_append] at h2

omit [DecidableEq F] [DecidableEq L] in
theorem mem_namedBlocks {p : Program F L V ν} {nb : F × Block F L V ν} :
    nb ∈ namedBlocks p ↔ ∃ f ∈ p.all, f.name = nb.1 ∧ nb.2 ∈ f.blocks := by
  simp only [namedBlocks, List.mem_flatMap, List.mem_map]
  constructor
  · rintro ⟨f, hf, b, hb, rfl⟩
    exact ⟨f, hf, rfl, hb⟩
  · rintro ⟨f, hf, hname, hb⟩
    exact ⟨f, hf, nb.2, hb, by rw [hname]⟩

/-- **`returnsTo`** ends and finds the least solution. -/
theorem returnsTo_isLeast {p : Program F L V ν} (h : p.WellFormed) :
    ∃ R, returnsTo p = some R ∧
      IsLeast {R : F → Set L | Solves (namedBlocks p) R} (fun f => {l | l ∈ R f}) := by
  have hcard : p.names.toFinset.card < p.names.length + 1 :=
    Nat.lt_succ_of_le p.names.toFinset_card_le
  have hinit : Visited p.names.toFinset ([] : List (F × Block F L V ν)) .init :=
    ⟨by simp [ReturnInfo.init], by simp [ReturnInfo.init], by simp, by simp⟩
  obtain ⟨s, hs, hvisited⟩ := hinit.foldlM hcard (namedBlocks p) (by
    intro nb hnb args func r ht
    obtain ⟨f, hf, -, hb⟩ := mem_namedBlocks.1 hnb
    exact mem_toFinset.2 (h.func_mem f hf nb.2 hb args func r ht))
  refine ⟨s.returnsTo, by simp [returnsTo, hs], ⟨?_, ?_⟩⟩
  · exact ⟨hvisited.cont, fun nb hnb args func r ht hr =>
      hvisited.closed nb.1 func (hvisited.tail nb hnb args func r ht hr)⟩
  · intro R hR f l hl
    have hbelow : Below R s := foldlM_preserves (Below R)
      (fun nb hnb s1 s2 hs1 hs2 => hs1.visitBlock hR hnb hs2)
      ⟨by simp [ReturnInfo.init], by simp [ReturnInfo.init]⟩ hs
    exact hbelow.returnsTo f l hl

end Chunkify

end MultiMLton.Backend
