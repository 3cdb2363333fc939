import MultiMLton.Pacml.Channel.ExactlyOnce

/-!
# Choices that meet themselves

A choice that offers both directions on one channel may find its own element at the head of the
queue of the other side.  `blockFn` then raises `Fail "Same event"`, with the lock of the channel
held and the element taken off.

* `NotOwn`: the steps at which that does not happen;
* `Safe`: nobody raises, no operation is matched with itself, and the element of a thread that waits
  is in its queue, or in the hands of a thread that has not decided on it yet, or committed;
* `NotOwn.safe`: in runs of such steps every state is safe.
-/

namespace MultiMLton.Channel

open Interleave List

variable {κ τ α : Type*}

/-- The element that a thread has taken off a queue and not decided on. -/
def Pc.undecided : Pc ℕ ℕ α → Option (Entry ℕ ℕ α)
  | .matchLp e | .claimed e | .undeque e => some e
  | .unclaim e => e
  | _ => none

/-- The channel and the queue it comes from, and the element. -/
def Local.undecided : Local κ α → Option (κ × Side × Entry ℕ ℕ α)
  | .run _ _ _ op pc => pc.undecided.map fun e => (op.chan, op.theirs, e)
  | _ => none

/-- The channel, the queue and the element of a thread that waits. -/
def Local.waits : Local κ α → Option (κ × Side × Entry ℕ ℕ α)
  | .run _ x h op .parkRelease | .run _ x h op .parked =>
    some (op.chan, op.ours, ⟨x, h, op.offer⟩)
  | _ => none

/-- A `blockFn` that takes an element off a queue now does not take one of its own transaction. -/
def MeetsOther (m : Mem κ ℕ ℕ τ α) : Local κ α → Prop
  | .run _ x _ op .tryLp => op.mode = .block →
      ∀ e ∈ (cleanAndDeque m ((m.chan op.chan).queue op.theirs)).1, x ≠ e.txid
  | _ => True

/-- The step is not one at which a choice meets itself. -/
def NotOwn (c : Config τ (Net κ τ α) (Local κ α)) (a : τ × Choice κ α) : Prop :=
  MeetsOther c.shared.mem (c.loc a.1)

/-- An element is where it can still be met, or it is committed. -/
def Kept (c : Config τ (Net κ τ α) (Local κ α)) (w : κ × Side × Entry ℕ ℕ α) : Prop :=
  c.shared.mem.txid w.2.2.txid = 2 ∨ w.2.2 ∈ (c.shared.mem.chan w.1).queue w.2.1 ∨
    ∃ u, (c.loc u).undecided = some w

/-- No choice meets itself, and no offer gets lost. -/
structure Safe (c : Config τ (Net κ τ α) (Local κ α)) : Prop where
  other : ∀ s r ch m, .pair s r ch m ∈ c.shared.log → s ≠ r
  returns : ∀ t role x h op, c.loc t ≠ .run role x h op (.done .sameEvent)
  kept : ∀ t w, (c.loc t).waits = some w → Kept c w

section Moves

variable [DecidableEq κ] {n n' : Net κ τ α} {l l' : Local κ α}

/-- A step that is not `same` takes an element off its queue into the hands of its thread, or drops
it when it is committed. -/
theorem Move.queued_kept (h : Move n l n' l') (hsame : ∀ role x h op,
      l' ≠ .run role x h op (.done .sameEvent)) {c : κ} {d : Side} {e : Entry ℕ ℕ α}
    (he : e ∈ (n.mem.chan c).queue d) :
    n.mem.txid e.txid = 2 ∨ e ∈ (n'.mem.chan c).queue d ∨ l'.undecided = some (c, d, e) := by
  cases h with
  | poll c₁ d₁ q dropped hm hm' hq hdropped =>
    have heq := hm'.queue c d
    rw [Mem.setQueue_queue] at heq
    by_cases hcd : c = c₁ ∧ d = d₁
    · obtain ⟨rfl, rfl⟩ := hcd
      rw [if_pos ⟨rfl, rfl⟩] at heq
      rw [hq] at he
      rcases mem_append.1 he with he | he
      · exact .inl (hdropped e he)
      · exact .inr (.inl (heq ▸ he))
    · rw [if_neg hcd, hm.queue] at heq
      exact .inr (.inl (heq ▸ he))
  | quiet hpc hm =>
    have heq := hm.queue c d
    exact .inr (.inl (heq ▸ he))
  | @deque role x h op e₁ q dropped hq hdropped hother =>
    rw [Mem.setQueue_queue]
    by_cases hcd : c = op.chan ∧ d = op.theirs
    · obtain ⟨rfl, rfl⟩ := hcd
      rw [hq] at he
      rcases mem_append.1 he with he | he
      · exact .inl (hdropped e he)
      rcases mem_cons.1 he with rfl | he
      · exact .inr (.inr rfl)
      · exact .inr (.inl (by rwa [if_pos ⟨rfl, rfl⟩]))
    · exact .inr (.inl (by rwa [if_neg hcd]))
  | same => exact absurd rfl (hsame _ _ _ _)
  | @nobody role x h op pc' hdropped hpc =>
    rw [Mem.setQueue_queue]
    by_cases hcd : c = op.chan ∧ d = op.theirs
    · obtain ⟨rfl, rfl⟩ := hcd
      exact .inl (hdropped e he)
    · exact .inr (.inl (by rwa [if_neg hcd]))
  | @undeque role x h op e₁ =>
    rw [Mem.setQueue_queue]
    by_cases hcd : c = op.chan ∧ d = op.theirs
    · obtain ⟨rfl, rfl⟩ := hcd
      exact .inr (.inl (by rw [if_pos ⟨rfl, rfl⟩]; exact mem_cons_of_mem _ he))
    · exact .inr (.inl (by rwa [if_neg hcd]))
  | @enque role x h op kept dropped hq hdropped =>
    rw [Mem.setQueue_queue]
    by_cases hcd : c = op.chan ∧ d = op.ours
    · obtain ⟨rfl, rfl⟩ := hcd
      rw [hq] at he
      rcases mem_append.1 he with he | he
      · exact .inr (.inl (by rw [if_pos ⟨rfl, rfl⟩]; exact mem_append_left _ he))
      · exact .inl (hdropped e he)
    · exact .inr (.inl (by rwa [if_neg hcd]))
  | _ => exact .inr (.inl he)

/-- A thread that has an element decides on it, puts it back, or goes on with it. -/
theorem Move.undecided_kept (hids : n.Ids) (h : Move n l n' l') {w : κ × Side × Entry ℕ ℕ α}
    (hw : l.undecided = some w) :
    n'.mem.txid w.2.2.txid = 2 ∨ w.2.2 ∈ (n'.mem.chan w.1).queue w.2.1 ∨
      l'.undecided = some w := by
  -- an id that is neither `0` nor `1` is committed
  have hcommitted {x : ℕ} (h0 : n.mem.txid x ≠ 0) (h1 : n.mem.txid x ≠ 1) : n.mem.txid x = 2 := by
    rcases hids.range x with h | h | h
    · exact absurd h h0
    · exact absurd h h1
    · exact h
  cases h with
  | quiet hpc hm => cases hpc <;> exact .inr (.inr hw)
  | claim e hmode h0 | retryBlock e => exact .inr (.inr hw)
  | winCall e hmode h0 | winBlock e h0 =>
    cases hw
    exact .inl (Function.update_self _ _ _)
  | dropCall e hmode h0 h1 | dropBlock e h0 h1 =>
    cases hw
    exact .inl (hcommitted h0 h1)
  | unclaim e =>
    cases e with
    | none => cases hw
    | some e => exact .inr (.inr hw)
  | undeque e =>
    cases hw
    refine .inr (.inl ?_)
    rw [Mem.setQueue_queue, if_pos ⟨rfl, rfl⟩]
    exact mem_cons_self
  | _ => cases hw

/-- A thread comes to wait with its element in the queue. -/
theorem Move.waits (h : Move n l n' l') {w : κ × Side × Entry ℕ ℕ α} (hw : l'.waits = some w) :
    l.waits = some w ∨ w.2.2 ∈ (n'.mem.chan w.1).queue w.2.1 := by
  cases h with
  | quiet hpc hm => cases hpc <;> exact .inl hw
  | enque kept dropped hq hdropped =>
    cases hw
    refine .inr ?_
    rw [Mem.setQueue_queue, if_pos ⟨rfl, rfl⟩]
    exact mem_append_right _ (mem_singleton_self _)
  | unclaim e => cases e <;> cases hw
  | nobody hdropped hpc => rcases hpc with ⟨rfl, -⟩ | ⟨rfl, -⟩ | ⟨rfl, -⟩ <;> cases hw
  | resume v hv hready hpc => rcases hpc with ⟨rfl, -⟩ | rfl <;> cases hw
  | _ => cases hw

end Moves

section Runs

variable [DecidableEq κ] [DecidableEq τ] [DecidableEq α]

omit [DecidableEq α] in
/-- Where an element can be met, it still can be after a step that is not `same`. -/
theorem Kept.step {c : Config τ (Net κ τ α) (Local κ α)} (hI : Inv c) {t : τ} {n' : Net κ τ α}
    {l' : Local κ α} (h : Move c.shared (c.loc t) n' l') (hsame : ∀ role x h op,
      l' ≠ .run role x h op (.done .sameEvent)) {w : κ × Side × Entry ℕ ℕ α} (hw : Kept c w) :
    Kept (c.put t n' l') w := by
  have hstays {x : ℕ} (hx : c.shared.mem.txid x = 2) : n'.mem.txid x = 2 := by
    have htxid := txidStep_of_effect (hI.holds t) (h.effect (hI.holds t) (hI.threads t)) x
    rw [hx] at htxid
    generalize n'.mem.txid x = v at htxid
    cases htxid
    rfl
  rcases hw with h2 | hq | ⟨u, hu⟩
  · exact .inl (hstays h2)
  · rcases h.queued_kept hsame hq with h2 | hq | hl
    · exact .inl (hstays h2)
    · exact .inr (.inl hq)
    · exact .inr (.inr ⟨t, by rw [Config.put_loc_self]; exact hl⟩)
  · by_cases hut : u = t
    · subst hut
      rcases h.undecided_kept hI.ids hu with h2 | hq | hl
      · exact .inl h2
      · exact .inr (.inl hq)
      · exact .inr (.inr ⟨u, by rw [Config.put_loc_self]; exact hl⟩)
    · exact .inr (.inr ⟨u, by rw [Config.put_loc_of_ne hut]; exact hu⟩)

/-- A step at which no `blockFn` meets its own transaction does not raise. -/
theorem NotOwn.returns {c : Config τ (Net κ τ α) (Local κ α)} {t : τ} {k : Choice κ α}
    {n' : Net κ τ α} {l' : Local κ α} (hC : NotOwn c (t, k))
    (h : netStep t k c.shared (c.loc t) = some (n', l')) (role : Role κ α) (x h' : ℕ)
    (op : Op κ α) : l' ≠ .run role x h' op (.done .sameEvent) := by
  intro heq
  have hmove := move_of_step h
  unfold NotOwn at hC
  dsimp only at hC
  generalize c.loc t = l at hmove hC
  cases hmove with
  | quiet hpc hm =>
    cases heq
    cases hpc
  | same e q dropped hq hdropped hfirst hmode hown => exact hC hmode e hfirst hown
  | nobody hdropped hpc => rcases hpc with ⟨rfl, -⟩ | ⟨rfl, -⟩ | ⟨rfl, -⟩ <;> cases heq
  | resume v hv hready hpc => rcases hpc with ⟨rfl, -⟩ | rfl <;> cases heq
  | unclaim e => cases e <;> cases heq
  | _ => cases heq

/-- In runs in which no `blockFn` meets its own transaction every state is safe. -/
theorem NotOwn.safe {c : Config τ (Net κ τ α) (Local κ α)}
    (h : (netProcess κ τ α).ReachableWhile NotOwn Initial c) : Safe c := by
  have hother : ∀ s r ch m, .pair s r ch m ∈ c.shared.log → s ≠ r := by
    intro s r ch m hlog
    have hnodup := (nodup_flatMap.1 (inv_of_reachable h.reachable).ids.once).1 _ hlog
    simpa [Commit.parties] using hnodup
  obtain ⟨hreturns, hkept⟩ : (∀ t role x h op, c.loc t ≠ .run role x h op (.done .sameEvent)) ∧
      ∀ t w, (c.loc t).waits = some w → Kept c w := by
    refine h.invariant (I := fun c => (∀ t role x h op,
      c.loc t ≠ .run role x h op (.done .sameEvent)) ∧
        ∀ t w, (c.loc t).waits = some w → Kept c w) ?_ ?_
    · rintro c ⟨-, hl⟩
      refine ⟨fun t => ?_, fun t => ?_⟩
      · simp [hl t]
      · simp [hl t, Local.waits]
    · rintro c t k n' l' hr hC ⟨hreturns, hkept⟩ hs
      have hI := inv_of_reachable hr.reachable
      have hmove := move_of_step hs
      have hsame := hC.returns hs
      refine ⟨fun u role x h' op => ?_, fun u w hw => ?_⟩
      · rw [Config.put_loc]
        split
        · exact hsame role x h' op
        · exact hreturns u role x h' op
      · by_cases hut : u = t
        · subst hut
          rw [Config.put_loc_self] at hw
          rcases hmove.waits hw with hw | hq
          · exact (hkept u w hw).step hI hmove hsame
          · exact .inr (.inl hq)
        · rw [Config.put_loc_of_ne hut] at hw
          exact (hkept u w hw).step hI hmove hsame
  exact ⟨hother, hreturns, hkept⟩

end Runs

section Decidable

variable [DecidableEq κ] [DecidableEq τ]

instance decidableMeetsOther (m : Mem κ ℕ ℕ τ α) :
    ∀ l : Local κ α, Decidable (MeetsOther m l)
  | .run _ x _ op .tryLp => inferInstanceAs (Decidable (op.mode = .block →
      ∀ e ∈ (cleanAndDeque m ((m.chan op.chan).queue op.theirs)).1, x ≠ e.txid))
  | .idle | .sync _ _ | .waiting _ | .other _ | .otherClaimed _
  | .run _ _ _ _ .begin | .run _ _ _ _ .getLock | .run _ _ _ _ (.matchLp _)
  | .run _ _ _ _ (.claimed _) | .run _ _ _ _ (.unclaim _) | .run _ _ _ _ (.won _)
  | .run _ _ _ _ (.commit _) | .run _ _ _ _ (.wonRelease _) | .run _ _ _ _ (.reify _)
  | .run _ _ _ _ (.ready _) | .run _ _ _ _ (.undeque _) | .run _ _ _ _ .lostRelease
  | .run _ _ _ _ .away | .run _ _ _ _ .enque | .run _ _ _ _ .parkRelease
  | .run _ _ _ _ .parked | .run _ _ _ _ (.resumed _) | .run _ _ _ _ (.reifyResumed _)
  | .run _ _ _ _ .failRelease | .run _ _ _ _ (.done _) => .isTrue trivial

instance decidableNotOwn (c : Config τ (Net κ τ α) (Local κ α)) (a : τ × Choice κ α) :
    Decidable (NotOwn c a) :=
  decidableMeetsOther c.shared.mem (c.loc a.1)

end Decidable

end MultiMLton.Channel
