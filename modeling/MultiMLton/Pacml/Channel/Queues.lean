import MultiMLton.Pacml.Channel.SameEvent
import MultiMLton.Pacml.CircularQueuePutBack

/-!
# Choices that meet themselves, on the queues that channels have

`inQ` and `outQ` are `CirQueue`s.  An operation on one may leave its write pointer outside the
array it shrinks to, fill its buffer, or not return, with the lock of the channel held.

* `Queues.cleanAndDeque`, `Queues.cleanAndEnque`, `Queues.cleanAndChk`: the local functions of
  `channel.sml` on a `CirQueue`;
* `CirNet`, `cirStep`: the threads of `netStep` on these queues; a thread whose queue operation
  raises or does not return stays there, at an `Abort`;
* `hasRoom`: the steps whose queue operation finds the room it needs, and `Good.step`: they are
  steps on the lists that the queues hold;
* `safe_of_notOwn`: in runs of such steps in which no choice meets itself no offer is lost;
* `selfChoice_unsafe`: a choice that meets itself.
-/

namespace MultiMLton

open Option

namespace CirQueue

variable {α : Type*} {q : CirQueue α} {n r : ℕ} {xs : List α} {clean : α → Bool}

instance (n live : ℕ) : Decidable (Tight n live) :=
  decidable_of_iff (2 ≤ live ∧ ∃ j < n, 2 ≤ j ∧ live ≤ n / 2 ^ j ∧ 2 * (n / 2 ^ (j + 1)) ≤ live) <| by
    refine and_congr_right fun hlive => exists_congr fun j => ⟨And.right, fun h => ⟨?_, h⟩⟩
    have hpos : 0 < n / 2 ^ j := by omega
    exact Nat.lt_two_pow_self.trans_le (Nat.div_pos_iff.1 hpos).2

/-- The sizes for which `cleanPrefix` and a `deque` after it leave a cell for the write pointer:
`live` elements are left in a buffer of `n` cells before the `deque`. -/
def TakeFits (n live : ℕ) : Prop := ¬ Tight n live ∧ (n < 4 * live → ¬ Tight n (live - 1))

instance (n live : ℕ) : Decidable (TakeFits n live) := inferInstanceAs (Decidable (_ ∧ _))

theorem shrink_holds (h : HoldsAt q n r xs) (ht : ¬ Tight n xs.length) :
    ∃ q', shrink q = .ok q' ∧ Holds q' xs := by
  obtain ⟨q', hq', hiff⟩ := shrink_holds_iff h
  exact ⟨q', hq', hiff.2 ht⟩

theorem deque_holds (h : HoldsAt q n r xs) (ht : ¬ Tight n (xs.length - 1)) :
    ∃ q', deque q = .ok (xs.head?, q') ∧ Holds q' xs.tail := by
  cases xs with
  | nil => exact ⟨q, by simp [deque, h.isEmpty_iff], n, r, h⟩
  | cons x xs =>
    obtain ⟨q₁, h₁, hcode⟩ := deque_cons h
    obtain ⟨q', hq', hh⟩ := shrink_holds h₁ (by simpa using ht)
    exact ⟨q', by rw [hcode, hq']; rfl, hh⟩

/-- `cleanPrefix` keeps the buffer or leaves less than twice the cells that it needs. -/
theorem cleanPrefix_holds (h : HoldsAt q n r xs) (ht : ¬ Tight n (xs.dropWhile clean).length) :
    ∃ q' n' r', cleanPrefix q clean (q.arr.length + 1) = .ok q' ∧
      HoldsAt q' n' r' (xs.dropWhile clean) ∧
      (n' = n ∧ n < 4 * (xs.dropWhile clean).length ∨
        n' < 2 * max (xs.dropWhile clean).length 2) := by
  obtain ⟨q₁, r₁, h₁, hcode⟩ := cleanPrefix_eq h clean
  rw [hcode _ (by rw [h.layout.length_eq]; exact h.length_lt.trans (Nat.lt_succ_self n))]
  by_cases hys : xs.dropWhile clean = []
  · rw [hys] at h₁ ⊢
    obtain ⟨q', r', hq', h'⟩ := shrink_nil h₁
    exact ⟨q', 2, r', hq', h', .inr (by simp)⟩
  · rcases shrink_cases h₁ hys with ⟨hn, hq⟩ | ⟨-, j, hq, -, hlt, htight⟩
    · exact ⟨q₁, n, r₁, hq, h₁, .inl ⟨rfl, hn⟩⟩
    · refine ⟨_, _, 0, hq, moved_holdsAt hys ?_, .inr (by omega)⟩
      by_contra hle
      exact ht (htight.1 (by omega))

theorem cleanSuffix_holds (h : HoldsAt q n r xs) (ht : ¬ Tight n (xs.rdropWhile clean).length)
    (hr0 : ¬ (q.rp = 0 ∧ xs.all clean = true)) :
    ∃ q', cleanSuffix q clean (q.arr.length + 1) = .ok q' ∧ Holds q' (xs.rdropWhile clean) := by
  obtain ⟨q₁, h₁, hcode⟩ := cleanSuffix_eq h hr0
  rw [hcode _ (by rw [h.layout.length_eq]; exact h.length_lt.trans (Nat.lt_succ_self n))]
  exact shrink_holds h₁ ht

end CirQueue

namespace Channel

open Interleave CirQueue

variable {κ τ α : Type*}

/-! ### The queue operations of a channel -/

namespace Queues

variable (m : Mem κ ℕ ℕ τ α) (q : CirQueue (Entry ℕ ℕ α))

/-- `cleanPrefix (q, cleaner)`; its loop goes round the array once at most, or for ever. -/
def cleanHead : Except Abort (CirQueue (Entry ℕ ℕ α)) := cleanPrefix q m.cleaner (q.arr.length + 1)

/-- `cleanAndDeque`. -/
def cleanAndDeque : Except Abort (Option (Entry ℕ ℕ α) × CirQueue (Entry ℕ ℕ α)) := do
  deque (← cleanHead m q)

/-- `cleanAndEnque`. -/
def cleanAndEnque (e : Entry ℕ ℕ α) : Except Abort (CirQueue (Entry ℕ ℕ α)) := do
  enque (← cleanSuffix q m.cleaner (q.arr.length + 1)) (some e)

variable {m q} {n r : ℕ} {xs : List (Entry ℕ ℕ α)}

theorem cleanHead_holds (h : HoldsAt q n r xs) (ht : ¬ Tight n (xs.dropWhile m.cleaner).length) :
    ∃ q', cleanHead m q = .ok q' ∧ Holds q' (xs.dropWhile m.cleaner) := by
  obtain ⟨q', n', r', hq', h', -⟩ := cleanPrefix_holds h ht
  exact ⟨q', hq', n', r', h'⟩

theorem cleanAndDeque_holds (h : HoldsAt q n r xs)
    (ht : TakeFits n (xs.dropWhile m.cleaner).length) :
    ∃ q', cleanAndDeque m q = .ok ((Channel.cleanAndDeque m xs).1, q') ∧
      Holds q' (Channel.cleanAndDeque m xs).2 := by
  obtain ⟨q₁, n₁, r₁, hq₁, h₁, hsize⟩ := cleanPrefix_holds h ht.1
  obtain ⟨q', hq', h'⟩ := deque_holds h₁ <| by
    rcases hsize with ⟨rfl, hn⟩ | hn
    · exact ht.2 hn
    · -- a smaller buffer has been chosen for the elements, one less does not empty it
      intro htight
      have := htight.1
      have := htight.four_mul_le
      omega
  exact ⟨q', by rw [cleanAndDeque, cleanHead, hq₁]; exact hq', h'⟩

theorem cleanAndEnque_holds (h : HoldsAt q n r xs)
    (ht : ¬ Tight n (xs.rdropWhile m.cleaner).length)
    (hr0 : ¬ (q.rp = 0 ∧ xs.all m.cleaner = true)) (e : Entry ℕ ℕ α) :
    ∃ q', cleanAndEnque m q e = .ok q' ∧ Holds q' (Channel.cleanAndEnque m xs e) := by
  obtain ⟨q₁, hq₁, n₁, r₁, h₁⟩ := cleanSuffix_holds h ht hr0
  obtain ⟨q', n', r', hq', h', -⟩ := enque_holds h₁ e
  exact ⟨q', by rw [cleanAndEnque, hq₁]; exact hq', n', r', h'⟩

end Queues

/-! ### The threads -/

/-- The state of all channels and their queues.  The code looks at `queue` only; the lists in `net`
record what it holds. -/
structure CirNet (κ τ α : Type*) where
  net : Net κ τ α
  queue : κ → Side → CirQueue (Entry ℕ ℕ α)

section Step

variable [DecidableEq κ] [DecidableEq τ] [DecidableEq α]

/-- A queue operation has left `q` as queue `d` of channel `c`. -/
def CirNet.update (s : CirNet κ τ α) (c : κ) (d : Side) (q : CirQueue (Entry ℕ ℕ α)) :
    κ → Side → CirQueue (Entry ℕ ℕ α) :=
  Function.update s.queue c (Function.update (s.queue c) d q)

/-- The same, and the rest of the step has led to `n`. -/
def CirNet.setQueue (s : CirNet κ τ α) (n : Net κ τ α) (c : κ) (d : Side)
    (q : CirQueue (Entry ℕ ℕ α)) : CirNet κ τ α :=
  ⟨{ n with mem := n.mem.setQueue c d q.elements }, s.update c d q⟩

/-- The thread goes on with what a queue operation returns, or is stopped by it. -/
def CirNet.after {β : Type*} (s : CirNet κ τ α) (r : Except Abort β)
    (f : β → CirNet κ τ α × Local κ α) : CirNet κ τ α × Except Abort (Local κ α) :=
  match r with
  | .ok b => ((f b).1, .ok (f b).2)
  | .error e => (s, .error e)

/-- `pollFn`: `cleanAndChk` under the lock. -/
def CirNet.poll (s : CirNet κ τ α) (self : τ) (b : BaseEvt κ α) :
    Option (CirNet κ τ α × Except Abort Unit) :=
  (s.net.mem.getLock b.chan self).bind fun m =>
    match Queues.cleanHead m (s.queue b.chan b.doitFn.theirs) with
    | .error e => some (⟨{ s.net with mem := m }, s.queue⟩, .error e)
    | .ok q =>
      let m₁ := m.setQueue b.chan b.doitFn.theirs q.elements
      let m₂ := if q.isEmpty then m₁ else m₁.setPrio b.chan ((m.chan b.chan).prio + 1)
      (m₂.releaseLock b.chan self).map fun m =>
        (⟨{ s.net with mem := m }, s.update b.chan b.doitFn.theirs q⟩, .ok ())

/-- One step of a thread. -/
def cirStep (t : τ) (k : Choice κ α) (s : CirNet κ τ α) :
    Except Abort (Local κ α) → Option (CirNet κ τ α × Except Abort (Local κ α))
  | .error _ => none
  | .ok l =>
    match k, l with
    | .poll b, .sync x bevts =>
      if bevts.contains b then (s.poll t b).map fun r => (r.1, r.2.map fun _ => .sync x bevts) else none
    | _, .run role x h op .tryLp =>
      some (s.after (Queues.cleanAndDeque s.net.mem (s.queue op.chan op.theirs)) fun r =>
        (s.setQueue s.net op.chan op.theirs r.2, .run role x h op (afterDeque op x r.1)))
    | _, .run role x h op (.undeque e) =>
      some (s.after ((s.queue op.chan op.theirs).undeque (some e)) fun q =>
        (s.setQueue s.net op.chan op.theirs q, .run role x h op .lostRelease))
    | _, .run role x h op .enque =>
      some (s.after (Queues.cleanAndEnque s.net.mem (s.queue op.chan op.ours) ⟨x, h, op.offer⟩)
        fun q => (s.setQueue { s.net with exposed := x :: s.net.exposed } op.chan op.ours q,
          .run role x h op .parkRelease))
    | k, l => (netStep t k s.net l).map fun r => (⟨r.1, s.queue⟩, .ok r.2)

/-- The queue operation of the step finds the room it needs: `cleanPrefix`, `deque` and
`cleanSuffix` leave a cell for the write pointer, `cleanSuffix` does not have to clean a queue that
starts in the cell `0` altogether, and `undeque` does not fill the buffer. -/
def hasRoom (k : Choice κ α) (s : CirNet κ τ α) : Local κ α → Bool
  | .sync _ _ =>
    match k with
    | .poll b =>
      let q := s.queue b.chan b.doitFn.theirs
      !decide (Tight q.size.toNat (q.elements.dropWhile s.net.mem.cleaner).length)
    | _ => true
  | .run _ _ _ op pc =>
    let theirs := s.queue op.chan op.theirs
    let ours := s.queue op.chan op.ours
    match pc with
    | .tryLp => TakeFits theirs.size.toNat (theirs.elements.dropWhile s.net.mem.cleaner).length
    | .undeque _ => theirs.elements.length + 1 < theirs.size
    | .enque =>
      !decide (Tight ours.size.toNat (ours.elements.rdropWhile s.net.mem.cleaner).length) &&
        !(ours.rp == 0 && ours.elements.all s.net.mem.cleaner)
    | _ => true
  | _ => true

/-- The threads. -/
def cirProcess (κ τ α : Type*) [DecidableEq κ] [DecidableEq τ] [DecidableEq α] :
    Process τ (Choice κ α) (CirNet κ τ α) (Except Abort (Local κ α)) where
  step := cirStep

/-- Where the code of a thread is; a thread that has been stopped is shown outside it. -/
def running (l : Except Abort (Local κ α)) : Local κ α := l.toOption.getD .idle

/-- The threads with the lists that the queues hold. -/
def contents (c : Config τ (CirNet κ τ α) (Except Abort (Local κ α))) :
    Config τ (Net κ τ α) (Local κ α) :=
  c.map CirNet.net running

/-- New channels, and nothing has been started. -/
def cirStart (κ τ α : Type*) : Config τ (CirNet κ τ α) (Except Abort (Local κ α)) :=
  ⟨⟨Net.init κ τ α, fun _ _ => .new⟩, fun _ => .ok .idle⟩

/-- No choice meets itself, and the queue operation has room. -/
def KeepsOffers (c : Config τ (CirNet κ τ α) (Except Abort (Local κ α))) (a : τ × Choice κ α) :
    Prop :=
  NotOwn (contents c) a ∧ hasRoom a.2 c.shared (running (c.loc a.1)) = true

instance (c : Config τ (CirNet κ τ α) (Except Abort (Local κ α))) (a : τ × Choice κ α) :
    Decidable (KeepsOffers c a) :=
  inferInstanceAs (Decidable (_ ∧ _))

/-! ### Steps on the queues as steps on lists -/

/-- The queues are well formed and hold the lists. -/
def CirNet.Synced (s : CirNet κ τ α) : Prop :=
  ∀ ch d, Holds (s.queue ch d) ((s.net.mem.chan ch).queue d)

/-- No thread has been stopped, and the lists are what the queues hold. -/
structure Good (c : Config τ (CirNet κ τ α) (Except Abort (Local κ α))) : Prop where
  runs : ∀ t, ∃ l, c.loc t = .ok l
  synced : c.shared.Synced

omit [DecidableEq τ] [DecidableEq α] in
theorem CirNet.Synced.update {s : CirNet κ τ α} (h : s.Synced) {n : Net κ τ α}
    {m : Mem κ ℕ ℕ τ α} (hm : SameQueues s.net.mem m) {c : κ} {d : Side}
    {q : CirQueue (Entry ℕ ℕ α)} {xs : List (Entry ℕ ℕ α)} (hq : Holds q xs)
    (hn : SameQueues (m.setQueue c d xs) n.mem) : CirNet.Synced ⟨n, s.update c d q⟩ := by
  intro ch d'
  rw [hn.queue, Mem.setQueue_queue, hm.queue]
  by_cases hc : ch = c
  · subst hc
    by_cases hd : d' = d
    · subst hd
      simpa [CirNet.update] using hq
    · simpa [CirNet.update, hd] using h ch d'
  · simpa [CirNet.update, hc] using h ch d'

omit [DecidableEq τ] [DecidableEq α] in
theorem CirNet.Synced.setQueue {s : CirNet κ τ α} (h : s.Synced) {n : Net κ τ α}
    (hn : n.mem = s.net.mem) {c : κ} {d : Side} {q : CirQueue (Entry ℕ ℕ α)}
    {xs : List (Entry ℕ ℕ α)} (hq : Holds q xs) : (s.setQueue n c d q).Synced ∧
      (s.setQueue n c d q).net = { n with mem := n.mem.setQueue c d xs } := by
  have hxs : q.elements = xs := hq.elements_eq
  rw [CirNet.setQueue, hxs]
  exact ⟨h.update (hn ▸ .refl _) hq (.refl _), rfl⟩

/-- The steps with an operation on a queue. -/
def Local.queues (k : Choice κ α) : Local κ α → Prop
  | .sync _ _ => ∃ b, k = .poll b
  | .run _ _ _ _ pc => pc = .tryLp ∨ (∃ e, pc = .undeque e) ∨ pc = .enque
  | _ => False

/-- The other steps are those on lists, which they leave alone. -/
theorem cirStep_of_not_queues {t : τ} {k : Choice κ α} {s : CirNet κ τ α} {l : Local κ α}
    (hl : ¬ l.queues k) :
    cirStep t k s (.ok l) = (netStep t k s.net l).map fun r => (⟨r.1, s.queue⟩, .ok r.2) := by
  cases l with
  | sync x bevts =>
    cases k with
    | poll b => exact absurd ⟨b, rfl⟩ hl
    | _ => rfl
  | run role x h op pc =>
    cases pc with
    | tryLp => exact absurd (.inl rfl) hl
    | undeque e => exact absurd (.inr (.inl ⟨e, rfl⟩)) hl
    | enque => exact absurd (.inr (.inr rfl)) hl
    | _ => cases k <;> rfl
  | _ => cases k <;> rfl

theorem netStep_queue {t : τ} {k : Choice κ α} {n n' : Net κ τ α} {l l' : Local κ α}
    (hl : ¬ l.queues k) (h : netStep t k n l = some (n', l')) (ch : κ) (d : Side) :
    (n'.mem.chan ch).queue d = (n.mem.chan ch).queue d := by
  cases move_of_step h with
  | quiet hpc hm => exact hm.queue ch d
  | @poll x bevts m m' c d' q dropped hm hm' hq hdropped =>
    cases k with
    | poll b => exact absurd ⟨b, rfl⟩ hl
    | block => rcases bevts with _ | ⟨b, _ | ⟨b', bevts⟩⟩ <;> simp [netStep] at h
    | _ => simp [netStep] at h
  | deque | same | nobody => exact absurd (.inl rfl) hl
  | undeque e => exact absurd (.inr (.inl ⟨e, rfl⟩)) hl
  | enque => exact absurd (.inr (.inr rfl)) hl
  | _ => rfl

omit [DecidableEq τ] [DecidableEq α] in
theorem cleanAndChk_fst (m : Mem κ ℕ ℕ τ α) (c : κ) (d : Side) : (cleanAndChk m c d).1 =
    if (((m.chan c).queue d).dropWhile m.cleaner).isEmpty then
      m.setQueue c d (((m.chan c).queue d).dropWhile m.cleaner)
    else
      (m.setQueue c d (((m.chan c).queue d).dropWhile m.cleaner)).setPrio c
        ((m.chan c).prio + 1) := by
  unfold cleanAndChk
  dsimp only
  split <;> rfl

omit [DecidableEq α] in
theorem CirNet.Synced.poll {s s' : CirNet κ τ α} (h : s.Synced) {self : τ} {b : BaseEvt κ α}
    {r : Except Abort Unit} (ht : ¬ Tight (s.queue b.chan b.doitFn.theirs).size.toNat
      ((s.queue b.chan b.doitFn.theirs).elements.dropWhile s.net.mem.cleaner).length)
    (hs : s.poll self b = some (s', r)) :
    r = .ok () ∧ s'.Synced ∧
      (b.pollFn self s.net.mem).map (fun r => { s.net with mem := r.1 }) = some s'.net := by
  obtain ⟨m, hlock, hs⟩ := bind_eq_some_iff.1 hs
  have hm := sameQueues_getLock hlock
  obtain ⟨n, i, hq⟩ := h b.chan b.doitFn.theirs
  have hclean : m.cleaner = s.net.mem.cleaner := by
    funext e
    simp [Mem.cleaner, hm.txid]
  rw [hq.elements_eq, hq.size_eq, Int.toNat_natCast] at ht
  obtain ⟨q', hq', hholds⟩ := Queues.cleanHead_holds (m := m) hq (by rwa [hclean])
  simp only [hq', hholds.elements_eq] at hs
  obtain ⟨m', hrelease, heq⟩ := map_eq_some_iff.1 hs
  cases heq
  refine ⟨rfl, h.update hm hholds (.trans ?_ (sameQueues_releaseLock hrelease)), ?_⟩
  · split
    · exact .refl _
    · exact sameQueues_setChan rfl
  · have hempty : q'.isEmpty =
        (((s.net.mem.chan b.chan).queue b.doitFn.theirs).dropWhile s.net.mem.cleaner).isEmpty := by
      rw [Bool.eq_iff_iff, hholds.isEmpty_iff, List.isEmpty_iff, hclean]
    rw [hempty, hclean] at hrelease
    rw [BaseEvt.pollFn, hlock, bind_some]
    simp only [cleanAndChk_fst, hm.queue, hclean, hrelease, map_some]

/-- A step whose queue operation has room is a step on the lists that the queues hold. -/
theorem CirNet.Synced.step {s s' : CirNet κ τ α} (h : s.Synced) {t : τ} {k : Choice κ α}
    {l : Local κ α} {r : Except Abort (Local κ α)} (hroom : hasRoom k s l = true)
    (hs : cirStep t k s (.ok l) = some (s', r)) :
    ∃ l', r = .ok l' ∧ s'.Synced ∧ netStep t k s.net l = some (s'.net, l') := by
  by_cases hl : l.queues k
  swap
  · rw [cirStep_of_not_queues hl] at hs
    obtain ⟨⟨n, l'⟩, hstep, heq⟩ := map_eq_some_iff.1 hs
    cases heq
    exact ⟨l', rfl, fun ch d => (netStep_queue hl hstep ch d).symm ▸ h ch d, hstep⟩
  cases l with
  | sync x bevts =>
    obtain ⟨b, rfl⟩ := hl
    simp only [cirStep] at hs
    split_ifs at hs with hb
    obtain ⟨⟨s₁, r₁⟩, hpoll, heq⟩ := map_eq_some_iff.1 hs
    cases heq
    obtain ⟨rfl, hsync, hmap⟩ := h.poll (by simpa [hasRoom] using hroom) hpoll
    obtain ⟨r, hr, hnet⟩ := map_eq_some_iff.1 hmap
    refine ⟨_, rfl, hsync, ?_⟩
    simp [netStep, if_pos (List.contains_iff_mem.1 hb), hr, hnet]
  | run role x h' op pc =>
    rcases hl with rfl | ⟨e, rfl⟩ | rfl
    · obtain ⟨n, i, hq⟩ := h op.chan op.theirs
      obtain ⟨q', hq', hholds⟩ := Queues.cleanAndDeque_holds (m := s.net.mem) hq
        (by simpa [hasRoom, hq.elements_eq, hq.size_eq] using hroom)
      obtain ⟨hsync, hnet⟩ := h.setQueue (n := s.net) rfl hholds
      simp only [cirStep, hq', CirNet.after] at hs
      cases hs
      exact ⟨_, rfl, hsync, by rw [hnet]; rfl⟩
    · obtain ⟨n, i, hq⟩ := h op.chan op.theirs
      obtain ⟨q', hq', hholds⟩ := undeque_holds hq (by
        have := hroom
        simp [hasRoom, hq.elements_eq, hq.size_eq] at this
        omega) e
      obtain ⟨hsync, hnet⟩ := h.setQueue (n := s.net) rfl hholds
      simp only [cirStep, hq', CirNet.after] at hs
      cases hs
      exact ⟨_, rfl, hsync, by rw [hnet]; rfl⟩
    · obtain ⟨n, i, hq⟩ := h op.chan op.ours
      have hr : ¬ Tight n (((s.net.mem.chan op.chan).queue op.ours).rdropWhile
          s.net.mem.cleaner).length ∧ ¬ ((s.queue op.chan op.ours).rp = 0 ∧
            ((s.net.mem.chan op.chan).queue op.ours).all s.net.mem.cleaner = true) := by
        simpa [hasRoom, hq.elements_eq, hq.size_eq, imp_iff_not_or] using hroom
      obtain ⟨q', hq', hholds⟩ := Queues.cleanAndEnque_holds hq hr.1 hr.2 ⟨x, h', op.offer⟩
      obtain ⟨hsync, hnet⟩ :=
        h.setQueue (n := { s.net with exposed := x :: s.net.exposed }) rfl hholds
      simp only [cirStep, hq', CirNet.after] at hs
      cases hs
      exact ⟨_, rfl, hsync, by rw [hnet]; rfl⟩
  | _ => exact hl.elim

theorem Good.step {c : Config τ (CirNet κ τ α) (Except Abort (Local κ α))} (h : Good c) {t : τ}
    {k : Choice κ α} {s : CirNet κ τ α} {r : Except Abort (Local κ α)}
    (hroom : hasRoom k c.shared (running (c.loc t)) = true)
    (hs : cirStep t k c.shared (c.loc t) = some (s, r)) :
    Good (c.put t s r) ∧ netStep t k c.shared.net (running (c.loc t)) = some (s.net, running r) := by
  obtain ⟨l, hl⟩ := h.runs t
  rw [hl] at hs hroom ⊢
  obtain ⟨l', rfl, hsync, hstep⟩ := h.synced.step hroom hs
  refine ⟨⟨?_, hsync⟩, hstep⟩
  exact Config.forall_put (Q := fun l : Except Abort (Local κ α) => ∃ l', l = .ok l') ⟨l', rfl⟩ h.runs

/-- A run in which the queues have room is a run on lists. -/
theorem reachable_contents {c : Config τ (CirNet κ τ α) (Except Abort (Local κ α))}
    (h : (cirProcess κ τ α).ReachableWhile KeepsOffers (· = cirStart κ τ α) c) :
    Good c ∧ (netProcess κ τ α).ReachableWhile NotOwn Initial (contents c) := by
  refine h.simulation ?_ ?_
  · rintro c rfl
    exact ⟨⟨fun t => ⟨_, rfl⟩, fun ch d => ⟨2, 0, holdsAt_new⟩⟩, rfl, fun t => rfl⟩
  · rintro c t k s r ⟨hown, hroom⟩ hg hs
    obtain ⟨hg', hstep⟩ := hg.step hroom hs
    exact ⟨hg', hown, hstep⟩

end Step

/-- Thread `0` synchronises on a choice of receiving from channel `0` and of sending `5` to it, and
nobody else is there: the parasite of thread `1`, spawned first, waits, and that of thread `2` meets
it. -/
def selfChoice : List (ℕ × Choice ℕ ℕ) :=
  let go (t : ℕ) : ℕ × Choice ℕ ℕ := (t, .go)
  [(0, .sync [recvEvt 0, sendEvt 0 5]), (0, .block), (1, .spawn 0 (sendEvt 0 5)),
    (2, .spawn 0 (recvEvt 0)), go 1, go 1, go 1, go 1, go 2, go 2]

/-- The choice of `selfChoice`, with a receiver that waits: the sending parasite meets it, and the
receiving parasite comes too late and waits. -/
def selfChoiceMet : List (ℕ × Choice ℕ ℕ) :=
  let go (t : ℕ) : ℕ × Choice ℕ ℕ := (t, .go)
  [(3, .call (recv 0)), go 3, go 3, go 3, go 3, go 3, (0, .sync [recvEvt 0, sendEvt 0 5]),
    (0, .block), (1, .spawn 1 (sendEvt 0 5)), go 1, go 1, go 1, go 1, go 1, go 1, go 1, go 1, go 1,
    go 1, (2, .spawn 1 (recvEvt 0)), go 2, go 2, go 2, go 2, go 3, go 3, go 0]

end Channel
end MultiMLton
