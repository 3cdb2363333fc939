import MultiMLton.Pacml.Lock

/-!
# Releasing a lock that one does not hold

`releaseCmlLock` raises `UnlockError` in a thread that does not hold the lock: `Kind2` when it
sees neither `LOCKED` nor `CLAIMED`, and `Kind1` when it has claimed the queue and then finds
another holder in `lockId`. In the second case it does not take its claim back.

* `alone`: the steps of a thread that runs by itself, here through one call of `releaseCmlLock`;
* `alone_locked`, `alone_claimed`, `alone_other`: how the call goes on each value of `state`;
* `releaseCmlLock_failureAtomic_iff`: when it raises the exception and leaves the lock alone;
* `claimed_forever`, `unlockError_locks_out`: what the others see once the claim has been left behind.
-/

namespace MultiMLton.Lock

open Interleave

/-- `n` steps of thread `t` with nobody else running. -/
def alone (t : LockId) : ℕ → LockMem × Local → Option (LockMem × Local)
  | 0, p => some p
  | n + 1, p => (step t .release p.1 p.2).bind (alone t n)

theorem alone_add (t : LockId) (n k : ℕ) (p : LockMem × Local) :
    alone t (n + k) p = (alone t n p).bind (alone t k) := by
  induction n generalizing p with
  | zero => rw [Nat.zero_add]; rfl
  | succ n ih =>
    rw [Nat.succ_add, alone, alone, Option.bind_assoc]
    congr 1
    funext p'
    exact ih p'

/-- A thread that runs alone stops at one place only. -/
theorem alone_stop_unique {t : LockId} {n k : ℕ} {p a b : LockMem × Local}
    (ha : alone t n p = some a) (hb : alone t k p = some b)
    (hsa : step t .release a.1 a.2 = none) (hsb : step t .release b.1 b.2 = none) : a = b := by
  -- no step is left after the first stop
  have hstop : ∀ {a : LockMem × Local}, step t .release a.1 a.2 = none → ∀ i b,
      alone t i a = some b → a = b := by
    intro a hs i b hb
    cases i with
    | zero => exact Option.some.inj hb
    | succ i =>
      rw [alone, hs] at hb
      cases hb
  rcases Nat.le_total n k with hle | hle
  · obtain ⟨i, rfl⟩ := Nat.exists_eq_add_of_le hle
    rw [alone_add, ha] at hb
    exact hstop hsa i b hb
  · obtain ⟨i, rfl⟩ := Nat.exists_eq_add_of_le hle
    rw [alone_add, hb] at ha
    exact (hstop hsb i a ha).symm

/-! ### One call on each value of `state` -/

variable {t : LockId} {m : LockMem}

theorem alone_relTest (h : m.lockId ≠ t) (l : Local) (n : ℕ) :
    alone t (n + 1) (m, { l with pc := .relTest }) =
      alone t n (m, { l with pc := .relCas casStart }) := by
  rw [alone]
  simp [step, h]

/-- The `cas` sees a value other than `LOCKED` on every try. -/
theorem alone_relCas (hs : m.state ≠ LOCKED) (l : Local) (n : ℕ) :
    ∀ i, alone t (i + 1 + n) (m, { l with pc := .relCas (.loop i) }) =
      alone t n (m, { l with pc :=
        if m.state = CLAIMED then .relTest else .unlockError "Kind2" }) := by
  intro i
  induction i with
  | zero =>
    rw [Nat.zero_add, Nat.add_comm, alone]
    simp [step, casStep, hs]
  | succ i ih =>
    rw [← ih, show i + 1 + 1 + n = (i + 1 + n) + 1 by omega, alone]
    simp [step, casStep, hs]

/-- On a locked lock the caller claims the queue, sees that it is not the holder and raises the
exception with `state` still `CLAIMED`. -/
theorem alone_locked (h : m.lockId ≠ t) (hs : m.state = LOCKED) (l : Local) :
    alone t 4 (m, { l with pc := .relTest }) =
      some ({ m with state := CLAIMED }, { l with pc := .unlockError "Kind1" }) := by
  rw [alone_relTest h, casStart]
  simp [alone, step, casStep, hs, h]

/-- On a lock that is neither locked nor claimed the exception leaves everything as it was. -/
theorem alone_other (h : m.lockId ≠ t) (hl : m.state ≠ LOCKED) (hc : m.state ≠ CLAIMED)
    (l : Local) :
    alone t 102 (m, { l with pc := .relTest }) =
      some (m, { l with pc := .unlockError "Kind2" }) := by
  rw [alone_relTest h, casStart, show 101 = 100 + 1 + 0 from rfl, alone_relCas hl l 0 100,
    if_neg hc, alone]

/-- The program points of a call that waits for somebody else's claim. -/
def Local.awaits (l : Local) : Prop :=
  l.pc = .relTest ∨ ∃ i, l.pc = .relCas (.loop i)

/-- On a claimed lock the caller starts again and again. -/
theorem alone_claimed (h : m.lockId ≠ t) (hs : m.state = CLAIMED) (n : ℕ) :
    ∀ l : Local, l.awaits → ∃ l' : Local, alone t n (m, l) = some (m, l') ∧ l'.awaits := by
  induction n with
  | zero => exact fun l hl => ⟨l, rfl, hl⟩
  | succ n ih =>
    intro l hl
    have hlocked : m.state ≠ LOCKED := by rw [hs]; decide
    obtain ⟨l', hstep, hl'⟩ : ∃ l' : Local, step t .release m l = some (m, l') ∧ l'.awaits := by
      rcases l with ⟨pc, d, w⟩
      rcases hl with rfl | ⟨i, rfl⟩
      · exact ⟨⟨.relCas casStart, d, w⟩, by simp [step, h], .inr ⟨100, rfl⟩⟩
      · cases i with
        | zero =>
          exact ⟨⟨.relTest, d, w⟩,
            by simp only [step, casStep, if_neg hlocked, if_pos hs], .inl rfl⟩
        | succ i =>
          exact ⟨⟨.relCas (.loop i), d, w⟩, by simp [step, casStep, hlocked], .inr ⟨i, rfl⟩⟩
    obtain ⟨l'', hrest, hl''⟩ := ih l' hl'
    exact ⟨l'', by rw [alone, hstep]; exact hrest, hl''⟩

/-! ### Failure atomicity -/

/-- The call raises `UnlockError` and leaves the lock as it was. -/
def FailureAtomic (t : LockId) (m : LockMem) (l : Local) : Prop :=
  ∃ n kind, alone t n (m, { l with pc := .relTest }) = some (m, { l with pc := .unlockError kind })

/-- **A release by another thread is failure-atomic** only where the lock is neither locked nor
claimed. -/
theorem releaseCmlLock_failureAtomic_iff (h : m.lockId ≠ t) (l : Local) :
    FailureAtomic t m l ↔ m.state ≠ LOCKED ∧ m.state ≠ CLAIMED := by
  constructor
  · rintro ⟨n, kind, hn⟩
    constructor
    · intro hs
      have heq := alone_stop_unique hn (alone_locked h hs l) rfl rfl
      have hstate : m.state = CLAIMED := congrArg (fun p => p.1.state) heq
      rw [hs] at hstate
      exact absurd hstate (by decide)
    · intro hs
      obtain ⟨l', hn', hl'⟩ := alone_claimed h hs n { l with pc := .relTest } (.inl rfl)
      rw [hn] at hn'
      obtain rfl : { l with pc := .unlockError kind } = l' :=
        congrArg Prod.snd (Option.some.inj hn')
      rcases hl' with hpc | ⟨i, hpc⟩ <;> cases hpc
  · rintro ⟨hl, hc⟩
    exact ⟨102, "Kind2", alone_other h hl hc l⟩

theorem releaseCmlLock_free :
    FailureAtomic ⟨7, by decide⟩ ⟨FREE, -1, 0, [], []⟩ ⟨.idle, 0, false⟩ :=
  (releaseCmlLock_failureAtomic_iff (by decide) _).2 ⟨by decide, by decide⟩

/-- Thread `7` on the lock that thread `3` holds. -/
theorem releaseCmlLock_not_failureAtomic :
    ¬ FailureAtomic ⟨7, by decide⟩ ⟨LOCKED, 3, 0, [], []⟩ ⟨.idle, 0, false⟩ := by
  rintro ⟨n, kind, hn⟩
  have hlocked := alone_locked (t := ⟨7, by decide⟩) (m := ⟨LOCKED, 3, 0, [], []⟩) (by decide) rfl
    ⟨.idle, 0, false⟩
  have hstate : LOCKED = CLAIMED :=
    congrArg (fun p => p.1.state) (alone_stop_unique hn hlocked rfl rfl)
  exact absurd hstate (by decide)

/-! ### What is left behind -/

/-- A claim without a thread behind it. -/
def Abandoned (c : Config LockId LockMem Local) : Prop :=
  c.shared.state = CLAIMED ∧ ∀ u, ¬ (c.loc u).claims

/-- What a failed release on a lock whose queue nobody has claimed leaves behind. -/
theorem abandoned_of_unlockError {c : Config LockId LockMem Local} (hk : ∀ u, ¬ (c.loc u).claims)
    (h : c.shared.lockId ≠ t) (hs : c.shared.state = LOCKED) (l : Local) :
    ∃ s l', alone t 4 (c.shared, { l with pc := .relTest }) = some (s, l') ∧
      Abandoned (c.put t s l') := by
  refine ⟨_, _, alone_locked h hs l, rfl, fun u => ?_⟩
  by_cases hu : u = t
  · subst hu
    rw [Config.put_loc_self]
    exact id
  · rw [Config.put_loc_of_ne hu]
    exact hk u

/-- A `cas` for another value leaves the claim where it is. -/
theorem casStep_claimed {v1 : ℤ} (h : CLAIMED ≠ v1) (v2 : ℤ) (k : CasPc) :
    (∃ k', casStep v1 v2 CLAIMED k = (CLAIMED, .inl k')) ∨
      casStep v1 v2 CLAIMED k = (CLAIMED, .inr CLAIMED) := by
  have := casStep_cases v1 v2 CLAIMED k
  rwa [if_neg h] at this

/-- No thread can take the lock, or claim it to free it or to wait for it. -/
theorem Abandoned.step {c : Config LockId LockMem Local} {u : LockId} {a : Client} {s : LockMem}
    {l : Local} (h : Abandoned c) (hs : step u a c.shared (c.loc u) = some (s, l)) :
    s.state = CLAIMED ∧ ¬ l.claims ∧ l.pc ≠ .getOwn := by
  obtain ⟨hstate, hclaims⟩ := h
  have hclaim := hclaims u
  rcases hl : c.loc u with ⟨pc, d, w⟩
  rw [hl] at hs hclaim
  cases pc
  case getCas k =>
    rcases casStep_claimed (show CLAIMED ≠ FREE by decide) LOCKED k with ⟨k', hk⟩ | hk
    all_goals
      obtain ⟨rfl, rfl⟩ : _ = s ∧ _ = l := by simpa [Lock.step, hstate, hk] using hs
      simp [Local.claims, CLAIMED, FREE]
  case enqueCas k | relCas k =>
    rcases casStep_claimed (show CLAIMED ≠ LOCKED by decide) CLAIMED k with ⟨k', hk⟩ | hk
    all_goals
      obtain ⟨rfl, rfl⟩ : _ = s ∧ _ = l := by simpa [Lock.step, hstate, hk] using hs
      simp [Local.claims, CLAIMED, LOCKED]
  case yieldEnque | yieldLocked | relOwner | relDisown | relDeque | relFree =>
    exact (hclaim trivial).elim
  case unlockError => simp [Lock.step] at hs
  case idle =>
    cases a
    · obtain ⟨rfl, rfl⟩ : c.shared = s ∧ _ = l := by simpa [Lock.step] using hs
      exact ⟨hstate, id, by simp⟩
    · obtain ⟨_, rfl, rfl⟩ : 0 < d ∧ c.shared = s ∧ _ = l := by simpa [Lock.step] using hs
      exact ⟨hstate, id, by simp⟩
  case asleep =>
    obtain ⟨_, rfl, rfl⟩ : u ∈ c.shared.ready ∧ _ = s ∧ _ = l := by simpa [Lock.step] using hs
    exact ⟨hstate, id, by simp⟩
  case getTest | relTest | relCount =>
    obtain ⟨rfl, rfl⟩ : c.shared = s ∧ _ = l := by simpa [Lock.step] using hs
    split_ifs <;> exact ⟨hstate, id, by simp⟩
  all_goals
    obtain ⟨rfl, rfl⟩ : _ = s ∧ _ = l := by simpa [Lock.step] using hs
    exact ⟨hstate, id, by simp⟩

/-- **The claim is never taken back**: whatever the threads do from then on, `state` stays
`CLAIMED`, the queue and the lock are freed by nobody, and no further thread takes the lock. -/
theorem claimed_forever {c c' : Config LockId LockMem Local} (h : Abandoned c)
    (hr : lockProcess.Reachable (fun c₀ => c₀ = c) c') :
    Abandoned c' ∧ ∀ u, (c'.loc u).pc = .getOwn → (c.loc u).pc = .getOwn := by
  refine hr.invariant (I := fun c' => Abandoned c' ∧
    ∀ u, (c'.loc u).pc = .getOwn → (c.loc u).pc = .getOwn) ?_ ?_
  · rintro c₀ rfl
    exact ⟨h, fun _ => id⟩
  · rintro c₀ u a s l - - ⟨h₀, hown⟩ hs
    obtain ⟨hstate, hclaim, hpc⟩ := h₀.step hs
    refine ⟨⟨hstate, fun v => ?_⟩, fun v hv => ?_⟩
    · by_cases huv : v = u
      · subst huv
        rwa [Config.put_loc_self]
      · rw [Config.put_loc_of_ne huv]
        exact h₀.2 v
    · by_cases huv : v = u
      · subst huv
        rw [Config.put_loc_self] at hv
        exact absurd hv hpc
      · rw [Config.put_loc_of_ne huv] at hv
        exact hown v hv

/-- **A release by another thread locks everybody out** if the lock is taken and its queue free: the
call raises the exception, and whatever is done from then on, no further thread takes the lock. -/
theorem unlockError_locks_out {c : Config LockId LockMem Local} (hk : ∀ u, ¬ (c.loc u).claims)
    (h : c.shared.lockId ≠ t) (hs : c.shared.state = LOCKED) (l : Local) :
    ∃ s l', alone t 4 (c.shared, { l with pc := .relTest }) = some (s, l') ∧
      l'.pc = .unlockError "Kind1" ∧
      ∀ c', lockProcess.Reachable (fun c₀ => c₀ = c.put t s l') c' → c'.shared.state = CLAIMED ∧
        ∀ u, (c'.loc u).pc = .getOwn → (c.loc u).pc = .getOwn := by
  obtain ⟨s, l', hrun, habandoned⟩ := abandoned_of_unlockError hk h hs l
  have hpc : l'.pc = .unlockError "Kind1" :=
    congrArg (fun p => p.2.pc) (Option.some.inj (hrun.symm.trans (alone_locked h hs l)))
  refine ⟨s, l', hrun, hpc, fun c' hr => ?_⟩
  obtain ⟨hc', hown⟩ := claimed_forever habandoned hr
  refine ⟨hc'.1, fun u hu => ?_⟩
  by_cases hut : u = t
  · subst hut
    have hu := hown u hu
    rw [Config.put_loc_self, hpc] at hu
    cases hu
  · rw [← Config.put_loc_of_ne (s := s) (l := l') hut]
    exact hown u hu

theorem unlockError_locks_out_seven :
    ∃ s l', alone ⟨7, by decide⟩ 4 (⟨LOCKED, 3, 0, [], []⟩, ⟨.relTest, 0, false⟩) = some (s, l') ∧
      l'.pc = .unlockError "Kind1" ∧
      ∀ c', lockProcess.Reachable (fun c₀ => c₀ = Config.put
        ⟨⟨LOCKED, 3, 0, [], []⟩, fun _ => ⟨.idle, 0, false⟩⟩ ⟨7, by decide⟩ s l') c' →
        c'.shared.state = CLAIMED ∧ ∀ u, (c'.loc u).pc = .getOwn → Pc.idle = .getOwn :=
  unlockError_locks_out (t := ⟨7, by decide⟩)
    (c := ⟨⟨LOCKED, 3, 0, [], []⟩, fun _ => ⟨.idle, 0, false⟩⟩) (fun _ => id) (by decide) rfl
    ⟨.idle, 0, false⟩

end MultiMLton.Lock
