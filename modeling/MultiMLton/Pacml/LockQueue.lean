import MultiMLton.Pacml.CircularQueue
import MultiMLton.Pacml.Lock

/-!
# The lock with the queue that it has

`lock.sml` keeps the sleeping threads in a `CirQueue`.  Its `deque` may leave the write pointer
outside the array it shrinks to (`CirQueue.QuarterFull`): the next `enque` then raises `Subscript`
with the queue claimed.

* `CirLock`, `cirStep`: the code of `Lock.step` on a `CirQueue`; a thread whose queue operation
  raises or does not return stays there, at an `Abort`;
* `contents`: such a lock seen as one whose queue is a list;
* `Good.step`: a step whose `deque` is not one of these is seen as a step of the lock on a list;
* `cmlLock_mutex_and_wakeup`: in every run of such steps the lock is a re-entrant mutex that loses
  no wake-up;
* `cmlLock_release_window`: between the write that frees the lock and `enqueHost` nobody is readied.
-/

namespace MultiMLton.Lock

open Interleave

/-- The references of `RepTypes.LOCK`, and the threads that the scheduler has been given back. -/
structure CirLock where
  state : ℤ
  lockId : ℤ
  count : ℤ
  que : CirQueue LockId
  ready : List LockId
  deriving DecidableEq

/-- `initCmlLock ()`. -/
def initCirLock : CirLock := ⟨FREE, -1, 0, .new, []⟩

/-- The lock with its queue as a list. -/
def CirLock.contents (s : CirLock) : LockMem := ⟨s.state, s.lockId, s.count, s.que.elements, s.ready⟩

/-- One atomic step of thread `t`. -/
def cirStep (t : LockId) (a : Client) (s : CirLock) :
    Except Abort Local → Option (CirLock × Except Abort Local)
  | .error _ => none
  | .ok l =>
    match l.pc with
    | .yieldEnque =>
      match s.que.enque (some t) with
      | .ok q => some ({ s with que := q }, .ok { l with pc := .yieldLocked })
      | .error e => some (s, .error e)
    | .relDeque =>
      if s.que.isEmpty then some (s, .ok { l with pc := .relFree none })
      else
        match s.que.deque with
        | .ok (w, q) => some ({ s with que := q }, .ok { l with pc := .relFree w })
        | .error e => some (s, .error e)
    -- the other steps do not look at the queue
    | _ => (step t a s.contents l).map fun r =>
      (⟨r.1.state, r.1.lockId, r.1.count, s.que, r.1.ready⟩, .ok r.2)

/-- The threads that share one lock. -/
def cirProcess : Process LockId Client CirLock (Except Abort Local) := ⟨cirStep⟩

/-- A new lock, and every thread outside its code. -/
def cirStart : Config LockId CirLock (Except Abort Local) :=
  ⟨initCirLock, fun _ => .ok ⟨.idle, 0, false⟩⟩

/-- The step of thread `a.1` is not a `deque` that leaves a quarter of a buffer of eight or more
cells. -/
def keepsRoom (c : Config LockId CirLock (Except Abort Local)) (a : LockId × Client) : Bool :=
  match c.loc a.1 with
  | .ok l => l.pc ≠ .relDeque || !decide (CirQueue.QuarterFull c.shared.que)
  | .error _ => true

/-- The configurations that threads with distinct lock ids reach by such steps on one lock. -/
abbrev CirReachable : Config LockId CirLock (Except Abort Local) → Prop :=
  cirProcess.ReachableWhile (fun c a => keepsRoom c a = true) (· = cirStart)

/-! ### The lock on a list -/

/-- Where the code of a thread is; a thread that has been stopped is shown outside it. -/
def running (l : Except Abort Local) : Local := l.toOption.getD ⟨.idle, 0, false⟩

/-- The same threads and lock, with the queue as a list. -/
def contents (c : Config LockId CirLock (Except Abort Local)) : Config LockId LockMem Local :=
  c.map CirLock.contents running

/-- No thread has been stopped, and the queue is well formed. -/
structure Good (c : Config LockId CirLock (Except Abort Local)) : Prop where
  runs : ∀ t, ∃ l, c.loc t = .ok l
  queue : ∃ n r, c.shared.que.HoldsAt n r c.shared.que.elements ∧
    CirQueue.Snug n c.shared.que.elements

variable {c : Config LockId CirLock (Except Abort Local)} {t : LockId} {a : Client}
  {s : CirLock} {l : Except Abort Local}

theorem Good.isEmpty_iff (h : Good c) :
    c.shared.que.isEmpty = true ↔ (contents c).shared.que = [] := by
  obtain ⟨n, r, hq, -⟩ := h.queue
  exact hq.isEmpty_iff

/-- One step on the queue that the code uses is one step on the list that it holds. -/
theorem cirStep_contents {l₀ : Local} {n r : ℕ} {xs : List LockId} (hq : s.que.HoldsAt n r xs)
    (hn : CirQueue.Snug n xs)
    (hk : l₀.pc = .relDeque → ¬ CirQueue.QuarterFull s.que) {s' : CirLock}
    (hs : cirStep t a s (.ok l₀) = some (s', l)) : ∃ l', l = .ok l' ∧
      step t a s.contents l₀ = some (s'.contents, l') ∧
      ∃ n r ys, s'.que.HoldsAt n r ys ∧ CirQueue.Snug n ys := by
  have hxs := hq.elements_eq
  by_cases he : l₀.pc = .yieldEnque
  · obtain ⟨q', n', r', heq, hq', hn'⟩ := CirQueue.enque_snug hq hn t
    simp only [cirStep, he, heq] at hs
    cases hs
    refine ⟨_, rfl, ?_, n', r', _, hq', hn'⟩
    simp [step, he, CirLock.contents, hxs, hq'.elements_eq]
  by_cases hd : l₀.pc = .relDeque
  · by_cases hempty : s.que.isEmpty = true
    · have hnil : xs = [] := hq.isEmpty_iff.1 hempty
      simp only [cirStep, hd, if_pos hempty] at hs
      cases hs
      refine ⟨_, rfl, ?_, n, r, _, hq, hn⟩
      simp [step, hd, CirLock.contents, hxs, hnil]
    · obtain ⟨q', n', r', heq, hq', hn'⟩ := CirQueue.deque_snug hq hn (hk hd)
      simp only [cirStep, hd, if_neg hempty, heq] at hs
      cases hs
      refine ⟨_, rfl, ?_, n', r', _, hq', hn'⟩
      simp [step, hd, CirLock.contents, hxs, hq'.elements_eq]
  have hother : cirStep t a s (.ok l₀) = (step t a s.contents l₀).map fun r =>
      (⟨r.1.state, r.1.lockId, r.1.count, s.que, r.1.ready⟩, .ok r.2) := by
    rcases l₀ with ⟨pc, d, w⟩
    cases pc <;> first | rfl | exact absurd rfl he | exact absurd rfl hd
  rw [hother] at hs
  obtain ⟨⟨m, l'⟩, hstep, heq⟩ := Option.map_eq_some_iff.1 hs
  cases heq
  have hque : m.que = s.que.elements := (step_que hstep).resolve_right (by simp [he, hd])
  refine ⟨l', rfl, ?_, n, r, xs, hq, hn⟩
  rw [hstep, CirLock.contents, ← hque]

theorem Good.step (h : Good c) (hk : keepsRoom c (t, a) = true)
    (hs : cirStep t a c.shared (c.loc t) = some (s, l)) : Good (c.put t s l) ∧ ∃ l', l = .ok l' ∧
      step t a (contents c).shared ((contents c).loc t) = some (s.contents, l') := by
  obtain ⟨l₀, hl⟩ := h.runs t
  obtain ⟨n, r, hq, hn⟩ := h.queue
  have hroom : l₀.pc = .relDeque → ¬ CirQueue.QuarterFull c.shared.que := by
    simp only [keepsRoom, hl] at hk
    intro hpc
    simpa [hpc] using hk
  rw [hl] at hs
  obtain ⟨l', rfl, hstep, n', r', ys, hq', hn'⟩ := cirStep_contents hq hn hroom hs
  refine ⟨⟨?_, n', r', ?_⟩, l', rfl, ?_⟩
  · exact Config.forall_put (Q := fun l : Except Abort Local => ∃ l', l = .ok l') ⟨l', rfl⟩ h.runs
  · rw [Config.put_shared, hq'.elements_eq]
    exact ⟨hq', hn'⟩
  · rw [← hstep]
    show Lock.step t a c.shared.contents (running (c.loc t)) = _
    rw [hl]
    rfl

/-- A run on the queue that the code uses is a run on a list. -/
theorem CirReachable.contents (h : CirReachable c) : Good c ∧ Reachable (contents c) := by
  refine h.simulation (D := fun _ _ => True) ?_ ?_
  · rintro c rfl
    refine ⟨⟨fun t => ⟨_, rfl⟩, 2, 0, CirQueue.holdsAt_new, ⟨0, rfl⟩, .inl rfl⟩, rfl, fun t => rfl⟩
  · intro c t a s l hk hg hs
    obtain ⟨hg', l', rfl, hstep⟩ := hg.step hk hs
    exact ⟨hg', trivial, hstep⟩

/-- **The CML lock is a re-entrant mutex that loses no wake-up**, in every configuration that
threads reach while no `deque` leaves a quarter of a buffer of eight or more cells: no operation on
its queue raises or fails to return; at most one thread owns the lock; `UnlockError` is not raised;
a thread owns the lock as long as it has acquisitions left to release, up to the write that frees
the lock in the last of these releases, and until then the lock is not free; and while the lock is
free with a thread on its queue, some thread that has waited is about to try for it. -/
theorem cmlLock_mutex_and_wakeup {c : Config LockId CirLock (Except Abort Local)}
    (h : CirReachable c) :
    (∀ t, ∃ l, c.loc t = .ok l) ∧
      (∀ t u, (running (c.loc t)).owns → (running (c.loc u)).owns → t = u) ∧
      (∀ t kind, (running (c.loc t)).pc ≠ .unlockError kind) ∧
      (∀ t, 0 < (running (c.loc t)).depth → (running (c.loc t)).owns ∨
        ((running (c.loc t)).depth = 1 ∧ ∃ w, (running (c.loc t)).pc = .relReady w)) ∧
      (∀ t a s l, keepsRoom c (t, a) = true → cirStep t a c.shared (c.loc t) = some (s, l) →
        (running (c.loc t)).owns → ¬ (running l).owns →
        (running (c.loc t)).depth = 1 ∧ ∃ w, (running (c.loc t)).pc = .relFree w) ∧
      (∀ t, (running (c.loc t)).owns → c.shared.state ≠ FREE) ∧
      (c.shared.state = FREE → c.shared.que.isEmpty = false → ∃ w, Woken (contents c) w) := by
  obtain ⟨hgood, hr⟩ := h.contents
  obtain ⟨hone, herr, hdepth, hstep, hfree, hwoken⟩ := hr.mutex_and_wakeup
  refine ⟨hgood.runs, hone, herr, hdepth, fun t a s l hk hs ho ho' => ?_, hfree, fun hf hq => ?_⟩
  · obtain ⟨-, l', rfl, hs'⟩ := hgood.step hk hs
    exact hstep t a s.contents l' hs' ho ho'
  · exact hwoken hf fun hnil => by simp [hgood.isEmpty_iff.2 hnil] at hq

/-! ### The window of a release -/

/-- Thread `1` takes the lock, `2` and `3` fail to and go to sleep, and `1` releases it up to the
write that frees it. -/
def releaseWindow : List (LockId × Client) :=
  List.replicate 5 (⟨1, by decide⟩, .get) ++ List.replicate 107 (⟨2, by decide⟩, .get) ++
    List.replicate 107 (⟨3, by decide⟩, .get) ++ List.replicate 9 (⟨1, by decide⟩, .release)

theorem releaseWindow_ends :
    (cirProcess.runWhile (fun c a => keepsRoom c a = true) releaseWindow cirStart).map (fun c =>
        (c.shared, c.loc ⟨1, by decide⟩, c.loc ⟨2, by decide⟩, c.loc ⟨3, by decide⟩)) =
      some (⟨FREE, -1, 0, ⟨[some ⟨3, by decide⟩, none], 2, 0, 1⟩, []⟩,
        .ok ⟨.relReady ⟨2, by decide⟩, 1, false⟩, .ok ⟨.asleep, 0, false⟩,
        .ok ⟨.asleep, 0, false⟩) := by
  decide +kernel

/-- In the window of the release the sleeper in the hand is the one that is about to try. -/
theorem cmlLock_mutex_and_wakeup_window :
    ∃ c, CirReachable c ∧ (∀ t, ∃ l, c.loc t = .ok l) ∧ c.shared.state = FREE ∧
      c.shared.que.isEmpty = false ∧ ∃ w, Woken (contents c) w := by
  obtain ⟨c, hc, he⟩ := Option.map_eq_some_iff.1 releaseWindow_ends
  have hshared : c.shared = _ := (Prod.mk.inj he).1
  have hr : CirReachable c := Process.reachableWhile_of_runWhile (.start rfl) hc
  have hall := cmlLock_mutex_and_wakeup hr
  exact ⟨c, hr, hall.1, by rw [hshared], by rw [hshared]; rfl,
    hall.2.2.2.2.2.2 (by rw [hshared]) (by rw [hshared]; rfl)⟩

/-- Between the write that frees the lock and the readying of the thread taken off the queue, the
lock is free, its queue is not empty, and no thread has been readied or retries. -/
theorem cmlLock_release_window :
    ∃ c, CirReachable c ∧ c.shared.state = FREE ∧ c.shared.que.isEmpty = false ∧
      ∀ w, w ∉ c.shared.ready ∧ ¬ (running (c.loc w)).retries := by
  obtain ⟨c, hc, he⟩ := Option.map_eq_some_iff.1 releaseWindow_ends
  simp only [Prod.mk.injEq] at he
  obtain ⟨hs, h1, h2, h3⟩ := he
  refine ⟨c, Process.reachableWhile_of_runWhile (.start rfl) hc, by rw [hs], by rw [hs]; rfl,
    fun w => ⟨by simp [hs], ?_⟩⟩
  by_cases hw : w ∈ releaseWindow.map Prod.fst
  · simp only [releaseWindow, List.map_append, List.map_replicate, List.mem_append,
      List.mem_replicate] at hw
    rcases hw with ((⟨-, rfl⟩ | ⟨-, rfl⟩) | ⟨-, rfl⟩) | ⟨-, rfl⟩
    · simp [h1, running, Except.toOption, Local.retries]
    · simp [h2, running, Except.toOption, Local.retries]
    · simp [h3, running, Except.toOption, Local.retries]
    · simp [h1, running, Except.toOption, Local.retries]
  · rw [Process.run_loc_of_notMem (Process.run_of_runWhile hc) hw]
    exact id

/-- Threads `2` to `5` go to sleep, `1` and `2` release the lock, which leaves two of them in a
buffer of eight cells, and `6` comes while `3` has the lock. -/
def quarterFull : List (LockId × Client) :=
  List.replicate 5 (⟨1, by decide⟩, .get) ++ List.replicate 107 (⟨2, by decide⟩, .get) ++
    List.replicate 107 (⟨3, by decide⟩, .get) ++ List.replicate 107 (⟨4, by decide⟩, .get) ++
    List.replicate 107 (⟨5, by decide⟩, .get) ++ List.replicate 10 (⟨1, by decide⟩, .release) ++
    List.replicate 5 (⟨2, by decide⟩, .get) ++ List.replicate 10 (⟨2, by decide⟩, .release) ++
    List.replicate 5 (⟨3, by decide⟩, .get) ++ List.replicate 106 (⟨6, by decide⟩, .get)

-- without the condition: the `enque` of thread `6` raises with the queue claimed
example : (cirProcess.run quarterFull cirStart).map
    (fun c => (c.shared.state, c.shared.que, c.loc ⟨6, by decide⟩)) =
      some (CLAIMED, ⟨[some ⟨4, by decide⟩, some ⟨5, by decide⟩], 2, 0, 2⟩, .error .subscript) := by
  decide +kernel

end MultiMLton.Lock
