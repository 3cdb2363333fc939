import Mathlib
import MultiMLton.Lib.Interleave

/-!
# Work sent across processors

The locks of the scheduler queues of `gc/scheduler-queue.c`, and what goes through the queues and
through the arrays of closures that are transferred directly.  A processor may take a lock again
while it holds it; emptiness is read without the lock; a closure that has been transferred is copied
to a local array and enqueued once more by its target.

* `Lock`, `Shared`, `Local`, `Job`, `step`: the accesses to a lock one by one, and inside the lock
  the reading and the writing of a queue;
* `LockInv`: who holds a lock, and how often;
* `WorkInv`: where a thread or a closure is;
* `GC_sqClean`;
* `work_kept`.

What the circular buffers do with the list of a queue is `schedulerQueue_refines_fifo_iff`.
`GC_sqIsEmptyPrio` and `GC_sqIsEmpty` are a flush and readings that change nothing.
-/

namespace MultiMLton.QueueLock

open Interleave List
open Function (update update_eq_self update_of_ne update_self)

universe u

/-! ### The code -/

/-- `id` is `none` for `-1`. -/
structure Lock (n : ℕ) where
  count : ℕ
  id : Option (Fin n)

/-- The queue of a processor that a thread is enqueued on, or the array of closures. -/
inductive Channel
  | queue (i : Fin 3)
  | closure
  deriving DecidableEq

/-- A thread or a closure that has been sent; `seq` counts what the sender has sent. -/
structure Item (n : ℕ) (α : Type u) where
  sender : Fin n
  seq : ℕ
  target : Fin n
  channel : Channel
  thread : α

/-- `sent` and `dequeued` record what has happened. -/
structure Shared (n : ℕ) (α : Type u) where
  schedulerLocks : Fin n → Lock n
  schedulerQueue : Fin n → Fin 3 → List (Item n α)
  directCloXferArray : Fin n → List (Item n α)
  sent : List (Item n α)
  dequeued : Fin n → Fin 3 → List (Item n α)

/-- What a processor takes a lock for. -/
inductive Job (n : ℕ) (α : Type u)
  /-- `GC_sqEnque (s, p, proc, i)` -/
  | enque (proc : Fin n) (i : Fin 3) (p : α)
  /-- `GC_addToDirectCloXferArray (s, c, proc)` -/
  | transfer (proc : Fin n) (c : α)
  /-- `GC_sqDeque (s, i)` -/
  | deque (i : Fin 3)
  /-- The first part of `flushFromDirectCloXferArray`. -/
  | take
  /-- The `GC_sqEnque` of its loop. -/
  | flushed
  /-- `GC_sqAcquireLock (s, proc)` from elsewhere -/
  | hold (proc : Fin n)

/-- The processor whose queues and lock are meant. -/
def Job.proc {n : ℕ} {α : Type u} (me : Fin n) : Job n α → Fin n
  | .enque proc _ _ => proc
  | .transfer proc _ => proc
  | .deque _ => me
  | .take => me
  | .flushed => me
  | .hold proc => proc

inductive PC (n : ℕ) (α : Type u)
  | idle
  /-- `lock->id == (int)s->procId` -/
  | test (job : Job n α)
  /-- `lock->count++` -/
  | bump (job : Job n α)
  /-- `if (lock->id >= 0) goto AGAIN;` -/
  | again (job : Job n α)
  /-- `Parallel_compareAndSwap ((pointer)(&lock->id), -1, s->procId)` -/
  | swap (job : Job n α)
  /-- inside the lock, before the queue is read -/
  | load (job : Job n α)
  /-- inside the lock, the queue has been read -/
  | store (job : Job n α) (seen : List (Item n α))
  /-- `if (lock->count > 0)` -/
  | release (proc : Fin n)
  /-- `--lock->count` -/
  | decrement (proc : Fin n)
  /-- `lock->id = -1` -/
  | free (proc : Fin n)

/-- `held` are the locks acquired from elsewhere, `next` counts what has been sent. -/
structure Local (n : ℕ) (α : Type u) where
  pc : PC n α
  held : List (Fin n)
  localArray : List (Item n α)
  next : ℕ

/-- What a processor does next when it is idle; otherwise it goes on. -/
inductive Act (n : ℕ) (α : Type u)
  | call (job : Job n α)
  | release (proc : Fin n)
  | go

variable {n : ℕ} {α : Type u}

def setLock (s : Shared n α) (t : Fin n) (lock : Lock n) : Shared n α :=
  { s with schedulerLocks := update s.schedulerLocks t lock }

def setQueue (s : Shared n α) (t : Fin n) (i : Fin 3) (xs : List (Item n α)) : Shared n α :=
  { s with schedulerQueue :=
      update s.schedulerQueue t (update (s.schedulerQueue t) i xs) }

def setXfer (s : Shared n α) (t : Fin n) (xs : List (Item n α)) : Shared n α :=
  { s with directCloXferArray := update s.directCloXferArray t xs }

/-- The part of the queues that a job reads and then writes. -/
def cell (me : Fin n) (s : Shared n α) : Job n α → List (Item n α)
  | .enque proc i _ => s.schedulerQueue proc i
  | .transfer proc _ => s.directCloXferArray proc
  | .deque i => s.schedulerQueue me i
  | .take => s.directCloXferArray me
  | .flushed => s.schedulerQueue me 0
  | .hold _ => []

/-- The writing part of a job. -/
def write (me : Fin n) (seen : List (Item n α)) (s : Shared n α) (l : Local n α) :
    Job n α → Shared n α × Local n α
  | .enque proc i p =>
    let x : Item n α := ⟨me, l.next, proc, .queue i, p⟩
    ({ setQueue s proc i (seen ++ [x]) with sent := s.sent ++ [x] }, { l with next := l.next + 1 })
  | .transfer proc c =>
    let x : Item n α := ⟨me, l.next, proc, .closure, c⟩
    ({ setXfer s proc (seen ++ [x]) with sent := s.sent ++ [x] }, { l with next := l.next + 1 })
  | .deque i => match seen with
    | [] => (s, l)
    | x :: xs => ({ setQueue s me i xs with
        dequeued := update s.dequeued me
          (update (s.dequeued me) i (s.dequeued me i ++ [x])) }, l)
  | .take => (setXfer s me [], { l with localArray := seen })
  | .flushed => match l.localArray with
    | [] => (s, l)
    | x :: xs => (setQueue s me 0 (seen ++ [x]), { l with localArray := xs })
  | .hold _ => (s, l)

/-- The lock has been acquired. -/
def entered (l : Local n α) : Job n α → Local n α
  | .hold proc => { l with pc := .idle, held := proc :: l.held }
  | job => { l with pc := .load job }

/-- Whether a processor may call this when it is idle: the array is flushed when it is not empty,
which is read without the lock, and its copy is worked off before the next flush. -/
def Callable (me : Fin n) (s : Shared n α) (l : Local n α) : Job n α → Bool
  | .take => l.localArray.isEmpty && !(s.directCloXferArray me).isEmpty
  | .flushed => !l.localArray.isEmpty
  | _ => true

def step (me : Fin n) (a : Act n α) (s : Shared n α) (l : Local n α) :
    Option (Shared n α × Local n α) :=
  match l.pc, a with
  | .idle, .call job =>
    if Callable me s l job then some (s, { l with pc := .test job }) else none
  | .idle, .release proc =>
    if proc ∈ l.held then
      some (s, { l with pc := .release proc, held := l.held.erase proc })
    else none
  -- GC_sqAcquireLock
  | .test job, .go =>
    if (s.schedulerLocks (job.proc me)).id = some me then some (s, { l with pc := .bump job })
    else some (s, { l with pc := .again job })
  | .bump job, .go =>
    let lock := s.schedulerLocks (job.proc me)
    some (setLock s (job.proc me) { lock with count := lock.count + 1 }, entered l job)
  | .again job, .go =>
    if (s.schedulerLocks (job.proc me)).id.isSome then some (s, l)
    else some (s, { l with pc := .swap job })
  | .swap job, .go =>
    let lock := s.schedulerLocks (job.proc me)
    if lock.id = none then
      some (setLock s (job.proc me) { lock with id := some me }, entered l job)
    else some (s, { l with pc := .again job })
  -- inside the lock
  | .load job, .go => some (s, { l with pc := .store job (cell me s job) })
  | .store job seen, .go =>
    let r := write me seen s l job
    some (r.1, { r.2 with pc := .release (job.proc me) })
  -- GC_sqReleaseLock
  | .release proc, .go =>
    if (s.schedulerLocks proc).count > 0 then some (s, { l with pc := .decrement proc })
    else some (s, { l with pc := .free proc })
  | .decrement proc, .go =>
    let lock := s.schedulerLocks proc
    some (setLock s proc { lock with count := lock.count - 1 }, { l with pc := .idle })
  | .free proc, .go =>
    let lock := s.schedulerLocks proc
    some (setLock s proc { lock with id := none }, { l with pc := .idle })
  | _, _ => none

section Equations

attribute [local simp] step

end Equations

def process (n : ℕ) (α : Type u) : Process (Fin n) (Act n α) (Shared n α) (Local n α) := ⟨step⟩

/-- After `GC_sqCreateQueues`. -/
def Start (c : Config (Fin n) (Shared n α) (Local n α)) : Prop :=
  c.shared = ⟨fun _ => ⟨0, none⟩, fun _ _ => [], fun _ => [], [], fun _ _ => []⟩ ∧
    ∀ p, c.loc p = ⟨.idle, [], [], 0⟩

/-! ### A lock -/

/-- The holder of a lock holds it once more than `count` says, and `d p` says how often `p` does. -/
def Held (lock : Lock n) (d : Fin n → ℕ) : Prop :=
  match lock.id with
  | none => lock.count = 0 ∧ ∀ p, d p = 0
  | some p => d p = lock.count + 1 ∧ ∀ q, q ≠ p → d q = 0

section

variable {lock : Lock n} {d : Fin n → ℕ} {q : Fin n}

theorem Held.owner (h : Held lock d) (hq : 0 < d q) : lock.id = some q := by
  unfold Held at h
  split at h
  · exact absurd (h.2 q) hq.ne'
  · rename_i p hid
    rw [hid]
    by_cases hqp : q = p
    · rw [hqp]
    · exact absurd (h.2 q hqp) hq.ne'

theorem Held.bump (h : Held lock d) (hid : lock.id = some q) :
    Held { lock with count := lock.count + 1 } (update d q (d q + 1)) := by
  unfold Held at h ⊢
  rw [hid] at h
  simp only [hid]
  refine ⟨by rw [update_self, h.1], fun p hp => ?_⟩
  rw [update_of_ne hp]
  exact h.2 p hp

theorem Held.swap (h : Held lock d) (hid : lock.id = none) :
    Held { lock with id := some q } (update d q (d q + 1)) := by
  unfold Held at h ⊢
  rw [hid] at h
  refine ⟨by rw [update_self, h.2 q, h.1], fun p hp => ?_⟩
  rw [update_of_ne hp]
  exact h.2 p

theorem Held.decrement (h : Held lock d) (hq : 0 < d q) (hcount : 0 < lock.count) :
    Held { lock with count := lock.count - 1 } (update d q (d q - 1)) := by
  have hid := h.owner hq
  unfold Held at h ⊢
  rw [hid] at h
  simp only [hid]
  refine ⟨?_, fun p hp => ?_⟩
  · rw [update_self, h.1]
    omega
  · rw [update_of_ne hp]
    exact h.2 p hp

theorem Held.free (h : Held lock d) (hq : 0 < d q) (hcount : lock.count = 0) :
    Held { lock with id := none } (update d q (d q - 1)) := by
  have hid := h.owner hq
  unfold Held at h ⊢
  rw [hid] at h
  refine ⟨hcount, fun p => ?_⟩
  by_cases hp : p = q
  · rw [hp, update_self, h.1, hcount]
  · rw [update_of_ne hp]
    exact h.2 p hp

theorem Held.exclusive (h : Held lock d) {p : Fin n} (hp : 0 < d p) (hq : 0 < d q) : p = q :=
  Option.some.inj ((h.owner hp).symm.trans (h.owner hq))

/-- A lock is free when it has been released as often as it was acquired. -/
theorem Held.free_iff (h : Held lock d) : lock.id = none ↔ ∀ p, d p = 0 := by
  unfold Held at h
  constructor
  · intro hid
    rw [hid] at h
    exact h.2
  · intro hd
    split at h
    · assumption
    · rename_i p _
      rw [hd p] at h
      omega

end

/-! ### Who holds the locks -/

/-- The lock that a processor is inside of. -/
def inside (me : Fin n) : PC n α → Option (Fin n)
  | .load job => some (job.proc me)
  | .store job _ => some (job.proc me)
  | .release proc => some proc
  | .decrement proc => some proc
  | .free proc => some proc
  | _ => none

/-- How often a processor has acquired a lock and not released it. -/
def depth (me : Fin n) (l : Local n α) (t : Fin n) : ℕ :=
  l.held.count t + if inside me l.pc = some t then 1 else 0

/-- What a processor knows of the lock at a place of its code. -/
def Stage (locks : Fin n → Lock n) (me : Fin n) : PC n α → Prop
  | .bump job => (locks (job.proc me)).id = some me
  | .again job => (locks (job.proc me)).id ≠ some me
  | .swap job => (locks (job.proc me)).id ≠ some me
  | .decrement proc => 0 < (locks proc).count
  | .free proc => (locks proc).count = 0
  | _ => True

structure LockInv (c : Config (Fin n) (Shared n α) (Local n α)) : Prop where
  held : ∀ t, Held (c.shared.schedulerLocks t) fun p => depth p (c.loc p) t
  stage : ∀ p, Stage c.shared.schedulerLocks p (c.loc p).pc

variable {c : Config (Fin n) (Shared n α) (Local n α)} {me : Fin n} {s : Shared n α}
  {l : Local n α}

theorem depth_pos {t : Fin n} (h : inside me l.pc = some t) : 0 < depth me l t := by
  unfold depth
  rw [if_pos h]
  exact Nat.succ_pos _

theorem depth_entered (me : Fin n) (l : Local n α) (job : Job n α) (t : Fin n)
    (hpc : inside me l.pc = none) :
    depth me (entered l job) t = depth me l t + if t = job.proc me then 1 else 0 := by
  unfold depth
  rw [hpc]
  cases job with
  | hold proc =>
    simp only [entered, Job.proc, inside, count_cons, reduceCtorEq, if_false, add_zero]
    by_cases ht : t = proc
    · simp [ht]
    · simp [ht, Ne.symm ht]
  | enque proc i p | transfer proc p =>
    simp only [entered, inside, Job.proc, Option.some.injEq, eq_comm (a := t), reduceCtorEq,
      if_false, add_zero]
  | _ => simp [entered, inside, Job.proc, eq_comm]

/-- The locks are as before, and so are those that the processor holds. -/
theorem LockInv.same (h : LockInv c) (hlocks : s.schedulerLocks = c.shared.schedulerLocks)
    (hdepth : ∀ t, depth me l t = depth me (c.loc me) t)
    (hstage : Stage c.shared.schedulerLocks me l.pc) : LockInv (c.put me s l) := by
  refine ⟨fun t => ?_, fun p => ?_⟩
  · rw [Config.put_map fun p l => depth p l t, hdepth, update_eq_self,
      Config.put_shared, hlocks]
    exact h.held t
  · rw [Config.put_loc, Config.put_shared, hlocks]
    split_ifs with hp
    · rw [hp]
      exact hstage
    · exact h.stage p

/-- One lock changes, of which nobody else may know more than that it is not his. -/
theorem LockInv.change (h : LockInv c) (t : Fin n) (lock : Lock n)
    (hlocks : s.schedulerLocks = update c.shared.schedulerLocks t lock)
    (hheld : Held lock (update (fun p => depth p (c.loc p) t) me (depth me l t)))
    (hdepth : ∀ t' ≠ t, depth me l t' = depth me (c.loc me) t')
    (hstage : Stage s.schedulerLocks me l.pc)
    (hbefore : (c.shared.schedulerLocks t).id = none ∨ (c.shared.schedulerLocks t).id = some me)
    (hafter : lock.id = none ∨ lock.id = some me) : LockInv (c.put me s l) := by
  refine ⟨fun t' => ?_, fun p => ?_⟩
  · rw [Config.put_map fun p l => depth p l t', Config.put_shared, hlocks]
    by_cases ht : t' = t
    · rw [ht, update_self]
      exact hheld
    · rw [update_of_ne ht, hdepth t' ht, update_eq_self]
      exact h.held t'
  · rw [Config.put_loc, Config.put_shared]
    split_ifs with hp
    · rw [hp]
      exact hstage
    · -- another processor is not inside this lock
      have hstage' := h.stage p
      have hout : inside p (c.loc p).pc ≠ some t := by
        intro hin
        have howner := (h.held t).owner (q := p) (depth_pos hin)
        rcases hbefore with hid | hid
        · rw [hid] at howner
          cases howner
        · rw [hid] at howner
          exact hp (Option.some.inj howner).symm
      rw [hlocks]
      cases hpc : (c.loc p).pc with
      | bump job =>
        rw [hpc] at hstage'
        simp only [Stage] at hstage' ⊢
        by_cases ht : job.proc p = t
        · rw [ht] at hstage'
          rcases hbefore with hid | hid
          · rw [hid] at hstage'
            cases hstage'
          · rw [hid] at hstage'
            exact absurd (Option.some.inj hstage').symm hp
        · rw [update_of_ne ht]
          exact hstage'
      | again job | swap job =>
        rw [hpc] at hstage'
        simp only [Stage] at hstage' ⊢
        by_cases ht : job.proc p = t
        · rw [ht, update_self]
          rcases hafter with hid | hid <;> rw [hid]
          · exact fun heq => by cases heq
          · exact fun heq => hp (Option.some.inj heq).symm
        · rw [update_of_ne ht]
          exact hstage'
      | decrement proc | free proc =>
        rw [hpc] at hstage' hout
        have ht : proc ≠ t := fun heq => hout (congrArg some heq)
        simp only [Stage] at hstage' ⊢
        rw [update_of_ne ht]
        exact hstage'
      | _ => trivial

/-- The queues are read and written, and the lock stays as it is. -/
theorem write_frame (me : Fin n) (seen : List (Item n α)) (s : Shared n α) (l : Local n α) (job : Job n α) :
    (write me seen s l job).1.schedulerLocks = s.schedulerLocks ∧
      (write me seen s l job).2.held = l.held := by
  cases job with
  | deque i => cases seen <;> exact ⟨rfl, rfl⟩
  | flushed =>
    unfold write
    cases l.localArray <;> exact ⟨rfl, rfl⟩
  | _ => exact ⟨rfl, rfl⟩

theorem LockInv.step (h : LockInv c) {a : Act n α}
    (hstep : step me a c.shared (c.loc me) = some (s, l)) : LockInv (c.put me s l) := by
  rcases hl : c.loc me with ⟨pc, held, arr, next⟩
  have hstage := h.stage me
  rw [hl] at hstep hstage
  cases pc with
  | idle =>
    cases a with
    | call job =>
      simp only [QueueLock.step] at hstep
      split_ifs at hstep
      cases hstep
      exact h.same rfl (fun t => by rw [hl]; rfl) trivial
    | release proc =>
      simp only [QueueLock.step] at hstep
      split_ifs at hstep with hmem
      cases hstep
      refine h.same rfl (fun t => ?_) trivial
      -- the acquisition counts for the release now
      rw [hl]
      simp only [depth, inside, Option.some.injEq, reduceCtorEq, if_false, add_zero]
      by_cases ht : proc = t
      · subst ht
        have hpos := count_pos_iff.mpr hmem
        rw [count_erase_self, if_pos rfl]
        omega
      · rw [count_erase_of_ne (Ne.symm ht), if_neg ht, add_zero]
    | go => cases hstep
  | test job =>
    cases a with
    | go =>
      simp only [QueueLock.step] at hstep
      split_ifs at hstep with hid
      · cases hstep
        exact h.same rfl (fun t => by rw [hl]; rfl) hid
      · cases hstep
        exact h.same rfl (fun t => by rw [hl]; rfl) hid
    | _ => cases hstep
  | bump job =>
    cases a with
    | go =>
      cases hstep
      have hdepth := fun t => depth_entered me ⟨.bump job, held, arr, next⟩ job t rfl
      refine h.change (job.proc me) _ rfl ?_ (fun t ht => ?_) ?_ (Or.inr hstage) (Or.inr hstage)
      · rw [hdepth, if_pos rfl, ← hl]
        exact (h.held _).bump hstage
      · rw [hdepth, if_neg ht, hl, add_zero]
      · cases job <;> trivial
    | _ => cases hstep
  | again job =>
    cases a with
    | go =>
      simp only [QueueLock.step] at hstep
      split_ifs at hstep
      · cases hstep
        exact h.same rfl (fun t => by rw [hl]) hstage
      · cases hstep
        exact h.same rfl (fun t => by rw [hl]; rfl) hstage
    | _ => cases hstep
  | swap job =>
    cases a with
    | go =>
      simp only [QueueLock.step] at hstep
      split_ifs at hstep with hid
      · cases hstep
        have hdepth := fun t => depth_entered me ⟨.swap job, held, arr, next⟩ job t rfl
        refine h.change (job.proc me) _ rfl ?_ (fun t ht => ?_) ?_ (Or.inl hid) (Or.inr rfl)
        · rw [hdepth, if_pos rfl, ← hl]
          exact (h.held _).swap hid
        · rw [hdepth, if_neg ht, hl, add_zero]
        · cases job <;> trivial
      · cases hstep
        exact h.same rfl (fun t => by rw [hl]; rfl) hstage
    | _ => cases hstep
  | load job =>
    cases a with
    | go =>
      cases hstep
      exact h.same rfl (fun t => by rw [hl]; rfl) trivial
    | _ => cases hstep
  | store job seen =>
    cases a with
    | go =>
      cases hstep
      obtain ⟨hlocks, hheld⟩ := write_frame me seen c.shared
        ⟨.store job seen, held, arr, next⟩ job
      refine h.same hlocks (fun t => ?_) trivial
      rw [hl]
      simp only [depth, hheld]
      rfl
    | _ => cases hstep
  | release proc =>
    cases a with
    | go =>
      simp only [QueueLock.step] at hstep
      split_ifs at hstep with hcount
      · cases hstep
        exact h.same rfl (fun t => by rw [hl]; rfl) hcount
      · cases hstep
        exact h.same rfl (fun t => by rw [hl]; rfl) (Nat.eq_zero_of_not_pos hcount)
    | _ => cases hstep
  | decrement proc =>
    cases a with
    | go =>
      cases hstep
      have hpos : 0 < depth me (c.loc me) proc := by
        rw [hl]
        exact depth_pos rfl
      have hid := (h.held proc).owner (q := me) hpos
      refine h.change proc _ rfl ?_ (fun t ht => ?_) trivial (Or.inr hid) (Or.inr hid)
      · have hdepth : depth me (⟨.idle, held, arr, next⟩ : Local n α) proc =
            depth me (c.loc me) proc - 1 := by
          rw [hl]
          simp [depth, inside]
        rw [hdepth]
        exact (h.held proc).decrement hpos hstage
      · rw [hl]
        simp [depth, inside, Ne.symm ht]
    | _ => cases hstep
  | free proc =>
    cases a with
    | go =>
      cases hstep
      have hpos : 0 < depth me (c.loc me) proc := by
        rw [hl]
        exact depth_pos rfl
      have hid := (h.held proc).owner (q := me) hpos
      refine h.change proc _ rfl ?_ (fun t ht => ?_) trivial (Or.inr hid) (Or.inl rfl)
      · have hdepth : depth me (⟨.idle, held, arr, next⟩ : Local n α) proc =
            depth me (c.loc me) proc - 1 := by
          rw [hl]
          simp [depth, inside]
        rw [hdepth]
        exact (h.held proc).free hpos hstage
      · rw [hl]
        simp [depth, inside, Ne.symm ht]
    | _ => cases hstep

/-! ### Where the work is -/

/-- What has come to the queues, what has been transferred and not enqueued, and what was sent. -/
@[ext] structure Work (n : ℕ) (α : Type u) where
  stream : Fin n → Fin 3 → List (Item n α)
  parked : Fin n → List (Item n α)
  sent : List (Item n α)
  next : Fin n → ℕ

def Work.enque (w : Work n α) (me proc : Fin n) (i : Fin 3) (p : α) : Work n α :=
  let x : Item n α := ⟨me, w.next me, proc, .queue i, p⟩
  { w with
    stream := update w.stream proc
      (update (w.stream proc) i (w.stream proc i ++ [x]))
    sent := w.sent ++ [x]
    next := update w.next me (w.next me + 1) }

def Work.transfer (w : Work n α) (me proc : Fin n) (p : α) : Work n α :=
  let x : Item n α := ⟨me, w.next me, proc, .closure, p⟩
  { w with
    parked := update w.parked proc (w.parked proc ++ [x])
    sent := w.sent ++ [x]
    next := update w.next me (w.next me + 1) }

/-- The first closure that waits goes to the host queue. -/
def Work.flush (w : Work n α) (me : Fin n) (x : Item n α) (xs : List (Item n α)) : Work n α :=
  { w with
    stream := update w.stream me
      (update (w.stream me) 0 (w.stream me 0 ++ [x]))
    parked := update w.parked me xs }

/-- Nothing is lost, sent twice or overtaken, on each way to each processor. -/
structure WorkInv (w : Work n α) : Prop where
  ordered : ∀ t i, (w.stream t i).filter (·.channel = .queue i) =
    w.sent.filter fun x => x.target = t ∧ x.channel = .queue i
  closures : ∀ t, (w.stream t 0).filter (·.channel = .closure) ++ w.parked t =
    w.sent.filter fun x => x.target = t ∧ x.channel = .closure
  kinds : ∀ t i, ∀ x ∈ w.stream t i,
    x.target = t ∧ (x.channel = .queue i ∨ (i = 0 ∧ x.channel = .closure))
  parked : ∀ t, ∀ x ∈ w.parked t, x.target = t ∧ x.channel = .closure
  seqs : ∀ p, (w.sent.filter (·.sender = p)).map Item.seq = List.range (w.next p)

section

variable {w : Work n α} (h : WorkInv w)

include h

/-- The next number of the sender. -/
theorem WorkInv.seqs_append {x : Item n α} (hsender : x.sender = me) (hseq : x.seq = w.next me)
    (p : Fin n) : ((w.sent ++ [x]).filter (·.sender = p)).map Item.seq =
      List.range (update w.next me (w.next me + 1) p) := by
  rw [filter_append, map_append, h.seqs p]
  by_cases hp : p = me
  · subst hp
    rw [update_self, range_succ, filter_cons_of_pos (by simp [hsender]),
      filter_nil, map_singleton, hseq]
  · rw [update_of_ne hp, filter_cons_of_neg (by simpa [hsender] using Ne.symm hp),
      filter_nil, map_nil, append_nil]

theorem WorkInv.enque (me proc : Fin n) (i : Fin 3) (p : α) : WorkInv (w.enque me proc i p) := by
  refine ⟨fun t j => ?_, fun t => ?_, fun t j x hx => ?_, h.parked,
    h.seqs_append (x := ⟨me, w.next me, proc, .queue i, p⟩) rfl rfl⟩
  · show ((update w.stream proc _) t j).filter _ = (w.sent ++ [_]).filter _
    rw [filter_append, ← h.ordered t j]
    by_cases ht : t = proc
    · subst ht
      rw [update_self]
      by_cases hj : j = i
      · subst hj
        rw [update_self, filter_append]
        simp
      · rw [update_of_ne hj]
        simp [Ne.symm hj]
    · rw [update_of_ne ht]
      simp [Ne.symm ht]
  · show ((update w.stream proc _) t 0).filter _ ++ w.parked t = (w.sent ++ [_]).filter _
    rw [filter_append, ← h.closures t]
    by_cases ht : t = proc
    · subst ht
      rw [update_self]
      by_cases hi : 0 = i
      · subst hi
        rw [update_self, filter_append]
        simp
      · rw [update_of_ne hi]
        simp
    · rw [update_of_ne ht]
      simp
  · change x ∈ (update w.stream proc _) t j at hx
    by_cases ht : t = proc
    · subst ht
      rw [update_self] at hx
      by_cases hj : j = i
      · subst hj
        rw [update_self] at hx
        rcases mem_append.mp hx with hold | hnew
        · exact h.kinds t j x hold
        · rw [mem_singleton.mp hnew]
          exact ⟨rfl, Or.inl rfl⟩
      · rw [update_of_ne hj] at hx
        exact h.kinds t j x hx
    · rw [update_of_ne ht] at hx
      exact h.kinds t j x hx

theorem WorkInv.transfer (me proc : Fin n) (p : α) : WorkInv (w.transfer me proc p) := by
  refine ⟨fun t j => ?_, fun t => ?_, h.kinds, fun t x hx => ?_,
    h.seqs_append (x := ⟨me, w.next me, proc, .closure, p⟩) rfl rfl⟩
  · show (w.stream t j).filter _ = (w.sent ++ [_]).filter _
    rw [filter_append, ← h.ordered t j]
    simp
  · show (w.stream t 0).filter _ ++ (update w.parked proc _) t = (w.sent ++ [_]).filter _
    rw [filter_append, ← h.closures t]
    by_cases ht : t = proc
    · subst ht
      rw [update_self]
      simp
    · rw [update_of_ne ht]
      simp [Ne.symm ht]
  · change x ∈ (update w.parked proc _) t at hx
    by_cases ht : t = proc
    · subst ht
      rw [update_self] at hx
      rcases mem_append.mp hx with hold | hnew
      · exact h.parked t x hold
      · rw [mem_singleton.mp hnew]
        exact ⟨rfl, rfl⟩
    · rw [update_of_ne ht] at hx
      exact h.parked t x hx

theorem WorkInv.flush (me : Fin n) {x : Item n α} {xs : List (Item n α)}
    (hparked : w.parked me = x :: xs) : WorkInv (w.flush me x xs) := by
  obtain ⟨htarget, hchannel⟩ := h.parked me x (hparked ▸ mem_cons_self ..)
  refine ⟨fun t j => ?_, fun t => ?_, fun t j y hy => ?_, fun t y hy => ?_, h.seqs⟩
  · show ((update w.stream me _) t j).filter _ = w.sent.filter _
    rw [← h.ordered t j]
    by_cases ht : t = me
    · subst ht
      rw [update_self]
      by_cases hj : j = 0
      · subst hj
        rw [update_self, filter_append]
        simp [hchannel]
      · rw [update_of_ne hj]
    · rw [update_of_ne ht]
  · show ((update w.stream me _) t 0).filter _ ++ (update w.parked me xs) t =
      w.sent.filter _
    rw [← h.closures t]
    by_cases ht : t = me
    · subst ht
      rw [update_self, update_self, update_self, hparked,
        filter_append]
      simp [hchannel]
    · rw [update_of_ne ht, update_of_ne ht]
  · change y ∈ (update w.stream me _) t j at hy
    by_cases ht : t = me
    · subst ht
      rw [update_self] at hy
      by_cases hj : j = 0
      · subst hj
        rw [update_self] at hy
        rcases mem_append.mp hy with hold | hnew
        · exact h.kinds t 0 y hold
        · rw [mem_singleton.mp hnew]
          exact ⟨htarget, Or.inr ⟨rfl, hchannel⟩⟩
      · rw [update_of_ne hj] at hy
        exact h.kinds t j y hy
    · rw [update_of_ne ht] at hy
      exact h.kinds t j y hy
  · change y ∈ (update w.parked me xs) t at hy
    by_cases ht : t = me
    · subst ht
      rw [update_self] at hy
      exact h.parked t y (hparked ▸ mem_cons_of_mem x hy)
    · rw [update_of_ne ht] at hy
      exact h.parked t y hy

end

/-! ### The processors -/

def workOf (s : Shared n α) (localArray : Fin n → List (Item n α)) (next : Fin n → ℕ) :
    Work n α where
  stream t i := s.dequeued t i ++ s.schedulerQueue t i
  parked t := localArray t ++ s.directCloXferArray t
  sent := s.sent
  next := next

def work (c : Config (Fin n) (Shared n α) (Local n α)) : Work n α :=
  workOf c.shared (fun p => (c.loc p).localArray) fun p => (c.loc p).next

/-- What a processor is about to do. -/
def jobOf : PC n α → Option (Job n α)
  | .test job => some job
  | .bump job => some job
  | .again job => some job
  | .swap job => some job
  | .load job => some job
  | .store job _ => some job
  | _ => none

structure Inv (c : Config (Fin n) (Shared n α) (Local n α)) : Prop where
  lock : LockInv c
  /-- What has been read inside the lock is still so. -/
  seen : ∀ p job xs, (c.loc p).pc = .store job xs → xs = cell p c.shared job
  /-- The copy has been worked off before the array is copied again. -/
  take : ∀ p, jobOf (c.loc p).pc = some .take → (c.loc p).localArray = []
  work : WorkInv (work c)

theorem cell_congr {s s' : Shared n α} (job : Job n α)
    (hqueue : s'.schedulerQueue (job.proc me) = s.schedulerQueue (job.proc me))
    (hxfer : s'.directCloXferArray (job.proc me) = s.directCloXferArray (job.proc me)) :
    cell me s' job = cell me s job := by
  cases job with
  | enque proc i p | deque i => exact congrFun hqueue i
  | transfer proc c | take => exact hxfer
  | flushed => exact congrFun hqueue 0
  | hold proc => rfl

/-- A job writes the queues of one processor. -/
theorem write_elsewhere (seen : List (Item n α)) (s : Shared n α) (l : Local n α) (job : Job n α)
    {t : Fin n} (ht : t ≠ job.proc me) :
    (write me seen s l job).1.schedulerQueue t = s.schedulerQueue t ∧
      (write me seen s l job).1.directCloXferArray t = s.directCloXferArray t := by
  cases job with
  | enque proc i p => exact ⟨update_of_ne ht _ _, rfl⟩
  | transfer proc c | take => exact ⟨rfl, update_of_ne ht _ _⟩
  | deque i =>
    cases seen with
    | nil => exact ⟨rfl, rfl⟩
    | cons x xs => exact ⟨update_of_ne ht _ _, rfl⟩
  | flushed =>
    unfold write
    cases l.localArray with
    | nil => exact ⟨rfl, rfl⟩
    | cons x xs => exact ⟨update_of_ne ht _ _, rfl⟩
  | hold proc => exact ⟨rfl, rfl⟩

theorem work_put (c : Config (Fin n) (Shared n α) (Local n α)) (me : Fin n) (s : Shared n α)
    (l : Local n α) : work (c.put me s l) =
      workOf s (update (fun p => (c.loc p).localArray) me l.localArray)
        (update (fun p => (c.loc p).next) me l.next) := by
  rw [← Config.put_map (fun _ l => Local.localArray l) c me s l,
    ← Config.put_map (fun _ l => Local.next l) c me s l]
  rfl

/-- The queues of the processor after one of them has been written. -/
theorem append_update {f g : Fin n → Fin 3 → List (Item n α)} {t : Fin n} {i : Fin 3}
    {xs ys : List (Item n α)} (h : xs = g t i ++ ys) :
    (fun u j => f u j ++ update g t (update (g t) i xs) u j) =
      update (fun u j => f u j ++ g u j) t
        (update (fun j => f t j ++ g t j) i (f t i ++ g t i ++ ys)) := by
  funext u j
  by_cases hu : u = t
  · subst hu
    rw [update_self, update_self]
    by_cases hj : j = i
    · subst hj
      rw [update_self, update_self, h, append_assoc]
    · rw [update_of_ne hj, update_of_ne hj]
  · rw [update_of_ne hu, update_of_ne hu]

/-- Inside the lock a job does what it is there for. -/
theorem WorkInv.write {arr : Fin n → List (Item n α)} {next : Fin n → ℕ} {l : Local n α}
    (h : WorkInv (workOf s arr next)) (harr : l.localArray = arr me) (hnext : l.next = next me)
    {job : Job n α} {seen : List (Item n α)} (hseen : seen = cell me s job)
    (htake : job = .take → l.localArray = []) :
    WorkInv (workOf (write me seen s l job).1
      (update arr me (write me seen s l job).2.localArray)
      (update next me (write me seen s l job).2.next)) := by
  have hsame : update arr me l.localArray = arr ∧
      update next me l.next = next := by
    rw [harr, hnext]
    exact ⟨update_eq_self me arr, update_eq_self me next⟩
  cases job with
  | enque proc i p =>
    have hwork : workOf (QueueLock.write me seen s l (.enque proc i p)).1
        (update arr me l.localArray) (update next me (l.next + 1)) =
        (workOf s arr next).enque me proc i p := by
      apply Work.ext
      · refine (append_update (f := s.dequeued) (congrArg (· ++ _) hseen)).trans ?_
        rw [hnext]
        rfl
      · rw [hsame.1]
        rfl
      · show s.sent ++ [_] = s.sent ++ [_]
        rw [hnext]
        rfl
      · rw [hnext]
        rfl
    exact hwork ▸ h.enque me proc i p
  | transfer proc p =>
    have hwork : workOf (QueueLock.write me seen s l (.transfer proc p)).1
        (update arr me l.localArray) (update next me (l.next + 1)) =
        (workOf s arr next).transfer me proc p := by
      apply Work.ext
      · rfl
      · funext t
        rw [hsame.1, hseen]
        show arr t ++ update s.directCloXferArray proc _ t =
          update (fun t => arr t ++ s.directCloXferArray t) proc _ t
        by_cases ht : t = proc
        · subst ht
          rw [update_self, update_self, ← append_assoc, hnext]
          rfl
        · rw [update_of_ne ht, update_of_ne ht]
      · show s.sent ++ [_] = s.sent ++ [_]
        rw [hnext]
        rfl
      · rw [hnext]
        rfl
    exact hwork ▸ h.transfer me proc p
  | deque i =>
    cases seen with
    | nil =>
      show WorkInv (workOf s (update arr me l.localArray) (update next me l.next))
      rw [hsame.1, hsame.2]
      exact h
    | cons x xs =>
      -- the first thread of the queue moves to the end of those dequeued
      have hwork : workOf (QueueLock.write me (x :: xs) s l (.deque i)).1
          (update arr me l.localArray) (update next me l.next) =
          workOf s arr next := by
        rw [hsame.1, hsame.2]
        apply Work.ext
        · funext t j
          show update s.dequeued me _ t j ++ update s.schedulerQueue me _ t j =
            s.dequeued t j ++ s.schedulerQueue t j
          by_cases ht : t = me
          · subst ht
            rw [update_self, update_self]
            by_cases hj : j = i
            · subst hj
              rw [update_self, update_self, append_assoc]
              exact congrArg (s.dequeued t j ++ ·) hseen
            · rw [update_of_ne hj, update_of_ne hj]
          · rw [update_of_ne ht, update_of_ne ht]
        · rfl
        · rfl
        · rfl
      exact hwork ▸ h
  | take =>
    have hwork : workOf (QueueLock.write me seen s l .take).1 (update arr me seen)
        (update next me l.next) = workOf s arr next := by
      rw [hsame.2]
      apply Work.ext
      · rfl
      · funext t
        show update arr me seen t ++ update s.directCloXferArray me [] t =
          arr t ++ s.directCloXferArray t
        by_cases ht : t = me
        · subst ht
          rw [update_self, update_self, ← harr, htake rfl, append_nil,
            nil_append]
          exact hseen
        · rw [update_of_ne ht, update_of_ne ht]
      · rfl
      · rfl
    exact hwork ▸ h
  | flushed =>
    unfold QueueLock.write
    cases hl : l.localArray with
    | nil =>
      show WorkInv (workOf s (update arr me l.localArray) (update next me l.next))
      rw [hsame.1, hsame.2]
      exact h
    | cons x xs =>
      have hwork : workOf (setQueue s me 0 (seen ++ [x])) (update arr me xs)
          (update next me l.next) =
          (workOf s arr next).flush me x (xs ++ s.directCloXferArray me) := by
        rw [hsame.2]
        apply Work.ext
        · exact append_update (f := s.dequeued) (congrArg (· ++ [x]) hseen)
        · funext t
          show update arr me xs t ++ s.directCloXferArray t =
            update (fun t => arr t ++ s.directCloXferArray t) me _ t
          by_cases ht : t = me
          · subst ht
            rw [update_self, update_self]
          · rw [update_of_ne ht, update_of_ne ht]
        · rfl
        · rfl
      have hparked : (workOf s arr next).parked me = x :: (xs ++ s.directCloXferArray me) := by
        show arr me ++ s.directCloXferArray me = _
        rw [← harr, hl, List.cons_append]
      exact hwork ▸ h.flush me hparked
  | hold proc =>
    show WorkInv (workOf s (update arr me l.localArray) (update next me l.next))
    rw [hsame.1, hsame.2]
    exact h

/-- A step that leaves the queues and the closures alone. -/
structure Quiet (me : Fin n) (s₀ : Shared n α) (l₀ : Local n α) (s : Shared n α) (l : Local n α) :
    Prop where
  queue : s.schedulerQueue = s₀.schedulerQueue
  xfer : s.directCloXferArray = s₀.directCloXferArray
  sent : s.sent = s₀.sent
  dequeued : s.dequeued = s₀.dequeued
  localArray : l.localArray = l₀.localArray
  next : l.next = l₀.next
  seen : ∀ job xs, l.pc = .store job xs → xs = cell me s₀ job
  take : jobOf l.pc = some .take → jobOf l₀.pc = some .take ∨ l₀.localArray = []

theorem entered_spec (l : Local n α) (job : Job n α) :
    (entered l job).localArray = l.localArray ∧ (entered l job).next = l.next ∧
      (∀ job' xs, (entered l job).pc ≠ .store job' xs) ∧
      (jobOf (entered l job).pc = some .take → some job = some .take) := by
  cases job with
  | hold proc => exact ⟨rfl, rfl, nofun, nofun⟩
  | _ => exact ⟨rfl, rfl, nofun, id⟩

/-- What a step does to the queues. -/
theorem step_cases {a : Act n α} {s₀ : Shared n α} {l₀ : Local n α}
    (hstep : step me a s₀ l₀ = some (s, l)) : Quiet me s₀ l₀ s l ∨
      ∃ job seen, l₀.pc = .store job seen ∧ s = (write me seen s₀ l₀ job).1 ∧
        l = { (write me seen s₀ l₀ job).2 with pc := .release (job.proc me) } := by
  obtain ⟨pc, held, arr, next⟩ := l₀
  cases pc with
  | idle =>
    cases a with
    | call job =>
      simp only [step] at hstep
      split_ifs at hstep with hcall
      cases hstep
      refine Or.inl ⟨rfl, rfl, rfl, rfl, rfl, rfl, nofun, fun htake => ?_⟩
      cases htake
      rw [Callable, Bool.and_eq_true, List.isEmpty_iff] at hcall
      exact Or.inr hcall.1
    | release proc =>
      simp only [step] at hstep
      split_ifs at hstep
      cases hstep
      exact Or.inl ⟨rfl, rfl, rfl, rfl, rfl, rfl, nofun, nofun⟩
    | go => cases hstep
  | test job | again job =>
    cases a with
    | go =>
      simp only [step] at hstep
      split_ifs at hstep <;>
      · cases hstep
        exact Or.inl ⟨rfl, rfl, rfl, rfl, rfl, rfl, nofun, Or.inl⟩
    | _ => cases hstep
  | bump job =>
    cases a with
    | go =>
      cases hstep
      obtain ⟨harr, hnext, hpc, htake⟩ := entered_spec ⟨.bump job, held, arr, next⟩ job
      exact Or.inl ⟨rfl, rfl, rfl, rfl, harr, hnext, fun job' xs h => absurd h (hpc job' xs),
        fun h => Or.inl (htake h)⟩
    | _ => cases hstep
  | swap job =>
    cases a with
    | go =>
      simp only [step] at hstep
      split_ifs at hstep
      · cases hstep
        obtain ⟨harr, hnext, hpc, htake⟩ := entered_spec ⟨.swap job, held, arr, next⟩ job
        exact Or.inl ⟨rfl, rfl, rfl, rfl, harr, hnext, fun job' xs h => absurd h (hpc job' xs),
          fun h => Or.inl (htake h)⟩
      · cases hstep
        exact Or.inl ⟨rfl, rfl, rfl, rfl, rfl, rfl, nofun, Or.inl⟩
    | _ => cases hstep
  | load job =>
    cases a with
    | go =>
      cases hstep
      refine Or.inl ⟨rfl, rfl, rfl, rfl, rfl, rfl, fun _ _ h => ?_, Or.inl⟩
      cases h
      rfl
    | _ => cases hstep
  | store job seen =>
    cases a with
    | go =>
      cases hstep
      exact Or.inr ⟨job, seen, rfl, rfl, rfl⟩
    | _ => cases hstep
  | release proc =>
    cases a with
    | go =>
      simp only [step] at hstep
      split_ifs at hstep <;>
      · cases hstep
        exact Or.inl ⟨rfl, rfl, rfl, rfl, rfl, rfl, nofun, nofun⟩
    | _ => cases hstep
  | decrement proc | free proc =>
    cases a with
    | go =>
      cases hstep
      exact Or.inl ⟨rfl, rfl, rfl, rfl, rfl, rfl, nofun, nofun⟩
    | _ => cases hstep

theorem Inv.step (h : Inv c) {a : Act n α}
    (hstep : step me a c.shared (c.loc me) = some (s, l)) : Inv (c.put me s l) := by
  have hlock := h.lock.step hstep
  rcases step_cases hstep with hquiet | ⟨job, seen, hpc, rfl, rfl⟩
  · refine ⟨hlock, fun p job xs hxs => ?_, fun p htake => ?_, ?_⟩
    · have hcell : cell p (c.put me s l).shared job = cell p c.shared job :=
        cell_congr job (congrFun hquiet.queue _) (congrFun hquiet.xfer _)
      rw [hcell]
      rw [Config.put_loc] at hxs
      split_ifs at hxs with hp
      · rw [hp]
        exact hquiet.seen job xs hxs
      · exact h.seen p job xs hxs
    · rw [Config.put_loc] at htake ⊢
      split_ifs at htake ⊢ with hp
      · rw [hquiet.localArray]
        rcases hquiet.take htake with hold | hnil
        · exact h.take me hold
        · exact hnil
      · exact h.take p htake
    · have hwork : QueueLock.work (c.put me s l) = QueueLock.work c := by
        rw [work_put, hquiet.localArray, hquiet.next]
        rw [update_eq_self me fun p => (c.loc p).localArray,
          update_eq_self me fun p => (c.loc p).next]
        unfold QueueLock.work workOf
        rw [hquiet.queue, hquiet.xfer, hquiet.sent, hquiet.dequeued]
      rw [hwork]
      exact h.work
  · refine ⟨hlock, fun p job' xs hxs => ?_, fun p htake => ?_, ?_⟩
    · rw [Config.put_loc] at hxs
      split_ifs at hxs with hp
      -- another processor inside a lock has read the queues of another one
      have hne : job'.proc p ≠ job.proc me := by
        intro heq
        have hin : 0 < depth p (c.loc p) (job.proc me) := depth_pos (by rw [hxs, ← heq]; rfl)
        have hin' : 0 < depth me (c.loc me) (job.proc me) := depth_pos (by rw [hpc]; rfl)
        exact hp ((h.lock.held _).exclusive (p := p) (q := me) hin hin')
      obtain ⟨hqueue, hxfer⟩ := write_elsewhere seen c.shared (c.loc me) job hne
      rw [Config.put_shared, cell_congr job' hqueue hxfer]
      exact h.seen p job' xs hxs
    · rw [Config.put_loc] at htake ⊢
      split_ifs at htake ⊢ with hp
      · cases htake
      · exact h.take p htake
    · rw [work_put]
      refine WorkInv.write (l := c.loc me) h.work rfl rfl (h.seen me job seen hpc) ?_
      rintro rfl
      exact h.take me (by rw [hpc]; rfl)

theorem Start.inv (h : Start c) : Inv c := by
  obtain ⟨hshared, hloc⟩ := h
  refine ⟨⟨fun t => ?_, fun p => ?_⟩, fun p job xs hxs => ?_, fun p htake => ?_, ?_⟩
  · rw [hshared]
    refine ⟨rfl, fun p => ?_⟩
    show depth p (c.loc p) t = 0
    rw [hloc]
    rfl
  · rw [hloc]
    trivial
  · rw [hloc] at hxs
    cases hxs
  · rw [hloc]
  · unfold work workOf
    simp only [hshared, hloc]
    exact ⟨fun _ _ => rfl, fun _ => rfl, nofun, nofun, fun _ => rfl⟩

/-! ### Emptying the queues -/

/-- The loop over the processors empties the queues of `me` each time. -/
def GC_sqClean (me : Fin n) (queues : Fin n → Fin 3 → List (Item n α)) :
    Fin n → Fin 3 → List (Item n α) :=
  (List.finRange n).foldl (fun queues _ => update queues me fun _ => []) queues

theorem gcSqClean_eq (me : Fin n) (queues : Fin n → Fin 3 → List (Item n α)) :
    GC_sqClean me queues = update queues me fun _ => [] := by
  have hfold : ∀ procs : List (Fin n), procs ≠ [] →
      procs.foldl (fun queues _ => update queues me fun _ => []) queues =
        update queues me fun _ => [] := by
    intro procs
    induction procs using reverseRecOn with
    | nil => exact fun hne => absurd rfl hne
    | append_singleton procs t ih =>
      intro _
      rw [foldl_append, foldl_cons, foldl_nil]
      by_cases hnil : procs = []
      · rw [hnil, foldl_nil]
      · rw [ih hnil, Function.update_idem]
  exact hfold _ (ne_nil_of_mem (mem_finRange me))

/-- The three queues of every processor are empty after `GC_sqClean` exactly if those of the others
were empty before. -/
theorem gcSqClean_empty_iff (me : Fin n) (queues : Fin n → Fin 3 → List (Item n α)) :
    (∀ t i, GC_sqClean me queues t i = []) ↔ ∀ t, t ≠ me → ∀ i, queues t i = [] := by
  rw [gcSqClean_eq]
  constructor
  · intro hall t ht i
    have hi := hall t i
    rwa [update_of_ne ht] at hi
  · intro hothers t i
    by_cases ht : t = me
    · rw [ht, update_self]
    · rw [update_of_ne ht]
      exact hothers t ht i

/-! ### The result -/

/-- The locks exclude, and the work that has been sent is dequeued by its target or still there. -/
structure Kept (c : Config (Fin n) (Shared n α) (Local n α)) : Prop where
  exclusive : ∀ t p q, 0 < depth p (c.loc p) t → 0 < depth q (c.loc q) t → p = q
  freed : ∀ t, (c.shared.schedulerLocks t).id = none ↔ ∀ p, depth p (c.loc p) t = 0
  /-- By queue, in the order of the enqueuings. -/
  ordered : ∀ t i,
    (c.shared.dequeued t i ++ c.shared.schedulerQueue t i).filter (·.channel = .queue i) =
      c.shared.sent.filter fun x => x.target = t ∧ x.channel = .queue i
  /-- Closures come through the array and its copy to the host queue. -/
  closures : ∀ t,
    (c.shared.dequeued t 0 ++ c.shared.schedulerQueue t 0).filter (·.channel = .closure) ++
        ((c.loc t).localArray ++ c.shared.directCloXferArray t) =
      c.shared.sent.filter fun x => x.target = t ∧ x.channel = .closure
  /-- A queue yields what was put into it, for its processor. -/
  kinds : ∀ t i, ∀ x ∈ c.shared.dequeued t i ++ c.shared.schedulerQueue t i,
    x.target = t ∧ (x.channel = .queue i ∨ (i = 0 ∧ x.channel = .closure))
  /-- What a processor has sent is there once, in the order of its calls. -/
  seqs : ∀ p, (c.shared.sent.filter (·.sender = p)).map Item.seq = List.range (c.loc p).next

theorem Inv.kept (h : Inv c) : Kept c where
  exclusive t _ _ hp hq := (h.lock.held t).exclusive hp hq
  freed t := (h.lock.held t).free_iff
  ordered := h.work.ordered
  closures := h.work.closures
  kinds := h.work.kinds
  seqs := h.work.seqs

/-- In every interleaving the work is kept; and `GC_sqClean` empties the queues exactly if those of
the other processors are empty. -/
theorem work_kept (c : Config (Fin n) (Shared n α) (Local n α))
    (h : (process n α).Reachable Start c) : Kept c ∧
      ∀ me, (∀ t i, GC_sqClean me c.shared.schedulerQueue t i = []) ↔
        ∀ t, t ≠ me → ∀ i, c.shared.schedulerQueue t i = [] := by
  refine ⟨(Process.ReachableWhile.invariant (I := Inv) ?_ ?_ h).kept, fun me =>
    gcSqClean_empty_iff me _⟩
  · intro c hc
    exact hc.inv
  · intro c me a s l _ _ hc hstep
    exact hc.step hstep

/-- Processor `0` enqueues a thread on the host queue of processor `1`. -/
def sendOne : List (Fin 2 × Act 2 ℕ) :=
  (⟨0, Nat.two_pos⟩, .call (.enque ⟨1, Nat.one_lt_two⟩ 0 7)) ::
    List.replicate 7 (⟨0, Nat.two_pos⟩, .go)

theorem sendOne_run : ∃ c, (process 2 ℕ).Reachable Start c ∧
    c.shared.schedulerQueue 1 0 = [⟨0, 0, 1, .queue 0, 7⟩] := by
  have hrun : ∃ c, (process 2 ℕ).run sendOne
      ⟨⟨fun _ => ⟨0, none⟩, fun _ _ => [], fun _ => [], [], fun _ _ => []⟩,
        fun _ => ⟨.idle, [], [], 0⟩⟩ = some c ∧
      c.shared.schedulerQueue 1 0 = [⟨0, 0, 1, .queue 0, 7⟩] :=
    ⟨_, rfl, rfl⟩
  obtain ⟨c, hrun, hqueue⟩ := hrun
  exact ⟨c, Process.reachable_of_run (.start ⟨rfl, fun _ => rfl⟩) hrun, hqueue⟩

theorem work_kept_sendOne : ∃ c : Config (Fin 2) (Shared 2 ℕ) (Local 2 ℕ),
    c.shared.schedulerQueue 1 0 = [⟨0, 0, 1, .queue 0, 7⟩] ∧ Kept c := by
  obtain ⟨c, hc, hqueue⟩ := sendOne_run
  exact ⟨c, hqueue, (work_kept c hc).1⟩

/-- The thread is still there after `GC_sqClean` by processor `0`. -/
theorem gcSqClean_not_all : ∃ c, (process 2 ℕ).Reachable Start c ∧
    ¬ ∀ t i, GC_sqClean 0 c.shared.schedulerQueue t i = [] := by
  obtain ⟨c, hc, hqueue⟩ := sendOne_run
  refine ⟨c, hc, fun hall => ?_⟩
  have hothers := (gcSqClean_empty_iff 0 c.shared.schedulerQueue).mp hall 1 (by decide) 0
  rw [hqueue] at hothers
  cases hothers

end MultiMLton.QueueLock
