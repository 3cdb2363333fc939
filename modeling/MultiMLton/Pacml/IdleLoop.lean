import Mathlib.Tactic
import MultiMLton.Pacml.FunPriorityQueue
import MultiMLton.Runtime.Processor

/-!
# Going to sleep

The idle loop of a processor: `next` and `nextWithCounter` of `core-cml/scheduler.sml`, `pauseHook`
of `core-cml/main.sml`, `preempt` and `timeWait` of `core-cml/timeout.sml`, with the checks of the
queues in `gc/scheduler-queue.c` and `Parallel_wait` and `Parallel_wakeUpThread` of `gc/parallel.c`.
A parasite that the loop runs may block, insert timeouts, be preempted with the loop below it, or be
put off at a write barrier.

* `Shared`, `Local`, `Act`, `step`: one access at a time; a wake-up, which holds the mutex of the
  processor that it wakes, is one step, and so is each step of `Processor.step`;
* `Change`: what a step leaves to the invariants;
* `Watched`: what has been checked before the processor sleeps, against the wake-ups to come;
* `Settled`: once the loop has found that no timeout is pending, there are no timeouts, and no
  parasites that could insert one;
* `never_sleeps_over_work`.

A thread is enqueued together with a serial number, and the wake-up that follows carries it.  Only
`enqueueParasite`, which is called with the number of its own processor, and the write-barrier array
of a processor put parasites on its queue.
-/

namespace MultiMLton.IdleLoop

open Interleave FunPriorityQueue List Option
open Config (put_loc_of_ne put_loc_self put_shared)
open Function (update update_of_ne update_self)

/-! ### The code -/

/-- `Config.maxIter` -/
def maxIter : ℕ := 5000

/-- The arguments of `nextWithCounter`; `timeout` is `to`, which is `NONE`, `SOME NONE` or
`SOME (SOME t)`. -/
structure Counter where
  iter : ℕ
  timeout : Option (Option ℤ)
  deriving DecidableEq

/-- A thread that waits for a time. -/
abbrev Item := Elt ℤ ℕ

/-- What follows on `preempt ()`. -/
inductive Back
  /-- `timeoutCleanup`, in `yield` -/
  | run (loop : Option Counter)
  /-- `alrmHandler` -/
  | next
  /-- `pauseHook` with `iter` `0` -/
  | hook
  /-- `pauseHook` with `iter` beyond `maxIter` and `to` being `SOME` -/
  | again (timeout : Option ℤ)

/-- Code that can be preempted and resumed.  `loop` is the idle loop that runs it as a parasite, if
there is one. -/
inductive Code
  | run (loop : Option Counter)
  /-- before the `Array.update` of `timeWait` -/
  | timeWait (loop : Option Counter) (timeQ : List Item)
  | preempt (back : Back)
  /-- `cleanPrefix` -/
  | cleaning (back : Back) (readied : Bool) (rest : List Item)
  /-- before the `Array.update` of `preempt` -/
  | storing (back : Back) (readied : Bool) (rest : List Item)

structure Thread where
  serial : ℕ
  code : Code

/-- The queues of a processor, and its `directCloXferArray`. -/
inductive Sub
  | primary
  | secondary
  | parasites
  | closures
  deriving DecidableEq

/-- Where the idle loop is. -/
inductive Point
  /-- `flushFromDirectCloXferArray`, in `GC_sqIsEmptyPrio (2)` or in `GC_sqIsEmpty` -/
  | flush (par : Bool)
  | flushing (par : Bool) (localArray : List Thread)
  /-- `Parallel_maybeWaitForGC ()`, in `GC_sqIsEmpty` -/
  | maybeWait
  | primary
  | secondary
  /-- `forceLocalGC` -/
  | forced
  | parasites
  | deque
  | dequeParasite
  /-- `maybeWaitForGC ()`, after a parasite -/
  | maybeWaitForGC
  | pauseHook
  /-- `case to of`, in `pauseHook` -/
  | decide
  /-- `Parallel_wait` -/
  | lock
  | testSection
  | testData
  | condWait
  | wait
  | clear

inductive Place
  | code (code : Code)
  | idle (point : Point) (counter : Counter)

/-- A call of `Parallel_wakeUpThread` to come. -/
inductive Wake (n : ℕ)
  /-- after an enqueuing -/
  | data (proc : Fin n) (serial : ℕ)
  /-- the loop over the processors in `Proc_beginCriticalSection` -/
  | everyone (i : ℕ)

/-- Whether a processor is in `pthread_cond_wait`, and has been signaled. -/
inductive Cond
  | none
  | waiting
  | signaled
  deriving DecidableEq

/-- `next` is the next serial number. -/
structure Shared (n : ℕ) where
  queue : Fin n → Sub → List Thread
  timeQ : Fin n → List Item
  /-- the code, and whether it is a parasite without its host -/
  preemptOnWBA : Fin n → List (Bool × Code)
  spawnOnWBA : Fin n → List (Fin n)
  dataInMutatorQ : Fin n → Bool
  waitMutex : Fin n → Bool
  waitCondVar : Fin n → Cond
  sections : Processor.Shared n Unit
  next : ℕ

structure Local (n : ℕ) where
  place : Place
  wake : Option (Wake n)
  proc : Processor.Local Unit

/-- What a processor does where the code leaves it open; otherwise it goes on. -/
inductive Act (n : ℕ)
  | go
  /-- a critical section -/
  | beginSection
  /-- a local collection moves a thread from one of the write-barrier arrays -/
  | collect
  /-- `PacmlFFI.wakeUp (proc, 1)` -/
  | wakeUp (proc : Fin n)
  | enqueHost (proc : Fin n) (prio : Bool)
  | transfer (proc : Fin n)
  | enqueParasite
  | timeWait (time : ℤ) (thread : ℕ)
  | addToSpawnOnWBA (proc : Fin n)
  /-- the timer: `alrmHandler` -/
  | alarm (prio : Bool)
  | yield
  | promote
  /-- `preemptOnWriteBarrier`, and whether the parasite is taken off its host -/
  | writeBarrier (parasite : Bool)
  /-- `cleaner`, with the time, what the `cas` has returned, and the processor of the thread -/
  | clean (now : ℤ) (res : Fin 3) (proc : Fin n)

variable {n : ℕ}

def enque (s : Shared n) (t : Fin n) (q : Sub) (code : Code) : Shared n := { s with
  queue := update s.queue t
    (update (s.queue t) q (s.queue t q ++ [⟨s.next, code⟩]))
  next := s.next + 1 }

def setQueue (s : Shared n) (t : Fin n) (q : Sub) (xs : List Thread) : Shared n :=
  { s with queue := update s.queue t (update (s.queue t) q xs) }

/-- `sqEnque`, with the wake-up to come. -/
def sqEnque (s : Shared n) (l : Local n) (t : Fin n) (q : Sub) (code : Code) (place : Place) :
    Shared n × Local n :=
  (enque s t q code, { l with place := place, wake := some (.data t s.next) })

/-- `Parallel_wakeUpThread (t, dataIn)` -/
def wakeUp (s : Shared n) (t : Fin n) (dataIn : Bool) : Shared n := { s with
  dataInMutatorQ := update s.dataInMutatorQ t (dataIn || s.dataInMutatorQ t)
  waitCondVar := update s.waitCondVar t
    (if s.waitCondVar t = .waiting then .signaled else s.waitCondVar t) }

def perform (s : Shared n) (l : Local n) : Wake n → Option (Shared n × Local n)
  | .data t _ =>
    if s.waitMutex t then none else some (wakeUp s t true, { l with wake := none })
  | .everyone i =>
    if h : i < n then
      if s.waitMutex ⟨i, h⟩ then none
      else some (wakeUp s ⟨i, h⟩ false, { l with wake := some (.everyone (i + 1)) })
    else some (s, { l with wake := none })

/-- `Proc_threadInSection` -/
def threadInSection (s : Shared n) : Bool := 0 < s.sections.criticalCount

/-- A step in `Proc_beginCriticalSection` or `Proc_endCriticalSection`; the first processor of a
round wakes up the others. -/
def sectionStep (me : Fin n) (s : Shared n) (l : Local n) : Option (Shared n × Local n) :=
  (Processor.step me .go s.sections l.proc).map fun r => ({ s with sections := r.1 }, { l with
    proc := r.2
    wake := match r.2.pc with
      | .counted p => if p = 1 then some (.everyone 0) else none
      | _ => none })

/-- `Parallel_maybeWaitForGC` -/
def maybeWaitForGC (me : Fin n) (s : Shared n) (l : Local n) (point : Point) (c : Counter) :
    Option (Shared n × Local n) :=
  if threadInSection s then sectionStep me s { l with place := .idle point c }
  else some (s, { l with place := .idle point c })

/-- `liftAllObjptrsInMoveOnWBA`, one thread at a time. -/
def collect (me : Fin n) (s : Shared n) (l : Local n) : Option (Shared n × Local n) :=
  match s.preemptOnWBA me, s.spawnOnWBA me with
  | (parasite, code) :: rest, _ =>
    some (sqEnque { s with preemptOnWBA := update s.preemptOnWBA me rest } l me
      (if parasite then .parasites else .primary) code l.place)
  | [], proc :: rest =>
    some (sqEnque { s with spawnOnWBA := update s.spawnOnWBA me rest } l proc .primary
      (.run none) l.place)
  | [], [] => none

/-! ### Timeouts -/

/-- The result of `preempt`. -/
def preemptResult (readied : Bool) (rest : List Item) : Option (Option ℤ) :=
  if readied then some none else (peek rest).map fun _ => some 0

/-- `nextWithCounter` -/
def nextWithCounter (iter : ℕ) (timeout : Option (Option ℤ)) : Place :=
  .idle (.flush false) ⟨iter, timeout⟩

def Back.resume (res : Option (Option ℤ)) : Back → Place
  | .run loop => .code (.run loop)
  | .next => nextWithCounter 0 none
  | .hook => .idle .decide ⟨0, res⟩
  | .again timeout => nextWithCounter 1 (some timeout)

/-! ### Code -/

/-- The loop below code that is a parasite's, or a thread's. -/
def Code.loop : Code → Option (Option Counter)
  | .run loop => some loop
  | .timeWait loop _ => some loop
  | .storing (.run loop) _ _ => some loop
  | _ => none

def Code.setLoop (loop : Option Counter) : Code → Code
  | .run _ => .run loop
  | .timeWait _ timeQ => .timeWait loop timeQ
  | .storing (.run _) readied rest => .storing (.run loop) readied rest
  | code => code

/-- What the host of a parasite goes on with: the thread below, or the idle loop. -/
def jumpDown : Option Counter → Place
  | none => .code (.run none)
  | some c => .idle .maybeWaitForGC c

/-- `addToPreemptOnWBA` -/
def putOff (me : Fin n) (s : Shared n) (x : Bool × Code) : Shared n :=
  { s with preemptOnWBA := update s.preemptOnWBA me (s.preemptOnWBA me ++ [x]) }

def codeStep (me : Fin n) (s : Shared n) (l : Local n) :
    Code → Act n → Option (Shared n × Local n)
  -- the thread blocks or ends
  | .run none, .go => some (s, { l with place := nextWithCounter 0 none })
  | .run (some c), .go => some (s, { l with place := jumpDown (some c) })
  | .run loop, .enqueHost t prio =>
    some (sqEnque s l t (if prio then .primary else .secondary) (.run none) (.code (.run loop)))
  | .run loop, .transfer t => some (sqEnque s l t .closures (.run none) (.code (.run loop)))
  | .run loop, .enqueParasite =>
    some (sqEnque s l me .parasites (.run none) (.code (.run loop)))
  | .run loop, .addToSpawnOnWBA t =>
    some ({ s with spawnOnWBA := update s.spawnOnWBA me (s.spawnOnWBA me ++ [t]) },
      { l with place := .code (.run loop) })
  | .run loop, .timeWait time thread =>
    some (s, { l with
      place := .code (.timeWait loop (FunPriorityQueue.enque (s.timeQ me) time thread)) })
  | .timeWait loop timeQ, .go => some ({ s with timeQ := update s.timeQ me timeQ },
      { l with place := .code (.run loop) })
  | .run loop, .alarm prio =>
    some (sqEnque s l me (if prio then .primary else .secondary) (.run loop)
      (.code (.preempt .next)))
  | .run loop, .yield => some (s, { l with place := .code (.preempt (.run loop)) })
  | .run loop, .promote => match s.queue me .secondary with
    | [] => some (s, { l with place := .code (.run loop) })
    | x :: xs => some (sqEnque (setQueue s me .secondary xs) l me .primary x.code
        (.code (.run loop)))
  -- Timeout.preempt
  | .preempt back, .go =>
    if (s.timeQ me).isEmpty then some (s, { l with place := back.resume none })
    else some (s, { l with place := .code (.cleaning back false (s.timeQ me)) })
  | .cleaning back readied [], .go => some (s, { l with place := .code (.storing back readied []) })
  | .cleaning back readied (e :: rest), .clean now res t =>
    if now < e.key then some (s, { l with place := .code (.storing back readied (e :: rest)) })
    else if res.val = 0 then
      some (sqEnque s l t .primary (.run none) (.code (.cleaning back true rest)))
    else if res.val = 1 then some (s, { l with place := .code (.cleaning back readied (e :: rest)) })
    else some (s, { l with place := .code (.cleaning back readied rest) })
  | .storing back readied rest, .go =>
    some ({ s with timeQ := update s.timeQ me rest },
      { l with place := back.resume (preemptResult readied rest) })
  -- an empty queue is no pointer, and its update has no write barrier
  | .storing _ _ [], .writeBarrier _ => none
  | code, .writeBarrier true => code.loop.map fun loop =>
    (putOff me s (true, code.setLoop none), { l with place := jumpDown loop })
  | .run loop, .writeBarrier false =>
    some (putOff me s (false, .run loop), { l with place := nextWithCounter 0 none })
  | .timeWait loop timeQ, .writeBarrier false =>
    some (putOff me s (false, .timeWait loop timeQ), { l with place := nextWithCounter 0 none })
  | .storing back readied rest, .writeBarrier false =>
    some (putOff me s (false, .storing back readied rest),
      { l with place := nextWithCounter 0 none })
  | _, _ => none

section Equations

attribute [local simp] codeStep

end Equations

/-! ### The idle loop -/

def deque (me : Fin n) (s : Shared n) (l : Local n) (c : Counter) : Shared n × Local n :=
  match s.queue me .primary, s.queue me .secondary with
  | x :: xs, _ => (setQueue s me .primary xs, { l with place := .code x.code })
  | [], x :: xs => (setQueue s me .secondary xs, { l with place := .code x.code })
  | [], [] => (s, { l with place := nextWithCounter c.iter c.timeout })

def idleStep (me : Fin n) (s : Shared n) (l : Local n) (c : Counter) :
    Point → Option (Shared n × Local n)
  -- flushFromDirectCloXferArray
  | .flush par => some (setQueue s me .closures [],
      { l with place := .idle (.flushing par (s.queue me .closures)) c })
  | .flushing par (x :: xs) =>
    some (sqEnque s l me .primary x.code (.idle (.flushing par xs) c))
  | .flushing par [] => some (s, { l with
      place := .idle (if par then .parasites else .maybeWait) c })
  -- GC_sqIsEmpty
  | .maybeWait => maybeWaitForGC me s l .primary c
  | .primary => some (s, { l with
      place := .idle (if (s.queue me .primary).isEmpty then .secondary else .deque) c })
  | .secondary => some (s, { l with
      place := .idle (if (s.queue me .secondary).isEmpty then
        if (s.preemptOnWBA me).isEmpty ∧ (s.spawnOnWBA me).isEmpty then .flush true else .forced
      else .deque) c })
  | .forced =>
    if (s.preemptOnWBA me).isEmpty ∧ (s.spawnOnWBA me).isEmpty then
      some (s, { l with place := .idle .deque c })
    else none
  | .deque => some (deque me s l c)
  -- GC_sqIsEmptyPrio (2)
  | .parasites => some (s, { l with
      place := .idle (if (s.queue me .parasites).isEmpty then .pauseHook else .dequeParasite) c })
  | .dequeParasite => match s.queue me .parasites with
    | [] => none
    | x :: xs => some (setQueue s me .parasites xs,
        { l with place := .code (x.code.setLoop (some c)) })
  | .maybeWaitForGC => maybeWaitForGC me s l (.flush false) c
  -- pauseHook
  | .pauseHook =>
    if c.iter = 0 then some (s, { l with place := .code (.preempt .hook) })
    else some (s, { l with place := .idle .decide c })
  | .decide => match c.timeout with
    | none =>
      if c.iter > maxIter then some (s, { l with place := .idle .lock c })
      else some (s, { l with place := nextWithCounter (c.iter + 1) none })
    | some timeout =>
      if c.iter > maxIter then some (s, { l with place := .code (.preempt (.again timeout)) })
      else some (s, { l with place := nextWithCounter (c.iter + 1) (some timeout) })
  -- Parallel_wait
  | .lock =>
    if s.waitMutex me then none
    else some ({ s with waitMutex := update s.waitMutex me true },
      { l with place := .idle .testSection c })
  | .testSection => some (s, { l with
      place := .idle (if threadInSection s then .clear else .testData) c })
  | .testData => some (s, { l with
      place := .idle (if s.dataInMutatorQ me then .clear else .condWait) c })
  | .condWait => some ({ s with
      waitMutex := update s.waitMutex me false
      waitCondVar := update s.waitCondVar me .waiting },
      { l with place := .idle .wait c })
  -- the signal, or a spurious wake-up
  | .wait =>
    if s.waitMutex me then none
    else some ({ s with
      waitMutex := update s.waitMutex me true
      waitCondVar := update s.waitCondVar me .none },
      { l with place := .idle .clear c })
  | .clear => some ({ s with
      dataInMutatorQ := update s.dataInMutatorQ me false
      waitMutex := update s.waitMutex me false },
      { l with place := nextWithCounter (c.iter - 1 + 1) c.timeout })

section Equations

attribute [local simp] idleStep

end Equations

/-- Whether a processor is in `Parallel_wait`. -/
def Place.inWait : Place → Bool
  | .idle .lock _ | .idle .testSection _ | .idle .testData _ | .idle .condWait _ | .idle .wait _
  | .idle .clear _ => true
  | _ => false

def placeStep (me : Fin n) (a : Act n) (s : Shared n) (l : Local n) :
    Option (Shared n × Local n) :=
  match a, l.place with
  | .beginSection, place => if place.inWait then none else sectionStep me s l
  | .collect, place => if place.inWait then none else collect me s l
  | .wakeUp t, place =>
    if place.inWait ∨ s.waitMutex t then none else some (wakeUp s t true, l)
  | a, .code code => codeStep me s l code a
  | .go, .idle point c => idleStep me s l c point
  | _, _ => none

def step (me : Fin n) (a : Act n) (s : Shared n) (l : Local n) : Option (Shared n × Local n) :=
  match l.wake, l.proc.pc, a with
  | some w, _, .go => perform s l w
  | none, .outside, a => placeStep me a s l
  | none, _, .go => sectionStep me s l
  | _, _, _ => none

def process (n : ℕ) : Process (Fin n) (Act n) (Shared n) (Local n) := ⟨step⟩

/-- Every processor runs a thread; threads that are ready or wait for a time may be there. -/
structure Start (c : Config (Fin n) (Shared n) (Local n)) : Prop where
  loc : ∀ p, c.loc p = ⟨.code (.run none), none, ⟨.outside, 0, 0⟩⟩
  sections : c.shared.sections = ⟨0, -1, (), []⟩
  queue : ∀ t q, ∀ x ∈ c.shared.queue t q, x.code = .run none ∧ x.serial < c.shared.next
  preemptOnWBA : ∀ t, ∀ x ∈ c.shared.preemptOnWBA t, x.2 = .run none
  waitMutex : ∀ t, c.shared.waitMutex t = false
  waitCondVar : ∀ t, c.shared.waitCondVar t = .none

/-! ### What a step changes -/

/-- How far the loop has to come before a queue has been found empty. -/
def Sub.level : Sub → ℕ
  | .closures => 1
  | .primary => 2
  | .secondary => 3
  | .parasites => 4

def Point.level (iter : ℕ) : Point → ℕ
  | .flushing false _ | .maybeWait | .primary => 1
  | .secondary => 2
  | .flush true | .flushing true _ | .parasites => 3
  | .pauseHook | .lock | .testSection | .testData | .condWait | .wait => 4
  -- a new status of the timeouts leads back to the queues
  | .decide => if iter = 0 then 0 else 4
  | _ => 0

def Place.level : Place → ℕ
  | .code _ => 0
  | .idle point c => point.level c.iter

theorem Sub.level_pos (q : Sub) : 0 < q.level := by
  cases q <;> exact Nat.succ_pos _

theorem Sub.lt_or_eq {q : Sub} (q' : Sub) (h : q.level ≤ q'.level) :
    q.level < q'.level ∨ q = q' := by
  rcases Nat.lt_or_eq_of_le h with hlt | heq
  · exact Or.inl hlt
  · right
    cases q <;> cases q' <;> first | rfl | cases heq

theorem Sub.level_le (q : Sub) : q.level ≤ 4 := by
  cases q <;> decide

/-- Whether a processor holds its mutex. -/
def Place.holds : Place → Bool
  | .idle .testSection _ | .idle .testData _ | .idle .condWait _ | .idle .clear _ => true
  | _ => false

/-- The data flag has been read, and the processor will sleep or sleeps. -/
def dozing (cond : Cond) : Place → Prop
  | .idle .condWait _ => True
  | .idle .wait _ => cond = .waiting
  | _ => False

/-- The count of the processors in a section has been read. -/
def watching (cond : Cond) (place : Place) : Prop :=
  dozing cond place ∨ ∃ c, place = .idle .testData c

/-- A step leaves the mutexes, the flags and the counters alone. -/
structure Same (s s' : Shared n) : Prop where
  dataInMutatorQ : s'.dataInMutatorQ = s.dataInMutatorQ
  waitMutex : s'.waitMutex = s.waitMutex
  waitCondVar : s'.waitCondVar = s.waitCondVar
  sections : s'.sections = s.sections

/-- What a step of `me` leaves to the invariants. -/
structure Change (me : Fin n) (s : Shared n) (l : Local n) (s' : Shared n) (l' : Local n) :
    Prop where
  /-- What is new in a queue has its wake-up to come. -/
  queue : ∀ t q, ∀ x ∈ s'.queue t q, x ∈ s.queue t q ∨ l'.wake = some (.data t x.serial)
  data : ∀ t m, l.wake = some (.data t m) → s'.dataInMutatorQ t = true
  /-- A flag is cleared on the way to the next round only. -/
  flag : ∀ t, s.dataInMutatorQ t = true → s'.dataInMutatorQ t = true ∨ (t = me ∧ l'.place.level = 0)
  /-- The loop goes on when it has found a queue empty. -/
  checked : ∀ q : Sub, q.level ≤ l'.place.level → q.level ≤ l.place.level ∨ s'.queue me q = []
  count : threadInSection s' → threadInSection s ∨ l'.wake = some (.everyone 0)
  called : ∀ i, l.wake = some (.everyone i) → ∀ t : Fin n, i ≤ t →
    (l'.wake = some (.everyone (i + 1)) ∧ i < t) ∨
      (s'.waitMutex t = false ∧ s'.waitCondVar t ≠ .waiting)
  mutex : ∀ t, t ≠ me → s'.waitMutex t = s.waitMutex t
  holds : s.waitMutex me = l.place.holds → s'.waitMutex me = l'.place.holds
  cond : ∀ t, t ≠ me → s'.waitCondVar t = .waiting → s.waitCondVar t = .waiting
  /-- Whoever raises a flag holds the mutex and signals. -/
  raised : ∀ t, s'.dataInMutatorQ t = true → s.dataInMutatorQ t = true ∨
    (s'.waitMutex t = false ∧ s'.waitCondVar t ≠ .waiting)
  watch : watching (s'.waitCondVar me) l'.place →
    watching (s.waitCondVar me) l.place ∨ ¬ threadInSection s'
  doze : dozing (s'.waitCondVar me) l'.place →
    dozing (s.waitCondVar me) l.place ∨ s'.dataInMutatorQ me = false

variable {place : Place} {code : Code} {t : Fin n} {c : Counter}

section

variable {me : Fin n} {s s' : Shared n} {l l' : Local n}

theorem Place.holds_of_not_inWait (h : place.inWait = false) : place.holds = false := by
  cases place with
  | code _ => rfl
  | idle point c => cases point <;> first | rfl | cases h

theorem not_watching (h : place.inWait = false) (cond : Cond) : ¬ watching cond place := by
  unfold watching dozing
  cases place with
  | code _ => simp
  | idle point c => cases point <;> simp_all [Place.inWait]

theorem mem_enque {t t' : Fin n} {q q' : Sub} {x : Thread}
    (h : x ∈ (enque s t q code).queue t' q') :
    x ∈ s.queue t' q' ∨ (t' = t ∧ q' = q ∧ x = ⟨s.next, code⟩) := by
  unfold enque at h
  dsimp only at h
  by_cases ht : t' = t
  · subst ht
    rw [update_self] at h
    by_cases hq : q' = q
    · subst hq
      rw [update_self, mem_append, mem_singleton] at h
      exact h.imp_right fun h => ⟨rfl, rfl, h⟩
    · rw [update_of_ne hq] at h
      exact Or.inl h
  · rw [update_of_ne ht] at h
    exact Or.inl h

theorem setQueue_self (t : Fin n) (q : Sub) (xs : List Thread) :
    (setQueue s t q xs).queue t q = xs := by
  simp [setQueue]

theorem mem_setQueue {t t' : Fin n} {q q' : Sub} {xs : List Thread} {x : Thread}
    (hsub : xs ⊆ s.queue t q) (h : x ∈ (setQueue s t q xs).queue t' q') : x ∈ s.queue t' q' := by
  unfold setQueue at h
  dsimp only at h
  by_cases ht : t' = t
  · subst ht
    rw [update_self] at h
    by_cases hq : q' = q
    · subst hq
      rw [update_self] at h
      exact hsub h
    · rwa [update_of_ne hq] at h
  · rwa [update_of_ne ht] at h

/-- The steps outside of `Parallel_wait`. -/
theorem Change.of_same (hwake : l.wake = none) (hsame : Same s s')
    (hqueue : ∀ t q, ∀ x ∈ s'.queue t q, x ∈ s.queue t q ∨ l'.wake = some (.data t x.serial))
    (hin : l.place.inWait = false) (hin' : l'.place.inWait = false)
    (hchecked : ∀ q : Sub, q.level ≤ l'.place.level →
      q.level ≤ l.place.level ∨ s'.queue me q = []) :
    Change me s l s' l' where
  queue := hqueue
  data t m h := by rw [hwake] at h; cases h
  flag t h := Or.inl (by rw [hsame.dataInMutatorQ]; exact h)
  checked := hchecked
  count h := Or.inl (by unfold threadInSection at h ⊢; rwa [hsame.sections] at h)
  called i h := by rw [hwake] at h; cases h
  mutex t _ := by rw [hsame.waitMutex]
  holds h := by
    rw [hsame.waitMutex, h, Place.holds_of_not_inWait hin, Place.holds_of_not_inWait hin']
  cond t _ h := by rwa [hsame.waitCondVar] at h
  raised t h := Or.inl (by rwa [hsame.dataInMutatorQ] at h)
  watch h := absurd h (not_watching hin' _)
  doze h := absurd (Or.inl h) (not_watching hin' _)

/-- An enqueuing, on what is left after threads were taken off. -/
theorem Change.of_sqEnque {s₁ : Shared n} {q : Sub} (hwake : l.wake = none) (hsame : Same s s₁)
    (hqueue : ∀ t q, ∀ x ∈ s₁.queue t q, x ∈ s.queue t q)
    (hin : l.place.inWait = false) (hin' : place.inWait = false)
    (hlevel : place.level ≤ l.place.level) :
    Change me s l (sqEnque s₁ l t q code place).1 (sqEnque s₁ l t q code place).2 := by
  refine Change.of_same hwake ⟨hsame.1, hsame.2, hsame.3, hsame.4⟩ ?_ hin hin' fun q' hq' =>
    Or.inl (hq'.trans hlevel)
  intro t' q' x hx
  rcases mem_enque hx with hold | ⟨rfl, -, rfl⟩
  · exact Or.inl (hqueue t' q' x hold)
  · exact Or.inr rfl

theorem Same.refl (s : Shared n) : Same s s := ⟨rfl, rfl, rfl, rfl⟩

theorem collect_change (hwake : l.wake = none) (hin : l.place.inWait = false)
    (hstep : collect me s l = some (s', l')) : Change me s l s' l' := by
  unfold collect at hstep
  split at hstep
  · cases hstep
    exact Change.of_sqEnque hwake ⟨rfl, rfl, rfl, rfl⟩ (fun _ _ _ h => h) hin hin le_rfl
  · cases hstep
    exact Change.of_sqEnque hwake ⟨rfl, rfl, rfl, rfl⟩ (fun _ _ _ h => h) hin hin le_rfl
  · cases hstep

/-- A step of the mutator, or of `preempt`, leads to the beginning of a round. -/
structure Outside (s s' : Shared n) (l l' : Local n) : Prop where
  same : Same s s'
  inWait : l'.place.inWait = false
  level : l'.place.level = 0
  queue : ∀ t q, ∀ x ∈ s'.queue t q, x ∈ s.queue t q ∨ l'.wake = some (.data t x.serial)

theorem Outside.quiet (hsame : Same s s') (hqueue : s'.queue = s.queue)
    (hin : place.inWait = false) (hlevel : place.level = 0) :
    Outside s s' l { l with place := place } :=
  ⟨hsame, hin, hlevel, fun t q x hx => Or.inl (by rwa [hqueue] at hx)⟩

theorem Outside.sqEnque {s₁ : Shared n} {q : Sub} {code code' : Code}
    (hsame : Same s s₁) (hqueue : ∀ t q, ∀ x ∈ s₁.queue t q, x ∈ s.queue t q) :
    Outside s (sqEnque s₁ l t q code (.code code')).1 l
      (sqEnque s₁ l t q code (.code code')).2 := by
  refine ⟨⟨hsame.1, hsame.2, hsame.3, hsame.4⟩, rfl, rfl, fun t' q' x hx => ?_⟩
  rcases mem_enque hx with hold | ⟨rfl, -, rfl⟩
  · exact Or.inl (hqueue t' q' x hold)
  · exact Or.inr rfl

theorem Back.resume_inWait (res : Option (Option ℤ)) (back : Back) :
    (back.resume res).inWait = false := by
  cases back <;> rfl

theorem Back.resume_level (res : Option (Option ℤ)) (back : Back) :
    (back.resume res).level = 0 := by
  cases back <;> rfl

theorem jumpDown_outside (loop : Option Counter) :
    (jumpDown loop).inWait = false ∧ (jumpDown loop).level = 0 := by
  cases loop <;> exact ⟨rfl, rfl⟩

theorem codeStep_outside {a : Act n}
    (hstep : codeStep me s l code a = some (s', l')) : Outside s s' l l' := by
  unfold codeStep at hstep
  split at hstep
  case h_1 | h_2 | h_7 | h_10 | h_13 =>
    cases hstep
    exact Outside.quiet (Same.refl s) rfl rfl rfl
  case h_6 | h_8 | h_18 | h_19 | h_20 =>
    cases hstep
    exact Outside.quiet ⟨rfl, rfl, rfl, rfl⟩ rfl rfl rfl
  case h_3 | h_4 | h_5 | h_9 =>
    cases hstep
    exact Outside.sqEnque (Same.refl s) fun _ _ _ h => h
  case h_11 =>
    -- promote
    split at hstep
    · cases hstep
      exact Outside.quiet (Same.refl s) rfl rfl rfl
    · rename_i x xs hsec
      cases hstep
      refine Outside.sqEnque ⟨rfl, rfl, rfl, rfl⟩ fun t q y hy => mem_setQueue ?_ hy
      rw [hsec]
      exact subset_cons_self x xs
  case h_12 back =>
    -- preempt
    split_ifs at hstep
    · cases hstep
      exact Outside.quiet (Same.refl s) rfl (Back.resume_inWait _ back) (Back.resume_level _ back)
    · cases hstep
      exact Outside.quiet (Same.refl s) rfl rfl rfl
  case h_14 =>
    -- cleaner
    split_ifs at hstep
    · cases hstep
      exact Outside.quiet (Same.refl s) rfl rfl rfl
    · cases hstep
      exact Outside.sqEnque (Same.refl s) fun _ _ _ h => h
    · cases hstep
      exact Outside.quiet (Same.refl s) rfl rfl rfl
    · cases hstep
      exact Outside.quiet (Same.refl s) rfl rfl rfl
  case h_15 back readied rest =>
    cases hstep
    exact Outside.quiet ⟨rfl, rfl, rfl, rfl⟩ rfl (Back.resume_inWait _ back)
      (Back.resume_level _ back)
  case h_17 =>
    obtain ⟨loop, -, hloop⟩ := map_eq_some_iff.mp hstep
    cases hloop
    exact Outside.quiet ⟨rfl, rfl, rfl, rfl⟩ rfl (jumpDown_outside loop).1 (jumpDown_outside loop).2
  case h_16 | h_21 => cases hstep

theorem Outside.change (h : Outside s s' l l') (hwake : l.wake = none)
    (hin : l.place.inWait = false) : Change me s l s' l' := by
  refine Change.of_same hwake h.same h.queue hin h.inWait fun q hq => ?_
  rw [h.level] at hq
  exact absurd hq (not_le.mpr q.level_pos)

theorem sections_count {σ σ' : Processor.Shared n Unit} {p p' : Processor.Local Unit}
    (hstep : Processor.step me .go σ p = some (σ', p')) (hcount : 0 < σ'.criticalCount) :
    0 < σ.criticalCount ∨ p'.pc = .counted 1 := by
  obtain ⟨pc, begun, done⟩ := p
  cases pc with
  | outside =>
    cases hstep
    dsimp only at hcount ⊢
    by_cases h : 0 < σ.criticalCount
    · exact Or.inl h
    · have hzero : σ.criticalCount = 0 := by omega
      exact Or.inr (by rw [hzero]; rfl)
  | inSection _ | resetTicket =>
    cases hstep
    exact Or.inl hcount
  | ticked v =>
    simp only [Processor.step] at hstep
    split_ifs at hstep
    · cases hstep
      exact absurd hcount (lt_irrefl 0)
    · cases hstep
      exact Or.inl hcount
  | _ =>
    simp only [Processor.step] at hstep
    split_ifs at hstep <;>
    · cases hstep
      exact Or.inl hcount

/-- A step in a section, or into one, from where the loop may go on. -/
theorem sectionStep_change (place : Place) (hwake : l.wake = none)
    (hlevel : place.level ≤ l.place.level)
    (hplace : place = l.place ∨ (l.place.inWait = false ∧ place.inWait = false))
    (hstep : sectionStep me s { l with place := place } = some (s', l')) :
    Change me s l s' l' := by
  obtain ⟨⟨σ, p⟩, hsection, hr⟩ := map_eq_some_iff.mp hstep
  cases hr
  refine ⟨fun _ _ _ h => Or.inl h, ?_, fun _ h => Or.inl h,
    fun q hq => Or.inl (hq.trans hlevel), ?_, ?_, fun _ _ => rfl, ?_, fun _ _ h => h,
    fun _ h => Or.inl h, ?_, ?_⟩
  · intro t m h
    rw [hwake] at h
    cases h
  · intro h
    unfold threadInSection at h ⊢
    rw [decide_eq_true_iff] at h ⊢
    refine (sections_count hsection h).imp_right fun hpc => ?_
    dsimp only
    rw [hpc]
    exact if_pos rfl
  · intro i h
    rw [hwake] at h
    cases h
  · rcases hplace with rfl | ⟨hin, hin'⟩
    · exact id
    · intro h
      rw [Place.holds_of_not_inWait hin] at h
      exact h.trans (Place.holds_of_not_inWait hin').symm
  · rcases hplace with rfl | ⟨-, hin'⟩
    · exact Or.inl
    · exact fun h => absurd h (not_watching hin' _)
  · rcases hplace with rfl | ⟨-, hin'⟩
    · exact Or.inl
    · exact fun h => absurd (Or.inl h) (not_watching hin' _)

theorem maybeWaitForGC_change {point : Point} (hwake : l.wake = none)
    (hlevel : (Place.idle point c).level ≤ l.place.level) (hin : l.place.inWait = false)
    (hin' : (Place.idle point c).inWait = false)
    (hstep : maybeWaitForGC me s l point c = some (s', l')) : Change me s l s' l' := by
  unfold maybeWaitForGC at hstep
  split_ifs at hstep
  · exact sectionStep_change _ hwake hlevel (Or.inr ⟨hin, hin'⟩) hstep
  · cases hstep
    exact Change.of_same hwake (Same.refl s) (fun _ _ _ h => Or.inl h) hin hin' fun q hq =>
      Or.inl (hq.trans hlevel)

/-- A processor wakes up `t`, with its wake-ups to come as they should be. -/
theorem wakeUp_change {dataIn : Bool} {w : Option (Wake n)} (hmutex : s.waitMutex t = false)
    (hdata : ∀ t' m, l.wake = some (.data t' m) → t' = t ∧ dataIn = true)
    (hcalled : ∀ i, l.wake = some (.everyone i) → i = t ∧ w = some (.everyone (i + 1))) :
    Change me s l (wakeUp s t dataIn) { l with wake := w } := by
  have hcond : ∀ t', (wakeUp s t dataIn).waitCondVar t' = .waiting →
      t' ≠ t ∧ s.waitCondVar t' = .waiting := by
    intro t' h
    unfold wakeUp at h
    dsimp only at h
    by_cases ht : t' = t
    · subst ht
      rw [update_self] at h
      split_ifs at h with hw
      exact absurd h hw
    · rw [update_of_ne ht] at h
      exact ⟨ht, h⟩
  have hsignaled : (wakeUp s t dataIn).waitCondVar t ≠ .waiting := fun h => (hcond t h).1 rfl
  have hflag : ∀ t', (wakeUp s t dataIn).dataInMutatorQ t' =
      if t' = t then dataIn || s.dataInMutatorQ t else s.dataInMutatorQ t' := by
    intro t'
    unfold wakeUp
    dsimp only
    by_cases ht : t' = t
    · subst ht
      rw [update_self, if_pos rfl]
    · rw [update_of_ne ht, if_neg ht]
  have hdoze : dozing ((wakeUp s t dataIn).waitCondVar me) l.place →
      dozing (s.waitCondVar me) l.place := by
    cases l.place with
    | code _ => exact id
    | idle point c => cases point <;> first | exact id | exact fun h => (hcond me h).2
  refine ⟨fun _ _ _ h => Or.inl h, ?_, ?_, fun q hq => Or.inl hq, Or.inl, ?_, fun _ _ => rfl, id,
    fun t' _ h => (hcond t' h).2, ?_, ?_, ?_⟩
  · intro t' m h
    obtain ⟨rfl, rfl⟩ := hdata t' m h
    rw [hflag, if_pos rfl, Bool.true_or]
  · intro t' h
    refine Or.inl ?_
    rw [hflag]
    split_ifs with ht
    · rw [← ht, h, Bool.or_true]
    · exact h
  · intro i h t' hle
    obtain ⟨rfl, rfl⟩ := hcalled i h
    rcases eq_or_lt_of_le hle with heq | hlt
    · rw [← Fin.ext heq]
      exact Or.inr ⟨hmutex, hsignaled⟩
    · exact Or.inl ⟨rfl, hlt⟩
  · intro t' h
    rw [hflag] at h
    split_ifs at h with ht
    · rw [ht]
      exact Or.inr ⟨hmutex, hsignaled⟩
    · exact Or.inl h
  · exact fun h => Or.inl (h.imp_left hdoze)
  · exact fun h => Or.inl (hdoze h)

theorem perform_change {w : Wake n} (hwake : l.wake = some w)
    (hstep : perform s l w = some (s', l')) : Change me s l s' l' := by
  cases w with
  | data t m =>
    simp only [perform] at hstep
    split_ifs at hstep with hmutex
    cases hstep
    refine wakeUp_change (Bool.eq_false_iff.mpr hmutex) ?_ ?_
    · intro t' m' h
      rw [hwake] at h
      cases h
      exact ⟨rfl, rfl⟩
    · intro i h
      rw [hwake] at h
      cases h
  | everyone i =>
    simp only [perform] at hstep
    split_ifs at hstep with hi hmutex
    · cases hstep
      refine wakeUp_change (Bool.eq_false_iff.mpr hmutex) ?_ ?_
      · intro t' m' h
        rw [hwake] at h
        cases h
      · intro j h
        rw [hwake] at h
        cases h
        exact ⟨rfl, rfl⟩
    · cases hstep
      refine ⟨fun _ _ _ h => Or.inl h, ?_, fun _ h => Or.inl h, fun _ h => Or.inl h, Or.inl, ?_,
        fun _ _ => rfl, id, fun _ _ h => h, fun _ h => Or.inl h, Or.inl, Or.inl⟩
      · intro t m h
        rw [hwake] at h
        cases h
      · intro j h t hle
        rw [hwake] at h
        cases h
        exact absurd (hle.trans_lt t.isLt) hi

/-- The steps inside of `Parallel_wait`. -/
theorem Change.of_wait (hwake : l.wake = none) (hqueue : s'.queue = s.queue)
    (hsections : s'.sections = s.sections)
    (hflag : ∀ t, s'.dataInMutatorQ t = true → s.dataInMutatorQ t = true)
    (hclear : s'.dataInMutatorQ = s.dataInMutatorQ ∨
      (∀ t, t ≠ me → s'.dataInMutatorQ t = s.dataInMutatorQ t) ∧ l'.place.level = 0)
    (hlevel : l'.place.level ≤ l.place.level)
    (hmutex : ∀ t, t ≠ me → s'.waitMutex t = s.waitMutex t)
    (hholds : s.waitMutex me = l.place.holds → s'.waitMutex me = l'.place.holds)
    (hcond : ∀ t, t ≠ me → s'.waitCondVar t = s.waitCondVar t)
    (hwatch : watching (s'.waitCondVar me) l'.place →
      watching (s.waitCondVar me) l.place ∨ ¬ threadInSection s')
    (hdoze : dozing (s'.waitCondVar me) l'.place →
      dozing (s.waitCondVar me) l.place ∨ s'.dataInMutatorQ me = false) :
    Change me s l s' l' where
  queue t q x h := Or.inl (by rwa [hqueue] at h)
  data t m h := by rw [hwake] at h; cases h
  flag t h := by
    rcases hclear with hsame | ⟨hother, hzero⟩
    · exact Or.inl (by rw [hsame]; exact h)
    · by_cases ht : t = me
      · exact Or.inr ⟨ht, hzero⟩
      · exact Or.inl (by rw [hother t ht]; exact h)
  checked q hq := Or.inl (hq.trans hlevel)
  count h := Or.inl (by unfold threadInSection at h ⊢; rwa [hsections] at h)
  called i h := by rw [hwake] at h; cases h
  mutex := hmutex
  holds := hholds
  cond t ht h := by rwa [hcond t ht] at h
  raised t h := Or.inl (hflag t h)
  watch := hwatch
  doze := hdoze

theorem deque_change (hwake : l.wake = none) (hin : l.place.inWait = false) :
    Change me s l (deque me s l c).1 (deque me s l c).2 := by
  have hlevel : ∀ place : Place, place.level = 0 → ∀ q : Sub, ¬ q.level ≤ place.level := by
    intro place hzero q
    rw [hzero]
    exact not_le.mpr q.level_pos
  unfold deque
  split
  · rename_i x xs hq
    refine Change.of_same hwake ⟨rfl, rfl, rfl, rfl⟩ (fun t q y hy => Or.inl (mem_setQueue ?_ hy))
      hin rfl fun q hq => absurd hq (hlevel _ rfl q)
    rw [hq]
    exact subset_cons_self x xs
  · rename_i x xs _ hq
    refine Change.of_same hwake ⟨rfl, rfl, rfl, rfl⟩ (fun t q y hy => Or.inl (mem_setQueue ?_ hy))
      hin rfl fun q hq => absurd hq (hlevel _ rfl q)
    rw [hq]
    exact subset_cons_self x xs
  · exact Change.of_same hwake (Same.refl s) (fun _ _ _ h => Or.inl h) hin rfl fun q hq =>
      absurd hq (hlevel _ rfl q)

theorem idleStep_change {point : Point} (hwake : l.wake = none)
    (hplace : l.place = .idle point c) (hstep : idleStep me s l c point = some (s', l')) :
    Change me s l s' l' := by
  have hquiet : ∀ place : Place, l.place.inWait = false → place.inWait = false →
      (∀ q : Sub, q.level ≤ place.level → q.level ≤ l.place.level ∨ s.queue me q = []) →
      Change me s l s { l with place := place } := fun _ hin hin' hchecked =>
    Change.of_same hwake (Same.refl s) (fun _ _ _ h => Or.inl h) hin hin' hchecked
  have hzero : ∀ {place : Place}, place.level = 0 → ∀ q : Sub, q.level ≤ place.level →
      q.level ≤ l.place.level ∨ s.queue me q = [] := by
    intro place h q hq
    rw [h] at hq
    exact absurd hq (not_le.mpr q.level_pos)
  cases point with
  | flush par =>
    cases hstep
    refine Change.of_same hwake ⟨rfl, rfl, rfl, rfl⟩
      (fun t q y hy => Or.inl (mem_setQueue (nil_subset _) hy)) (by rw [hplace]; rfl) rfl ?_
    intro q hq
    rw [hplace]
    cases par with
    | false =>
      rcases Sub.lt_or_eq .closures hq with hlt | rfl
      · exact absurd hlt (not_lt.mpr q.level_pos)
      · exact Or.inr (setQueue_self me .closures [])
    | true => exact Or.inl hq
  | flushing par xs =>
    cases xs with
    | nil =>
      cases hstep
      cases par <;> exact hquiet _ (by rw [hplace]; rfl) rfl fun q hq => Or.inl (by rwa [hplace])
    | cons x xs =>
      cases hstep
      exact Change.of_sqEnque hwake (Same.refl s) (fun _ _ _ h => h) (by rw [hplace]; rfl) rfl
        (by rw [hplace]; cases par <;> exact le_rfl)
  | maybeWait | maybeWaitForGC =>
    exact maybeWaitForGC_change hwake (by rw [hplace]; exact le_rfl) (by rw [hplace]; rfl) rfl hstep
  | primary =>
    cases hstep
    by_cases hempty : s.queue me .primary = []
    · rw [if_pos (isEmpty_iff.mpr hempty)]
      refine hquiet _ (by rw [hplace]; rfl) rfl fun q hq => ?_
      rw [hplace]
      rcases Sub.lt_or_eq .primary hq with hlt | rfl
      · exact Or.inl (Nat.le_of_lt_succ hlt)
      · exact Or.inr hempty
    · rw [if_neg fun h => hempty (isEmpty_iff.mp h)]
      exact hquiet _ (by rw [hplace]; rfl) rfl (hzero rfl)
  | secondary =>
    cases hstep
    by_cases hempty : s.queue me .secondary = []
    · rw [if_pos (isEmpty_iff.mpr hempty)]
      split_ifs
      · refine hquiet _ (by rw [hplace]; rfl) rfl fun q hq => ?_
        rw [hplace]
        rcases Sub.lt_or_eq .secondary hq with hlt | rfl
        · exact Or.inl (Nat.le_of_lt_succ hlt)
        · exact Or.inr hempty
      · exact hquiet _ (by rw [hplace]; rfl) rfl (hzero rfl)
    · rw [if_neg fun h => hempty (isEmpty_iff.mp h)]
      exact hquiet _ (by rw [hplace]; rfl) rfl (hzero rfl)
  | forced =>
    simp only [idleStep] at hstep
    split_ifs at hstep
    cases hstep
    exact hquiet _ (by rw [hplace]; rfl) rfl (hzero rfl)
  | deque =>
    obtain ⟨rfl, rfl⟩ := Prod.mk.inj (Option.some.inj hstep)
    exact deque_change hwake (by rw [hplace]; rfl)
  | parasites =>
    cases hstep
    by_cases hempty : s.queue me .parasites = []
    · rw [if_pos (isEmpty_iff.mpr hempty)]
      refine hquiet _ (by rw [hplace]; rfl) rfl fun q hq => ?_
      rw [hplace]
      rcases Sub.lt_or_eq .parasites hq with hlt | rfl
      · exact Or.inl (Nat.le_of_lt_succ hlt)
      · exact Or.inr hempty
    · rw [if_neg fun h => hempty (isEmpty_iff.mp h)]
      exact hquiet _ (by rw [hplace]; rfl) rfl (hzero rfl)
  | dequeParasite =>
    simp only [idleStep] at hstep
    split at hstep
    · cases hstep
    · rename_i x xs hq
      cases hstep
      refine Change.of_same hwake ⟨rfl, rfl, rfl, rfl⟩
        (fun t q y hy => Or.inl (mem_setQueue ?_ hy)) (by rw [hplace]; rfl) rfl
        fun q hq => absurd hq (not_le.mpr q.level_pos)
      rw [hq]
      exact subset_cons_self x xs
  | pauseHook =>
    simp only [idleStep] at hstep
    split_ifs at hstep
    · cases hstep
      exact hquiet _ (by rw [hplace]; rfl) rfl (hzero rfl)
    · cases hstep
      refine hquiet _ (by rw [hplace]; rfl) rfl fun q _ => Or.inl ?_
      rw [hplace]
      exact q.level_le
  | decide =>
    simp only [idleStep] at hstep
    split at hstep
    · split_ifs at hstep with hiter
      · cases hstep
        refine Change.of_wait hwake rfl rfl (fun _ h => h) (Or.inl rfl) ?_ (fun _ _ => rfl)
          (fun h => ?_) (fun _ _ => rfl) ?_ ?_
        · rw [hplace]
          exact (if_neg (Nat.ne_of_gt (Nat.zero_lt_of_lt hiter))).ge
        · rw [h, hplace]
          rfl
        · rintro (h | ⟨_, h⟩) <;> cases h
        · rintro ⟨⟩
      · cases hstep
        exact hquiet _ (by rw [hplace]; rfl) rfl (hzero rfl)
    · split_ifs at hstep
      · cases hstep
        exact hquiet _ (by rw [hplace]; rfl) rfl (hzero rfl)
      · cases hstep
        exact hquiet _ (by rw [hplace]; rfl) rfl (hzero rfl)
  | lock =>
    simp only [idleStep] at hstep
    split_ifs at hstep
    cases hstep
    refine Change.of_wait hwake rfl rfl (fun _ h => h) (Or.inl rfl) (by rw [hplace]; exact le_rfl)
      (fun t ht => update_of_ne ht _ _) (fun _ => update_self _ _ _)
      (fun _ _ => rfl) ?_ ?_
    · rintro (h | ⟨_, h⟩) <;> cases h
    · rintro ⟨⟩
  | testSection =>
    cases hstep
    by_cases hin : threadInSection s = true
    · rw [if_pos hin]
      refine Change.of_wait hwake rfl rfl (fun _ h => h) (Or.inl rfl) (Nat.zero_le _)
        (fun _ _ => rfl) (fun h => ?_) (fun _ _ => rfl) ?_ ?_
      · rw [h, hplace]
        rfl
      · rintro (h | ⟨_, h⟩) <;> cases h
      · rintro ⟨⟩
    · rw [if_neg hin]
      refine Change.of_wait hwake rfl rfl (fun _ h => h) (Or.inl rfl) (by rw [hplace]; exact le_rfl)
        (fun _ _ => rfl) (fun h => ?_) (fun _ _ => rfl) (fun _ => Or.inr hin) ?_
      · rw [h, hplace]
        rfl
      · rintro ⟨⟩
  | testData =>
    cases hstep
    by_cases hdata : s.dataInMutatorQ me = true
    · rw [if_pos hdata]
      refine Change.of_wait hwake rfl rfl (fun _ h => h) (Or.inl rfl) (Nat.zero_le _)
        (fun _ _ => rfl) (fun h => ?_) (fun _ _ => rfl) ?_ ?_
      · rw [h, hplace]
        rfl
      · rintro (h | ⟨_, h⟩) <;> cases h
      · rintro ⟨⟩
    · rw [if_neg hdata]
      refine Change.of_wait hwake rfl rfl (fun _ h => h) (Or.inl rfl) (by rw [hplace]; exact le_rfl)
        (fun _ _ => rfl) (fun h => ?_) (fun _ _ => rfl) (fun _ => Or.inl ?_)
        (fun _ => Or.inr (Bool.eq_false_iff.mpr hdata))
      · rw [h, hplace]
        rfl
      · rw [hplace]
        exact Or.inr ⟨c, rfl⟩
  | condWait =>
    cases hstep
    have hdoze : dozing (s.waitCondVar me) l.place := by
      rw [hplace]
      trivial
    exact Change.of_wait hwake rfl rfl (fun _ h => h) (Or.inl rfl) (by rw [hplace]; exact le_rfl)
      (fun t ht => update_of_ne ht _ _) (fun _ => update_self _ _ _)
      (fun t ht => update_of_ne ht _ _) (fun _ => Or.inl (Or.inl hdoze))
      (fun _ => Or.inl hdoze)
  | wait =>
    simp only [idleStep] at hstep
    split_ifs at hstep
    cases hstep
    refine Change.of_wait hwake rfl rfl (fun _ h => h) (Or.inl rfl) (Nat.zero_le _)
      (fun t ht => update_of_ne ht _ _) (fun _ => update_self _ _ _)
      (fun t ht => update_of_ne ht _ _) ?_ ?_
    · rintro (h | ⟨_, h⟩) <;> cases h
    · rintro ⟨⟩
  | clear =>
    cases hstep
    refine Change.of_wait hwake rfl rfl ?_ (Or.inr ⟨fun t ht => update_of_ne ht _ _, rfl⟩)
      (Nat.zero_le _) (fun t ht => update_of_ne ht _ _)
      (fun _ => update_self _ _ _) (fun _ _ => rfl) ?_ ?_
    · intro t h
      by_cases ht : t = me
      · rw [ht] at h
        have hfalse := (update_self me false s.dataInMutatorQ).symm.trans h
        exact absurd hfalse Bool.false_ne_true
      · exact (update_of_ne ht _ _).symm.trans h
    · rintro (h | ⟨_, h⟩) <;> cases h
    · rintro ⟨⟩

theorem step_change {a : Act n} (hstep : step me a s l = some (s', l')) : Change me s l s' l' := by
  unfold step at hstep
  split at hstep
  · rename_i hwake
    exact perform_change hwake hstep
  · rename_i hwake _
    unfold placeStep at hstep
    split at hstep
    · split_ifs at hstep with hin
      exact sectionStep_change l.place hwake le_rfl (Or.inl rfl) hstep
    · split_ifs at hstep with hin
      exact collect_change hwake (Bool.eq_false_iff.mpr hin) hstep
    · split_ifs at hstep with hin
      cases hstep
      rw [not_or] at hin
      refine wakeUp_change (w := l.wake) (Bool.eq_false_iff.mpr hin.2) ?_ ?_
      · intro t m h
        rw [hwake] at h
        cases h
      · intro i h
        rw [hwake] at h
        cases h
    · rename_i code _ _ _ hplace
      exact (codeStep_outside hstep).change hwake (by rw [hplace]; rfl)
    · rename_i point c hplace
      exact idleStep_change hwake hplace hstep
    · cases hstep
  · rename_i hwake _
    exact sectionStep_change l.place hwake le_rfl (Or.inl rfl) hstep
  · cases hstep

end

/-! ### Wake-ups to come -/

/-- The wake-up of a thread enqueued to `t` is still to come. -/
def Pending (c : Config (Fin n) (Shared n) (Local n)) (t : Fin n) (serial : ℕ) : Prop :=
  ∃ p, (c.loc p).wake = some (.data t serial)

/-- The first processor of a section is still to wake up `t`. -/
def Called (c : Config (Fin n) (Shared n) (Local n)) (t : Fin n) : Prop :=
  ∃ p i, (c.loc p).wake = some (.everyone i) ∧ i ≤ t

/-- What is known of a processor on its way to sleep. -/
structure Watched (c : Config (Fin n) (Shared n) (Local n)) (p : Fin n) : Prop where
  holds : c.shared.waitMutex p = (c.loc p).place.holds
  /-- What has come into a queue that was found empty raises the flag. -/
  checked : ∀ q : Sub, q.level ≤ (c.loc p).place.level → c.shared.dataInMutatorQ p = true ∨
    ∀ x ∈ c.shared.queue p q, Pending c p x.serial
  called : watching (c.shared.waitCondVar p) (c.loc p).place → threadInSection c.shared →
    Called c p
  flag : dozing (c.shared.waitCondVar p) (c.loc p).place → c.shared.dataInMutatorQ p = false

section

variable {c : Config (Fin n) (Shared n) (Local n)} {me : Fin n} {s : Shared n} {l : Local n}

theorem Pending.put (hchange : Change me c.shared (c.loc me) s l) {m : ℕ}
    (h : Pending c t m) : s.dataInMutatorQ t = true ∨ Pending (c.put me s l) t m := by
  obtain ⟨p, hp⟩ := h
  by_cases hpm : p = me
  · subst hpm
    exact Or.inl (hchange.data t m hp)
  · exact Or.inr ⟨p, by rwa [put_loc_of_ne hpm]⟩

theorem Called.put (hchange : Change me c.shared (c.loc me) s l) (h : Called c t) :
    Called (c.put me s l) t ∨ (s.waitMutex t = false ∧ s.waitCondVar t ≠ .waiting) := by
  obtain ⟨p, i, hp, hi⟩ := h
  by_cases hpm : p = me
  · subst hpm
    refine (hchange.called i hp t hi).imp_left fun ⟨hwake, hlt⟩ => ⟨p, i + 1, ?_, hlt⟩
    rwa [put_loc_self]
  · exact Or.inl ⟨p, i, by rwa [put_loc_of_ne hpm], hi⟩

/-- Whoever has been signaled outside of its mutex does not sleep. -/
theorem not_watching_of_signaled {cond : Cond} (hholds : place.holds = false)
    (hcond : cond ≠ .waiting) : ¬ watching cond place := by
  rintro (h | ⟨_, rfl⟩)
  · cases place with
    | code _ => exact h
    | idle point c => cases point <;> first | exact h | exact hcond h | cases hholds
  · cases hholds

theorem Watched.step (h : ∀ p, Watched c p) (hchange : Change me c.shared (c.loc me) s l)
    (p : Fin n) : Watched (c.put me s l) p := by
  have hholds : s.waitMutex p = ((c.put me s l).loc p).place.holds := by
    by_cases hp : p = me
    · subst hp
      rw [put_loc_self]
      exact hchange.holds (h p).holds
    · rw [put_loc_of_ne hp, hchange.mutex p hp]
      exact (h p).holds
  have hsignaled : s.waitMutex p = false ∧ s.waitCondVar p ≠ .waiting →
      ¬ watching (s.waitCondVar p) ((c.put me s l).loc p).place := fun ⟨hmutex, hcond⟩ =>
    not_watching_of_signaled (hholds.symm.trans hmutex) hcond
  have hdozing : p ≠ me → dozing (s.waitCondVar p) (c.loc p).place →
      dozing (c.shared.waitCondVar p) (c.loc p).place := by
    intro hp
    cases (c.loc p).place with
    | code _ => exact id
    | idle point c => cases point <;> first | exact id | exact hchange.cond p hp
  refine ⟨hholds, fun q hq => ?_, fun hwatch hin => ?_, fun hdoze => ?_⟩
  · -- the queues
    have hcases : q.level ≤ (c.loc p).place.level ∨ s.queue p q = [] := by
      by_cases hp : p = me
      · subst hp
        rw [put_loc_self] at hq
        exact hchange.checked q hq
      · rw [put_loc_of_ne hp] at hq
        exact Or.inl hq
    rcases hcases with hlevel | hempty
    · by_cases hflag : s.dataInMutatorQ p = true
      · exact Or.inl hflag
      right
      intro x hx
      rcases hchange.queue p q x hx with hold | hnew
      · rcases (h p).checked q hlevel with hraised | hpending
        · rcases hchange.flag p hraised with hkept | ⟨rfl, hzero⟩
          · exact absurd hkept hflag
          · rw [put_loc_self, hzero] at hq
            exact absurd hq (not_le.mpr q.level_pos)
        · exact ((hpending x hold).put hchange).resolve_left hflag
      · exact ⟨me, by rwa [put_loc_self]⟩
    · right
      intro x hx
      rw [put_shared, hempty] at hx
      cases hx
  · -- the sections
    have hold : watching (c.shared.waitCondVar p) (c.loc p).place := by
      by_cases hp : p = me
      · subst hp
        rw [put_loc_self] at hwatch
        exact (hchange.watch hwatch).resolve_right (not_not.mpr hin)
      · rw [put_loc_of_ne hp] at hwatch
        exact hwatch.imp_left (hdozing hp)
    rcases hchange.count hin with hbefore | hfirst
    · exact (((h p).called hold hbefore).put hchange).resolve_right fun hsig =>
        hsignaled hsig hwatch
    · exact ⟨me, 0, by rwa [put_loc_self], Nat.zero_le _⟩
  · -- the flag
    have hold : dozing (c.shared.waitCondVar p) (c.loc p).place ∨ s.dataInMutatorQ p = false := by
      by_cases hp : p = me
      · subst hp
        rw [put_loc_self] at hdoze
        exact hchange.doze hdoze
      · rw [put_loc_of_ne hp] at hdoze
        exact Or.inl (hdozing hp hdoze)
    rcases hold with hold | hfalse
    · by_contra hflag
      rcases hchange.raised p (Bool.eq_true_of_not_eq_false hflag) with hraised | hsig
      · rw [(h p).flag hold] at hraised
        cases hraised
      · exact hsignaled hsig (Or.inl hdoze)
    · exact hfalse

end

/-! ### Timeouts -/

/-- The loop has found that no timeout is pending, and will not ask again. -/
def Counter.Settled (c : Counter) : Prop := c.iter ≠ 0 ∧ c.timeout = none

/-- Below a parasite there is no such loop. -/
def Fresh (loop : Option Counter) : Prop := ∀ c ∈ loop, ¬ c.Settled

def Back.Fresh : Back → Prop
  | .run loop => IdleLoop.Fresh loop
  | _ => True

/-- What a thread is that has been preempted. -/
def Code.Dormant : Code → Prop
  | .run loop => IdleLoop.Fresh loop
  | .timeWait loop _ => IdleLoop.Fresh loop
  | .storing back _ rest => back.Fresh ∧ rest ≠ []
  | _ => False

/-- No parasite of `p` can run. -/
def Quiet (s : Shared n) (p : Fin n) : Prop :=
  s.preemptOnWBA p = [] ∧ s.queue p .parasites = []

/-- Nothing can be inserted, and nothing has been. -/
def Still (s : Shared n) (p : Fin n) : Prop := Quiet s p ∧ s.timeQ p = []

def Code.Sound (s : Shared n) (p : Fin n) : Code → Prop
  | .run loop => IdleLoop.Fresh loop
  | .timeWait loop _ => IdleLoop.Fresh loop
  | .preempt .hook => Quiet s p
  | .preempt back => back.Fresh
  | .cleaning .hook _ _ => Quiet s p
  | .cleaning back _ _ => back.Fresh
  | .storing .hook readied rest => preemptResult readied rest = none → Quiet s p
  | .storing back _ _ => back.Fresh

def Point.Sound (s : Shared n) (p : Fin n) (c : Counter) : Point → Prop
  | .flush true | .parasites => s.preemptOnWBA p = []
  | .flushing true xs => s.preemptOnWBA p = [] ∧ ∀ x ∈ xs, x.code.Dormant
  | .flushing false xs => ∀ x ∈ xs, x.code.Dormant
  | .pauseHook => Quiet s p
  | .decide => c.timeout = none → Still s p
  | .lock | .testSection | .testData | .condWait | .wait | .clear => c.Settled
  | _ => True

def Place.Sound (s : Shared n) (p : Fin n) : Place → Prop
  | .code x => x.Sound s p
  | .idle point c => (c.Settled → Still s p) ∧ point.Sound s p c

/-- The threads that are not running. -/
structure Dormant (s : Shared n) : Prop where
  queue : ∀ t q, ∀ x ∈ s.queue t q, x.code.Dormant
  preemptOnWBA : ∀ t, ∀ x ∈ s.preemptOnWBA t, x.2.Dormant

structure Timed (c : Config (Fin n) (Shared n) (Local n)) : Prop where
  dormant : Dormant c.shared
  place : ∀ p, (c.loc p).place.Sound c.shared p

/-- What a step of `me` leaves to the parasites and the timeouts. -/
structure Kept (me : Fin n) (s s' : Shared n) (place : Place) : Prop where
  dormant : Dormant s'
  preemptOnWBA : ∀ t, t ≠ me → s'.preemptOnWBA t = s.preemptOnWBA t
  parasites : ∀ t, t ≠ me → s'.queue t .parasites = s.queue t .parasites
  timeQ : ∀ t, t ≠ me → s'.timeQ t = s.timeQ t
  place : place.Sound s' me

section

variable {me : Fin n} {s s' : Shared n} {l l' : Local n}

theorem not_settled_zero (timeout : Option (Option ℤ)) : ¬ (⟨0, timeout⟩ : Counter).Settled :=
  fun h => h.1 rfl

theorem Quiet.congr {p : Fin n} (h : Quiet s p) (hwba : s'.preemptOnWBA p = s.preemptOnWBA p)
    (hpar : s'.queue p .parasites = s.queue p .parasites) : Quiet s' p :=
  ⟨hwba.trans h.1, hpar.trans h.2⟩

theorem Place.Sound.congr {p : Fin n} (h : place.Sound s p)
    (hwba : s'.preemptOnWBA p = s.preemptOnWBA p)
    (hpar : s'.queue p .parasites = s.queue p .parasites) (htime : s'.timeQ p = s.timeQ p) :
    place.Sound s' p := by
  have hquiet : Quiet s p → Quiet s' p := fun h => h.congr hwba hpar
  have hstill : Still s p → Still s' p := fun h => ⟨hquiet h.1, htime.trans h.2⟩
  cases place with
  | code x =>
    cases x with
    | run loop => exact h
    | timeWait loop timeQ => exact h
    | preempt back | cleaning back readied rest => cases back <;> first | exact hquiet h | exact h
    | storing back readied rest =>
      cases back <;> first | exact fun hres => hquiet (h hres) | exact h
  | idle point c =>
    refine ⟨fun hc => hstill (h.1 hc), ?_⟩
    have hpoint := h.2
    cases point with
    | flush par =>
      cases par with
      | false => trivial
      | true => exact hwba.trans hpoint
    | flushing par xs =>
      cases par with
      | false => exact hpoint
      | true => exact ⟨hwba.trans hpoint.1, hpoint.2⟩
    | parasites => exact hwba.trans hpoint
    | pauseHook => exact hquiet hpoint
    | decide => exact fun hc => hstill (hpoint hc)
    | _ => exact hpoint

theorem Kept.put {c : Config (Fin n) (Shared n) (Local n)} (h : Timed c)
    (hkept : Kept me c.shared s l.place) : Timed (c.put me s l) := by
  refine ⟨hkept.dormant, fun p => ?_⟩
  by_cases hp : p = me
  · subst hp
    rw [put_loc_self]
    exact hkept.place
  · rw [put_loc_of_ne hp]
    exact (h.place p).congr (hkept.preemptOnWBA p hp) (hkept.parasites p hp) (hkept.timeQ p hp)

theorem Kept.of_eq (h : Dormant s) (hqueue : s'.queue = s.queue)
    (hwba : s'.preemptOnWBA = s.preemptOnWBA) (htime : ∀ t, t ≠ me → s'.timeQ t = s.timeQ t)
    (hplace : place.Sound s' me) : Kept me s s' place :=
  ⟨⟨by rw [hqueue]; exact h.queue, by rw [hwba]; exact h.preemptOnWBA⟩, fun t _ => by rw [hwba],
    fun t _ => by rw [hqueue], htime, hplace⟩

theorem enque_queue {t t' : Fin n} {q q' : Sub} (h : ¬ (t' = t ∧ q' = q)) :
    (enque s t q code).queue t' q' = s.queue t' q' := by
  unfold enque
  dsimp only
  by_cases ht : t' = t
  · subst ht
    rw [update_self, update_of_ne fun hq => h ⟨rfl, hq⟩]
  · rw [update_of_ne ht]

theorem setQueue_queue {t t' : Fin n} {q q' : Sub} {xs : List Thread} (h : ¬ (t' = t ∧ q' = q)) :
    (setQueue s t q xs).queue t' q' = s.queue t' q' := by
  unfold setQueue
  dsimp only
  by_cases ht : t' = t
  · subst ht
    rw [update_self, update_of_ne fun hq => h ⟨rfl, hq⟩]
  · rw [update_of_ne ht]

theorem Dormant.enque (h : Dormant s) (t : Fin n) (q : Sub) (hcode : code.Dormant) :
    Dormant (enque s t q code) := by
  refine ⟨fun t' q' x hx => ?_, h.preemptOnWBA⟩
  rcases mem_enque hx with hold | ⟨-, -, rfl⟩
  · exact h.queue t' q' x hold
  · exact hcode

theorem Dormant.setQueue (h : Dormant s) {q : Sub} {xs : List Thread}
    (hsub : xs ⊆ s.queue t q) : Dormant (setQueue s t q xs) :=
  ⟨fun t' q' x hx => h.queue t' q' x (mem_setQueue hsub hx), h.preemptOnWBA⟩

/-- A thread that is no parasite, or one of this processor, is enqueued. -/
theorem Kept.of_enque {q : Sub} (h : Dormant s) (hcode : code.Dormant)
    (hq : q = .parasites → t = me) (hplace : place.Sound (IdleLoop.enque s t q code) me) :
    Kept me s (IdleLoop.enque s t q code) place :=
  ⟨h.enque t q hcode, fun _ _ => rfl,
    fun _ ht => enque_queue fun heq => ht (heq.1.trans (hq heq.2.symm)), fun _ _ => rfl, hplace⟩

/-- What is sound stays so when another thread than a parasite is enqueued. -/
theorem Place.Sound.enque {q : Sub}
    (h : place.Sound s me) (hq : q ≠ .parasites) : place.Sound (IdleLoop.enque s t q code) me :=
  h.congr rfl (enque_queue fun heq => hq heq.2.symm) rfl

theorem prio_ne (prio : Bool) : (if prio then Sub.primary else Sub.secondary) ≠ .parasites := by
  cases prio <;> exact nofun

/-- What `alrmHandler`, `yield` and `writeBarrier` find is sound again as it was. -/
theorem Code.Dormant.sound (h : code.Dormant) : code.Sound s me := by
  cases code with
  | run loop => exact h
  | timeWait loop timeQ => exact h
  | preempt back => cases h
  | cleaning back readied rest => cases h
  | storing back readied rest =>
    cases back with
    | hook =>
      intro hres
      unfold preemptResult at hres
      split_ifs at hres
      rw [map_eq_none_iff] at hres
      exact absurd (head?_eq_none_iff.mp hres) h.2
    | _ => exact h.1

theorem Code.Dormant.setLoop (h : code.Dormant) {loop : Option Counter}
    (hloop : IdleLoop.Fresh loop) : (code.setLoop loop).Dormant := by
  cases code with
  | run _ | timeWait _ _ => exact hloop
  | storing back readied rest =>
    cases back with
    | run _ => exact ⟨hloop, h.2⟩
    | _ => exact h
  | _ => exact h

theorem fresh_none : Fresh none := nofun

theorem next_sound : (nextWithCounter 0 none).Sound s me :=
  ⟨fun h => absurd h (not_settled_zero none), trivial⟩

theorem jumpDown_sound {loop : Option Counter} (h : Fresh loop) : (jumpDown loop).Sound s me := by
  cases loop with
  | none => exact fresh_none
  | some c => exact ⟨fun hc => absurd hc (h c rfl), trivial⟩

theorem Back.resume_sound {back : Back} {res : Option (Option ℤ)} (hfresh : back.Fresh)
    (hhook : back = .hook → res = none → Still s me) : (back.resume res).Sound s me := by
  cases back with
  | run loop => exact hfresh
  | next => exact next_sound
  | hook => exact ⟨fun h => absurd h (not_settled_zero res), fun h => hhook rfl h⟩
  | again timeout => exact ⟨fun h => (nomatch h.2), trivial⟩

theorem preempt_sound {back : Back} (h : (Code.preempt back).Sound s me) :
    back.Fresh ∧ (back = .hook → Quiet s me) := by
  cases back with
  | hook => exact ⟨trivial, fun _ => h⟩
  | _ => exact ⟨h, nofun⟩

theorem cleaning_sound {back : Back} {readied : Bool} {rest : List Item} :
    (Code.cleaning back readied rest).Sound s me ↔ (Code.preempt back).Sound s me := by
  cases back <;> rfl

theorem storing_sound {back : Back} {readied : Bool} {rest : List Item}
    (h : (Code.preempt back).Sound s me) : (Code.storing back readied rest).Sound s me := by
  cases back with
  | hook => exact fun _ => h
  | _ => exact h

theorem storing_resume {back : Back} {readied : Bool} {rest : List Item}
    (h : (Code.storing back readied rest).Sound s me) (hwba : s'.preemptOnWBA = s.preemptOnWBA)
    (hqueue : s'.queue = s.queue) (htime : s'.timeQ me = rest) :
    (back.resume (preemptResult readied rest)).Sound s' me := by
  have hfresh : back.Fresh := by
    cases back with
    | hook => trivial
    | _ => exact h
  refine Back.resume_sound hfresh ?_
  rintro rfl hres
  refine ⟨(h hres).congr (by rw [hwba]) (by rw [hqueue]), ?_⟩
  unfold preemptResult at hres
  split_ifs at hres
  rw [map_eq_none_iff] at hres
  exact htime.trans (head?_eq_none_iff.mp hres)

/-- The running code is put off. -/
theorem Kept.of_writeBarrier (h : Dormant s) {x : Bool × Code} (hx : x.2.Dormant)
    (hplace : ∀ s' : Shared n, place.Sound s' me) : Kept me s (putOff me s x) place := by
  refine ⟨⟨h.queue, fun t y hy => ?_⟩, fun t ht => update_of_ne ht _ _, fun _ _ => rfl,
    fun _ _ => rfl, hplace _⟩
  unfold putOff at hy
  dsimp only at hy
  by_cases ht : t = me
  · subst ht
    rw [update_self, mem_append, mem_singleton] at hy
    rcases hy with hold | rfl
    · exact h.preemptOnWBA t y hold
    · exact hx
  · rw [update_of_ne ht] at hy
    exact h.preemptOnWBA t y hy

theorem dormant_run : (Code.run none).Dormant := fresh_none

/-- Code that runs as a parasite, if it does. -/
theorem loop_sound {loop : Option Counter} (h : code.Sound s me)
    (hstored : ∀ back readied, code = .storing back readied [] → False)
    (hloop : code.loop = some loop) : Fresh loop ∧ code.Dormant := by
  cases code with
  | run _ | timeWait _ _ =>
    cases hloop
    exact ⟨h, h⟩
  | preempt _ | cleaning _ _ _ => cases hloop
  | storing back readied rest =>
    cases back with
    | run _ =>
      cases hloop
      exact ⟨h, h, fun hnil => hstored _ readied (by rw [hnil])⟩
    | _ => cases hloop

theorem codeStep_kept {a : Act n} (h : Dormant s) (hcode : code.Sound s me)
    (hstep : codeStep me s l code a = some (s', l')) : Kept me s s' l'.place := by
  have hplace : (Place.code code).Sound s me := hcode
  unfold codeStep at hstep
  split at hstep
  case h_1 =>
    cases hstep
    exact Kept.of_eq h rfl rfl (fun _ _ => rfl) next_sound
  case h_2 =>
    cases hstep
    exact Kept.of_eq h rfl rfl (fun _ _ => rfl) (jumpDown_sound hcode)
  case h_3 prio =>
    cases hstep
    exact Kept.of_enque h dormant_run (fun heq => absurd heq (prio_ne prio)) hcode
  case h_4 =>
    cases hstep
    refine Kept.of_enque h dormant_run ?_ hcode
    nofun
  case h_5 =>
    cases hstep
    exact Kept.of_enque h dormant_run (fun _ => rfl) hcode
  case h_6 | h_7 | h_10 =>
    cases hstep
    refine Kept.of_eq h ?_ ?_ (fun _ _ => ?_) ?_
    · rfl
    · rfl
    · rfl
    · exact hcode
  case h_8 loop timeQ =>
    -- the insertion of a timeout
    cases hstep
    refine Kept.of_eq h ?_ ?_ (fun t ht => ?_) ?_
    · rfl
    · rfl
    · exact update_of_ne ht _ _
    · exact hcode
  case h_9 loop prio =>
    cases hstep
    have hrun : (Code.run loop).Dormant := hcode
    exact Kept.of_enque h hrun (fun heq => absurd heq (prio_ne prio)) trivial
  case h_11 =>
    split at hstep
    · cases hstep
      exact Kept.of_eq h rfl rfl (fun _ _ => rfl) hplace
    · rename_i x xs hsec
      cases hstep
      have hsub : xs ⊆ s.queue me .secondary := by
        rw [hsec]
        exact subset_cons_self x xs
      have hx : x.code.Dormant := h.queue me .secondary x (by rw [hsec]; exact mem_cons_self)
      refine ⟨(h.setQueue hsub).enque me .primary hx, fun _ _ => rfl, fun t ht => ?_,
        fun _ _ => rfl, hcode⟩
      refine (enque_queue fun heq => ht heq.1).trans ?_
      exact setQueue_queue fun heq => ht heq.1
  case h_12 back =>
    obtain ⟨hfresh, hquiet⟩ := preempt_sound hcode
    split_ifs at hstep with hempty
    · cases hstep
      refine Kept.of_eq h rfl rfl (fun _ _ => rfl) (Back.resume_sound hfresh fun hhook _ => ?_)
      exact ⟨hquiet hhook, isEmpty_iff.mp hempty⟩
    · cases hstep
      exact Kept.of_eq h rfl rfl (fun _ _ => rfl) (cleaning_sound.mpr hcode)
  case h_13 =>
    cases hstep
    exact Kept.of_eq h rfl rfl (fun _ _ => rfl) (storing_sound (cleaning_sound.mp hcode))
  case h_14 back readied e rest now res t =>
    split_ifs at hstep
    · cases hstep
      exact Kept.of_eq h rfl rfl (fun _ _ => rfl) (storing_sound (cleaning_sound.mp hcode))
    · cases hstep
      have hcleaning : (Place.code (.cleaning back true rest)).Sound s me :=
        cleaning_sound.mpr (cleaning_sound.mp hcode)
      refine Kept.of_enque h dormant_run ?_ (hcleaning.enque ?_)
      · nofun
      · nofun
    · cases hstep
      exact Kept.of_eq h rfl rfl (fun _ _ => rfl) hplace
    · cases hstep
      exact Kept.of_eq h rfl rfl (fun _ _ => rfl) (cleaning_sound.mpr (cleaning_sound.mp hcode))
  case h_15 back readied rest =>
    cases hstep
    refine Kept.of_eq h ?_ ?_ (fun t ht => ?_) (storing_resume hcode ?_ ?_ ?_)
    · rfl
    · rfl
    · exact update_of_ne ht _ _
    · rfl
    · rfl
    · exact update_self _ _ _
  case h_17 hstored =>
    obtain ⟨loop, hloop, hr⟩ := map_eq_some_iff.mp hstep
    cases hr
    obtain ⟨hfresh, hdormant⟩ := loop_sound hcode hstored hloop
    exact Kept.of_writeBarrier h (hdormant.setLoop fresh_none) fun _ => jumpDown_sound hfresh
  case h_18 | h_19 =>
    cases hstep
    refine Kept.of_writeBarrier h ?_ fun _ => next_sound
    exact hcode
  case h_20 back readied rest hstored =>
    cases hstep
    have hfresh : back.Fresh := by
      cases back with
      | hook => trivial
      | _ => exact hcode
    have hdormant : (Code.storing back readied rest).Dormant := ⟨hfresh, hstored⟩
    exact Kept.of_writeBarrier h hdormant fun _ => next_sound
  case h_16 | h_21 => cases hstep

/-- The steps that leave the queues, the array and the timeouts alone. -/
theorem Kept.of_unchanged (h : Dormant s) (hplace : l.place.Sound s me)
    (hstep : s'.queue = s.queue ∧ s'.preemptOnWBA = s.preemptOnWBA ∧ s'.timeQ = s.timeQ ∧
      l'.place = l.place) : Kept me s s' l'.place := by
  obtain ⟨hqueue, hwba, htime, hl⟩ := hstep
  rw [hl]
  exact Kept.of_eq h hqueue hwba (fun t _ => by rw [htime])
    (hplace.congr (by rw [hwba]) (by rw [hqueue]) (by rw [htime]))

theorem sectionStep_unchanged (hstep : sectionStep me s l = some (s', l')) :
    s'.queue = s.queue ∧ s'.preemptOnWBA = s.preemptOnWBA ∧ s'.timeQ = s.timeQ ∧
      l'.place = l.place := by
  obtain ⟨r, -, hr⟩ := map_eq_some_iff.mp hstep
  cases hr
  exact ⟨rfl, rfl, rfl, rfl⟩

theorem perform_unchanged {w : Wake n} (hstep : perform s l w = some (s', l')) :
    s'.queue = s.queue ∧ s'.preemptOnWBA = s.preemptOnWBA ∧ s'.timeQ = s.timeQ ∧
      l'.place = l.place := by
  cases w with
  | data t m =>
    simp only [perform] at hstep
    split_ifs at hstep
    cases hstep
    exact ⟨rfl, rfl, rfl, rfl⟩
  | everyone i =>
    simp only [perform] at hstep
    split_ifs at hstep
    · cases hstep
      exact ⟨rfl, rfl, rfl, rfl⟩
    · cases hstep
      exact ⟨rfl, rfl, rfl, rfl⟩

theorem maybeWaitForGC_kept {point : Point} (h : Dormant s)
    (hplace : (Place.idle point c).Sound s me)
    (hstep : maybeWaitForGC me s l point c = some (s', l')) : Kept me s s' l'.place := by
  unfold maybeWaitForGC at hstep
  split_ifs at hstep
  · exact Kept.of_unchanged (l := { l with place := .idle point c }) h hplace
      (sectionStep_unchanged hstep)
  · cases hstep
    exact Kept.of_eq h rfl rfl (fun _ _ => rfl) hplace

/-- A loop that counts on the array to be empty is not there when something is moved from it. -/
theorem Place.Sound.of_nonempty (h : place.Sound s me)
    (hwba : s.preemptOnWBA me ≠ []) : place.Sound s' me := by
  cases place with
  | code x =>
    cases x with
    | run loop => exact h
    | timeWait loop timeQ => exact h
    | preempt back | cleaning back readied rest =>
      cases back <;> first | exact absurd h.1 hwba | exact h
    | storing back readied rest =>
      cases back <;> first | exact fun hres => absurd (h hres).1 hwba | exact h
  | idle point c =>
    refine ⟨fun hc => absurd (h.1 hc).1.1 hwba, ?_⟩
    have hpoint := h.2
    cases point with
    | flush par =>
      cases par with
      | false => trivial
      | true => exact absurd hpoint hwba
    | flushing par xs =>
      cases par with
      | false => exact hpoint
      | true => exact absurd hpoint.1 hwba
    | parasites => exact absurd hpoint hwba
    | pauseHook => exact absurd hpoint.1 hwba
    | decide => exact fun hc => absurd (hpoint hc).1.1 hwba
    | _ => exact hpoint

theorem collect_kept (h : Dormant s) (hplace : l.place.Sound s me)
    (hstep : collect me s l = some (s', l')) : Kept me s s' l'.place := by
  unfold collect at hstep
  split at hstep
  · rename_i parasite code rest hwba
    cases hstep
    have hcode : code.Dormant := h.preemptOnWBA me (parasite, code) (by
      rw [hwba]
      exact mem_cons_self)
    have hrest : Dormant { s with preemptOnWBA := update s.preemptOnWBA me rest } := by
      refine ⟨h.queue, fun t x hx => ?_⟩
      dsimp only at hx
      by_cases ht : t = me
      · subst ht
        rw [update_self] at hx
        exact h.preemptOnWBA t x (by rw [hwba]; exact mem_cons_of_mem _ hx)
      · rw [update_of_ne ht] at hx
        exact h.preemptOnWBA t x hx
    refine ⟨hrest.enque me _ hcode, fun t ht => ?_, fun t ht => ?_, fun _ _ => rfl, ?_⟩
    · exact update_of_ne ht _ _
    · exact enque_queue fun heq => ht heq.1
    · refine hplace.of_nonempty ?_
      rw [hwba]
      exact cons_ne_nil _ _
  · rename_i proc rest hwba hspawn
    cases hstep
    have hrest : Dormant { s with spawnOnWBA := update s.spawnOnWBA me rest } :=
      ⟨h.queue, h.preemptOnWBA⟩
    have hpar : ∀ t, (enque { s with spawnOnWBA := update s.spawnOnWBA me rest } proc
        .primary (.run none)).queue t .parasites = s.queue t .parasites := fun t =>
      enque_queue fun heq => nomatch heq.2
    exact ⟨hrest.enque proc .primary dormant_run, fun _ _ => rfl, fun t _ => hpar t,
      fun _ _ => rfl, hplace.congr rfl (hpar me) rfl⟩
  · cases hstep

theorem Kept.of_place (h : Dormant s) (hplace : place.Sound s me) : Kept me s s place :=
  Kept.of_eq h rfl rfl (fun _ _ => rfl) hplace

/-- Threads are taken off a queue of this processor. -/
theorem Kept.of_setQueue {q : Sub} {xs : List Thread} (h : Dormant s) (hsub : xs ⊆ s.queue me q)
    (hplace : place.Sound (setQueue s me q xs) me) : Kept me s (setQueue s me q xs) place :=
  ⟨h.setQueue hsub, fun _ _ => rfl, fun _ ht => setQueue_queue fun heq => ht heq.1,
    fun _ _ => rfl, hplace⟩

theorem deque_kept (h : Dormant s) (hc : c.Settled → Still s me) :
    Kept me s (deque me s l c).1 (deque me s l c).2.place := by
  have htake : ∀ {q x xs}, s.queue me q = x :: xs →
      Kept me s (setQueue s me q xs) (.code x.code) := by
    intro q x xs hq
    refine Kept.of_setQueue h ?_ (Code.Dormant.sound (h.queue me q x ?_))
    · rw [hq]
      exact subset_cons_self x xs
    · rw [hq]
      exact mem_cons_self
  unfold deque
  split
  · rename_i hq
    exact htake hq
  · rename_i hq
    exact htake hq
  · exact Kept.of_place h ⟨hc, trivial⟩

theorem idleStep_kept {point : Point} (h : Dormant s)
    (hplace : (Place.idle point c).Sound s me) (hstep : idleStep me s l c point = some (s', l')) :
    Kept me s s' l'.place := by
  obtain ⟨hc, hpoint⟩ := hplace
  cases point with
  | flush par =>
    cases hstep
    have hpar : (setQueue s me .closures []).queue me .parasites = s.queue me .parasites :=
      setQueue_queue fun heq => nomatch heq.2
    refine Kept.of_setQueue h (nil_subset _) ⟨fun hset => ?_, ?_⟩
    · exact ⟨(hc hset).1.congr rfl hpar, (hc hset).2⟩
    · cases par with
      | false => exact h.queue me .closures
      | true => exact ⟨hpoint, h.queue me .closures⟩
  | flushing par xs =>
    cases xs with
    | nil =>
      cases hstep
      cases par with
      | false => exact Kept.of_place h ⟨hc, trivial⟩
      | true => exact Kept.of_place h ⟨hc, hpoint.1⟩
    | cons x xs =>
      cases hstep
      have hxs : ∀ y ∈ x :: xs, y.code.Dormant := by
        cases par with
        | false => exact hpoint
        | true => exact hpoint.2
      have hrest : (Place.idle (.flushing par xs) c).Sound s me := by
        refine ⟨hc, ?_⟩
        cases par with
        | false => exact fun y hy => hxs y (mem_cons_of_mem x hy)
        | true => exact ⟨hpoint.1, fun y hy => hxs y (mem_cons_of_mem x hy)⟩
      refine Kept.of_enque h (hxs x mem_cons_self) ?_ (hrest.enque ?_)
      · nofun
      · nofun
  | maybeWait =>
    have hprimary : (Place.idle .primary c).Sound s me := ⟨hc, trivial⟩
    exact maybeWaitForGC_kept h hprimary hstep
  | primary =>
    cases hstep
    refine Kept.of_place h ⟨hc, ?_⟩
    split_ifs <;> trivial
  | secondary =>
    cases hstep
    refine Kept.of_place h ⟨hc, ?_⟩
    split_ifs with _ hempty
    · exact isEmpty_iff.mp hempty.1
    · trivial
    · trivial
  | forced =>
    simp only [idleStep] at hstep
    split_ifs at hstep
    cases hstep
    exact Kept.of_place h ⟨hc, trivial⟩
  | deque =>
    obtain ⟨rfl, rfl⟩ := Prod.mk.inj (Option.some.inj hstep)
    exact deque_kept h hc
  | parasites =>
    cases hstep
    refine Kept.of_place h ⟨hc, ?_⟩
    split_ifs with hempty
    · exact ⟨hpoint, isEmpty_iff.mp hempty⟩
    · trivial
  | dequeParasite =>
    simp only [idleStep] at hstep
    split at hstep
    · cases hstep
    · rename_i x xs hq
      cases hstep
      -- a loop that counts on no timeouts finds no parasites
      have hfresh : Fresh (some c) := by
        rintro c' ⟨⟩ hset
        have hnil := (hc hset).1.2
        rw [hq] at hnil
        cases hnil
      have hx : x.code.Dormant := h.queue me .parasites x (by rw [hq]; exact mem_cons_self)
      refine Kept.of_setQueue h ?_ (hx.setLoop hfresh).sound
      rw [hq]
      exact subset_cons_self x xs
  | maybeWaitForGC =>
    have hflush : (Place.idle (.flush false) c).Sound s me := ⟨hc, trivial⟩
    exact maybeWaitForGC_kept h hflush hstep
  | pauseHook =>
    simp only [idleStep] at hstep
    split_ifs at hstep with hiter
    · cases hstep
      exact Kept.of_place h hpoint
    · cases hstep
      exact Kept.of_place h ⟨hc, fun htimeout => hc ⟨hiter, htimeout⟩⟩
  | decide =>
    simp only [idleStep] at hstep
    split at hstep
    · rename_i htimeout
      have hstill : Still s me := hpoint htimeout
      split_ifs at hstep with hiter
      · cases hstep
        exact Kept.of_place h ⟨hc, Nat.ne_of_gt (Nat.zero_lt_of_lt hiter), htimeout⟩
      · cases hstep
        exact Kept.of_place h ⟨fun _ => hstill, trivial⟩
    · split_ifs at hstep
      · cases hstep
        exact Kept.of_place h trivial
      · cases hstep
        exact Kept.of_place h ⟨fun hset => (nomatch hset.2), trivial⟩
  | lock | wait =>
    simp only [idleStep] at hstep
    split_ifs at hstep
    cases hstep
    refine Kept.of_eq h ?_ ?_ (fun _ _ => ?_) ⟨hc, hpoint⟩ <;> rfl
  | testSection | testData =>
    cases hstep
    refine Kept.of_place h ⟨hc, ?_⟩
    split_ifs <;> exact hpoint
  | condWait =>
    cases hstep
    refine Kept.of_eq h ?_ ?_ (fun _ _ => ?_) ⟨hc, hpoint⟩ <;> rfl
  | clear =>
    cases hstep
    refine Kept.of_eq h ?_ ?_ (fun _ _ => ?_) ⟨fun _ => hc hpoint, trivial⟩ <;> rfl

theorem Timed.step {c : Config (Fin n) (Shared n) (Local n)} {a : Act n} (h : Timed c)
    (hstep : step me a c.shared (c.loc me) = some (s', l')) : Timed (c.put me s' l') := by
  refine Kept.put h ?_
  have hplace := h.place me
  unfold IdleLoop.step at hstep
  split at hstep
  · exact Kept.of_unchanged h.dormant hplace (perform_unchanged hstep)
  · unfold placeStep at hstep
    split at hstep
    · split_ifs at hstep
      exact Kept.of_unchanged h.dormant hplace (sectionStep_unchanged hstep)
    · split_ifs at hstep
      exact collect_kept h.dormant hplace hstep
    · split_ifs at hstep
      cases hstep
      exact Kept.of_unchanged h.dormant hplace ⟨rfl, rfl, rfl, rfl⟩
    · rename_i hcode
      rw [hcode] at hplace
      exact codeStep_kept h.dormant hplace hstep
    · rename_i hidle
      rw [hidle] at hplace
      exact idleStep_kept h.dormant hplace hstep
    · cases hstep
  · exact Kept.of_unchanged h.dormant hplace (sectionStep_unchanged hstep)
  · cases hstep

end

/-! ### The result -/

/-- `p` is blocked, and nobody has signaled it. -/
def Asleep (c : Config (Fin n) (Shared n) (Local n)) (p : Fin n) : Prop :=
  (∃ counter, (c.loc p).place = .idle .wait counter) ∧ c.shared.waitCondVar p = .waiting

/-- Whatever is there for `p` has its wake-up to come, and no thread waits for a time. -/
structure Idle (c : Config (Fin n) (Shared n) (Local n)) (p : Fin n) : Prop where
  queue : ∀ q, ∀ x ∈ c.shared.queue p q, Pending c p x.serial
  sections : threadInSection c.shared → Called c p
  timeQ : c.shared.timeQ p = []

structure Inv (c : Config (Fin n) (Shared n) (Local n)) : Prop where
  watched : ∀ p, Watched c p
  timed : Timed c

theorem Start.inv {c : Config (Fin n) (Shared n) (Local n)} (h : Start c) : Inv c := by
  refine ⟨fun p => ?_, ⟨?_, ?_⟩, fun p => ?_⟩
  · have hplace : (c.loc p).place = .code (.run none) := by rw [h.loc p]
    refine ⟨?_, fun q hq => ?_, ?_, ?_⟩
    · rw [hplace]
      exact h.waitMutex p
    · rw [hplace] at hq
      exact absurd hq (not_le.mpr q.level_pos)
    · rw [hplace]
      rintro (hdoze | ⟨_, hdoze⟩) <;> cases hdoze
    · rw [hplace]
      rintro ⟨⟩
  · intro t q x hx
    rw [(h.queue t q x hx).1]
    exact fresh_none
  · intro t x hx
    rw [h.preemptOnWBA t x hx]
    exact fresh_none
  · rw [h.loc p]
    exact fresh_none

/-- A processor that sleeps has nothing to do: in every interleaving, a thread that is still queued
for it has its wake-up to come, so has a section that waits for it, and its time queue is empty. -/
theorem never_sleeps_over_work (c : Config (Fin n) (Shared n) (Local n))
    (h : (process n).Reachable Start c) (p : Fin n) (hp : Asleep c p) : Idle c p := by
  have hinv : Inv c := by
    refine Process.ReachableWhile.invariant (I := Inv) (fun c hc => hc.inv) ?_ h
    intro c me a s l _ _ hinv hstep
    exact ⟨Watched.step hinv.watched (step_change hstep), hinv.timed.step hstep⟩
  obtain ⟨⟨counter, hplace⟩, hcond⟩ := hp
  have hwatched := hinv.watched p
  have hdoze : dozing (c.shared.waitCondVar p) (c.loc p).place := by
    rw [hplace]
    exact hcond
  refine ⟨fun q => ?_, hwatched.called (Or.inl hdoze), ?_⟩
  · have hlevel : q.level ≤ (c.loc p).place.level := by
      rw [hplace]
      exact q.level_le
    refine (hwatched.checked q hlevel).resolve_left ?_
    rw [hwatched.flag hdoze]
    exact Bool.false_ne_true
  · have hsound := hinv.timed.place p
    rw [hplace] at hsound
    exact (hsound.1 hsound.2).2

/-! ### A processor that sleeps -/

/-- Two processors, with nothing to do. -/
def nothing : Shared 2 :=
  ⟨fun _ _ => [], fun _ => [], fun _ => [], fun _ => [], fun _ => false, fun _ => false,
    fun _ => .none, ⟨0, -1, (), []⟩, 0⟩

/-- A processor outside of any section. -/
def outside (place : Place) : Local 2 := ⟨place, none, ⟨.outside, 0, 0⟩⟩

/-- The second processor runs a thread. -/
def beside (s : Shared 2) (place : Place) : Config (Fin 2) (Shared 2) (Local 2) :=
  ⟨s, update (fun _ => outside (.code (.run none))) ⟨0, Nat.two_pos⟩ (outside place)⟩

theorem reach_beside {s s' : Shared 2} {place place' : Place}
    (h : (process 2).Reachable Start (beside s place))
    (hstep : step 0 .go s (outside place) = some (s', outside place')) :
    (process 2).Reachable Start (beside s' place') := by
  have hput : (beside s place).put 0 s' (outside place') = beside s' place' :=
    congrArg (Config.mk s') (Function.update_idem _ _ _)
  have hfire : (process 2).fire (0, .go) (beside s place) = some (beside s' place') :=
    Process.fire_eq_some_iff.mpr ⟨s', _, hstep, hput.symm⟩
  exact .step h trivial hfire

theorem flush_nothing : setQueue nothing 0 .closures [] = nothing := by
  have hqueue : update (nothing.queue 0) .closures [] = nothing.queue 0 :=
    Function.update_eq_self Sub.closures (nothing.queue 0)
  rw [setQueue, hqueue, Function.update_eq_self]

/-- The loop looks at its queues. -/
theorem reach_pauseHook (h : (process 2).Reachable Start (beside nothing (.idle (.flush false) c))) :
    (process 2).Reachable Start (beside nothing (.idle .pauseHook c)) := by
  have hflush := reach_beside h rfl
  rw [flush_nothing] at hflush
  have hsecond := reach_beside (reach_beside (reach_beside (reach_beside hflush rfl) rfl) rfl) rfl
  have hflush' := reach_beside hsecond rfl
  rw [flush_nothing] at hflush'
  exact reach_beside (reach_beside hflush' rfl) rfl

/-- It does so again and again. -/
theorem reach_iter (k : ℕ) (hk : k ≤ maxIter) :
    (process 2).Reachable Start (beside nothing (nextWithCounter (k + 1) none)) := by
  induction k with
  | zero =>
    have hloc (p : Fin 2) : (beside nothing (.code (.run none))).loc p = outside (.code (.run none)) :=
      congrFun (Function.update_eq_self (0 : Fin 2) fun _ => outside (.code (.run none))) p
    have hstart : (process 2).Reachable Start (beside nothing (.code (.run none))) :=
      .start ⟨hloc, rfl, nofun, nofun, fun _ => rfl, fun _ => rfl⟩
    have hhook := reach_pauseHook (reach_beside hstart rfl)
    exact reach_beside (reach_beside (reach_beside hhook rfl) rfl) rfl
  | succ k ih =>
    have hdecide := reach_beside (reach_pauseHook (ih (Nat.le_of_succ_le hk))) rfl
    refine reach_beside hdecide ?_
    show idleStep 0 nothing _ ⟨k + 1, none⟩ .decide = _
    simp only [idleStep]
    rw [if_neg (not_lt.mpr hk)]
    rfl

/-- With nothing to do, the first processor goes to sleep, and then the second one enqueues a thread
for it. -/
theorem sleeps : ∃ c, (process 2).Reachable Start c ∧ Asleep c 0 ∧
    c.shared.queue 0 .primary = [⟨0, .run none⟩] := by
  have hdecide := reach_beside (reach_pauseHook (reach_iter maxIter le_rfl)) rfl
  have hlock : (process 2).Reachable Start (beside nothing (.idle .lock ⟨maxIter + 1, none⟩)) := by
    refine reach_beside hdecide ?_
    show idleStep 0 nothing _ ⟨maxIter + 1, none⟩ .decide = _
    simp only [idleStep]
    rw [if_pos (Nat.lt_succ_self maxIter)]
    rfl
  have hwait := reach_beside (reach_beside (reach_beside (reach_beside hlock rfl) rfl) rfl) rfl
  exact ⟨_, .step (a := (1, .enqueHost 0 true)) hwait trivial rfl, ⟨⟨_, rfl⟩, rfl⟩, rfl⟩

theorem never_sleeps_over_work_two : ∃ c : Config (Fin 2) (Shared 2) (Local 2),
    Asleep c 0 ∧ c.shared.queue 0 .primary = [⟨0, .run none⟩] ∧ Pending c 0 0 := by
  obtain ⟨c, hc, hasleep, hqueue⟩ := sleeps
  have hidle := never_sleeps_over_work c hc 0 hasleep
  exact ⟨c, hasleep, hqueue, hidle.queue .primary _ (hqueue ▸ List.mem_singleton_self _)⟩

end MultiMLton.IdleLoop
