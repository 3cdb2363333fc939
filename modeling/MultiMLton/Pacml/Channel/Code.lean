import Mathlib.Data.List.DropRight
import Mathlib.Logic.Function.Basic
import Mathlib.Tactic.Cases

/-!
# The operations of `core-cml/channel.sml`

A channel has a lock, a priority and two queues: `inQ` holds the receivers that wait, `outQ` the
senders with their messages, each with the transaction id of the synchronisation it belongs to.
A transaction id is `0` while it waits, `1` while its own thread tries to commit it, and `2` once
it is committed.

`send`, `recv`, `sendPoll`, `recvPoll`, and `doitFn` and `blockFn` of `sendEvt` and `recvEvt` are
one piece of code up to the direction and to what happens when nobody waits on the other side
(`Mode`).

* `Chan`, `Mem`: the channels, the transaction ids, and the threads given back to the scheduler;
* `Op` and the eight operations;
* `Pc` and `step`: the code, one access to the shared memory at a time.

The queues are ideal FIFO queues, cleaned in one step, and the lock is a re-entrant mutex;
`Channel.Queues` puts circular queues in their place.
-/

namespace MultiMLton.Channel

universe u

/-- The two queues of a channel. -/
inductive Side
  | inQ
  | outQ
  deriving DecidableEq, Repr

/-- A queue element: the transaction id, the waiting thread, and in `outQ` the message. -/
structure Entry (ι θ α : Type*) where
  txid : ι
  thread : θ
  msg : Option α
  deriving DecidableEq

/-- `CHAN`.  The lock is `none` or its holder with the nested acquisitions. -/
structure Chan (ι θ φ α : Type*) where
  prio : ℤ
  queue : Side → List (Entry ι θ α)
  lock : Option (φ × ℕ)

/-- The shared memory: the channels, the transaction ids, and the threads that the scheduler has
been given with the value they resume with (`none` is `()`). -/
structure Mem (κ ι θ φ α : Type*) where
  chan : κ → Chan ι θ φ α
  txid : ι → ℤ
  ready : List (θ × Option α)

/-- `channel ()`. -/
def channel (ι θ φ α : Type*) : Chan ι θ φ α := ⟨1, fun _ => [], none⟩

/-- What an operation does when nobody waits on the other side: `call` blocks under a new
transaction id, `poll` gives up, `doit` raises `DOIT_FAIL` and `block` blocks under the
transaction id it has been given, which it also has to claim before it commits. -/
inductive Mode
  | call
  | poll
  | doit
  | block
  deriving DecidableEq, Repr

/-- An operation: `offer` is the message of a send and `none` in a receive. -/
structure Op (κ α : Type*) where
  chan : κ
  offer : Option α
  mode : Mode
  deriving DecidableEq

section Operations

variable {κ α : Type*}

def send (ch : κ) (msg : α) : Op κ α := ⟨ch, some msg, .call⟩
def recv (ch : κ) : Op κ α := ⟨ch, none, .call⟩
def sendPoll (ch : κ) (msg : α) : Op κ α := ⟨ch, some msg, .poll⟩
def recvPoll (ch : κ) : Op κ α := ⟨ch, none, .poll⟩
def sendEvt.doitFn (ch : κ) (msg : α) : Op κ α := ⟨ch, some msg, .doit⟩
def recvEvt.doitFn (ch : κ) : Op κ α := ⟨ch, none, .doit⟩
def sendEvt.blockFn (ch : κ) (msg : α) : Op κ α := ⟨ch, some msg, .block⟩
def recvEvt.blockFn (ch : κ) : Op κ α := ⟨ch, none, .block⟩

/-- The queue of the other side. -/
def Op.theirs (op : Op κ α) : Side := if op.offer.isSome then .inQ else .outQ

/-- The queue of the operation's own side. -/
def Op.ours (op : Op κ α) : Side := if op.offer.isSome then .outQ else .inQ

end Operations

/-- How an operation ends: with a value (`none` is `()`; a poll then returns `true` or `SOME` of
it), with the `false` or `NONE` of a poll, or with an exception. -/
inductive Outcome (α : Type*)
  | ret (v : Option α)
  | refused
  | doitFail
  | sameEvent
  deriving DecidableEq

/-- Program points. -/
inductive Pc (ι θ α : Type*)
  /-- `atomicBegin ()` -/
  | begin
  /-- `L.getCmlLock` -/
  | getLock
  /-- `cleanAndDeque` on the queue of the other side -/
  | tryLp
  /-- `cas (rtxid, 0, 2)`, or `cas (mytxid, 0, 1)` in `blockFn` -/
  | matchLp (e : Entry ι θ α)
  /-- `cas (rtxid, 0, 2)` of `blockFn` -/
  | claimed (e : Entry ι θ α)
  /-- `mytxid := 0`, then `matchLp` with this element or `tryLp` -/
  | unclaim (e : Option (Entry ι θ α))
  /-- `prio := 1` -/
  | won (e : Entry ι θ α)
  /-- `mytxid := 2` -/
  | commit (e : Entry ι θ α)
  /-- `L.releaseCmlLock` of the match -/
  | wonRelease (e : Entry ι θ α)
  /-- `T.reifyCurrentIfParasite ()` of the match -/
  | reify (e : Entry ι θ α)
  /-- `S.atomicReady` or `S.ready` of the prepared thread -/
  | ready (e : Entry ι θ α)
  /-- `undeque` -/
  | undeque (e : Entry ι θ α)
  /-- `L.releaseCmlLock` after `undeque` -/
  | lostRelease
  /-- switched away for good by `S.atomicSwitchToNext (fn _ => ())` -/
  | away
  /-- `cleanAndEnque` on the own queue, inside `S.atomicSwitchToNext` -/
  | enque
  /-- `L.releaseCmlLock` inside `S.atomicSwitchToNext` -/
  | parkRelease
  /-- switched away -/
  | parked
  /-- `atomicBegin ()` of a resumed `blockFn` -/
  | resumed (v : Option α)
  /-- `T.reifyCurrentIfParasite ()` of a resumed `blockFn` -/
  | reifyResumed (v : Option α)
  /-- `L.releaseCmlLock` before `raise DOIT_FAIL` -/
  | failRelease
  | done (r : Outcome α)
  deriving DecidableEq

section Step

variable {κ ι θ φ α : Type*}

/-- Program points that only some modes reach. -/
def Fits (op : Op κ α) : Pc ι θ α → Prop
  | .claimed _ | .unclaim _ | .commit _ | .reify _ | .undeque _ | .lostRelease | .away
  | .resumed _ | .reifyResumed _ => op.mode = .block
  | .enque | .parkRelease | .parked => op.mode = .call ∨ op.mode = .block
  | .failRelease => op.mode = .doit
  | _ => True

/-- Where an operation starts; `doitFn` and `blockFn` are called inside an atomic section. -/
def Op.start (op : Op κ α) : Pc ι θ α :=
  match op.mode with
  | .call | .poll => .begin
  | .doit | .block => .getLock

theorem fits_start (op : Op κ α) : Fits op (op.start : Pc ι θ α) := by
  rcases op with ⟨c, o, _ | _ | _ | _⟩ <;> trivial

variable [DecidableEq κ] [DecidableEq ι] [DecidableEq θ] [DecidableEq φ] [DecidableEq α]

namespace Mem

variable (m : Mem κ ι θ φ α)

/-- `cleaner`: the element is `SYNCHED`. -/
def cleaner (e : Entry ι θ α) : Bool := m.txid e.txid == 2

def setChan (c : κ) (ch : Chan ι θ φ α) : Mem κ ι θ φ α :=
  { m with chan := Function.update m.chan c ch }

def setQueue (c : κ) (d : Side) (q : List (Entry ι θ α)) : Mem κ ι θ φ α :=
  m.setChan c { m.chan c with queue := Function.update (m.chan c).queue d q }

def setPrio (c : κ) (p : ℤ) : Mem κ ι θ φ α := m.setChan c { m.chan c with prio := p }

def setLock (c : κ) (l : Option (φ × ℕ)) : Mem κ ι θ φ α :=
  m.setChan c { m.chan c with lock := l }

def setTxid (x : ι) (v : ℤ) : Mem κ ι θ φ α :=
  { m with txid := Function.update m.txid x v }

/-- `cas (x, old, new)`: the new memory; the value found is `m.txid x`. -/
def cas (x : ι) (old new : ℤ) : Mem κ ι θ φ α := if m.txid x = old then m.setTxid x new else m

/-- `L.getCmlLock`, when the lock is free or held by the caller. -/
def getLock (c : κ) (self : φ) : Option (Mem κ ι θ φ α) :=
  match (m.chan c).lock with
  | none => some (m.setLock c (some (self, 0)))
  | some (h, n) => if h = self then some (m.setLock c (some (self, n + 1))) else none

/-- `L.releaseCmlLock`, by the holder. -/
def releaseLock (c : κ) (self : φ) : Option (Mem κ ι θ φ α) :=
  match (m.chan c).lock with
  | none => none
  | some (h, n) =>
    if h = self then some (m.setLock c (if n = 0 then none else some (self, n - 1))) else none

/-- `S.atomicReady` and `S.ready`, on the memory. -/
def pushReady (t : θ) (v : Option α) : Mem κ ι θ φ α := { m with ready := m.ready ++ [(t, v)] }

end Mem

/-- `cleanAndDeque`. -/
def cleanAndDeque (m : Mem κ ι θ φ α) (q : List (Entry ι θ α)) :
    Option (Entry ι θ α) × List (Entry ι θ α) :=
  (((q.dropWhile m.cleaner).head?), (q.dropWhile m.cleaner).tail)

/-- `cleanAndEnque`. -/
def cleanAndEnque (m : Mem κ ι θ φ α) (q : List (Entry ι θ α)) (e : Entry ι θ α) :
    List (Entry ι θ α) :=
  q.rdropWhile m.cleaner ++ [e]

/-- Where `tryLp` goes with what it has taken off the queue: a waiting element is matched, unless
it is the one of the operation's own transaction, which `blockFn` takes for an error. -/
def afterDeque (op : Op κ α) (own : ι) : Option (Entry ι θ α) → Pc ι θ α
  | some e => if op.mode = .block ∧ own = e.txid then .done .sameEvent else .matchLp e
  | none =>
    match op.mode with
    | .call | .block => .enque
    | .poll => .done .refused
    | .doit => .failRelease

/-- One step of operation `op`, run by thread `me` with lock id `self` under transaction id
`own`: the one that `blockFn` is given, or that `mkTxId ()` returns. -/
def step (self : φ) (me : θ) (own : ι) (op : Op κ α) (m : Mem κ ι θ φ α) :
    Pc ι θ α → Option (Mem κ ι θ φ α × Pc ι θ α)
  | .begin => some (m, .getLock)
  | .getLock => (m.getLock op.chan self).map (·, .tryLp)
  | .tryLp =>
    let r := cleanAndDeque m ((m.chan op.chan).queue op.theirs)
    some (m.setQueue op.chan op.theirs r.2, afterDeque op own r.1)
  | .matchLp e =>
    if op.mode = .block then
      some (m.cas own 0 1,
        if m.txid own = 0 then .claimed e else if m.txid own = 1 then .matchLp e else .undeque e)
    else
      some (m.cas e.txid 0 2,
        if m.txid e.txid = 0 then .won e else if m.txid e.txid = 1 then .matchLp e else .tryLp)
  | .claimed e =>
    some (m.cas e.txid 0 2,
      if m.txid e.txid = 0 then .won e
      else if m.txid e.txid = 1 then .unclaim (some e)
      else .unclaim none)
  | .unclaim e => some (m.setTxid own 0, e.elim .tryLp .matchLp)
  | .won e => some (m.setPrio op.chan 1, if op.mode = .block then .commit e else .wonRelease e)
  | .commit e => some (m.setTxid own 2, .wonRelease e)
  | .wonRelease e =>
    (m.releaseLock op.chan self).map (·, if op.mode = .block then .reify e else .ready e)
  | .reify e => some (m, .ready e)
  -- a sender resumes the receiver with the message, a receiver the sender with ()
  | .ready e => some (m.pushReady e.thread op.offer, .done (.ret e.msg))
  | .undeque e =>
    some (m.setQueue op.chan op.theirs (e :: (m.chan op.chan).queue op.theirs), .lostRelease)
  | .lostRelease => (m.releaseLock op.chan self).map (·, .away)
  | .away => none
  | .enque =>
    some (m.setQueue op.chan op.ours
      (cleanAndEnque m ((m.chan op.chan).queue op.ours) ⟨own, me, op.offer⟩), .parkRelease)
  | .parkRelease => (m.releaseLock op.chan self).map (·, .parked)
  | .parked =>
    (m.ready.find? (·.1 = me)).map fun r =>
      ({ m with ready := m.ready.erase r },
        if op.mode = .block then .resumed r.2 else .done (.ret r.2))
  | .resumed v => some (m, .reifyResumed v)
  | .reifyResumed v => some (m, .done (.ret v))
  | .failRelease => (m.releaseLock op.chan self).map (·, .done .doitFail)
  | .done _ => none

theorem fits_step {self : φ} {me : θ} {own : ι} {op : Op κ α} {m m' : Mem κ ι θ φ α}
    {pc pc' : Pc ι θ α} (hf : Fits op pc) (h : step self me own op m pc = some (m', pc')) :
    Fits op pc' := by
  cases pc
  case tryLp =>
    cases h
    rcases (cleanAndDeque m ((m.chan op.chan).queue op.theirs)).1 with _ | e
    · rcases op with ⟨c, o, _ | _ | _ | _⟩ <;> simp [afterDeque, Fits]
    · simp only [afterDeque]
      split_ifs <;> trivial
  case matchLp e =>
    by_cases hb : op.mode = .block
    · obtain ⟨-, rfl⟩ : _ ∧ _ = pc' := by simpa [step, hb] using h
      split_ifs <;> first | exact hb | trivial
    · obtain ⟨-, rfl⟩ : _ ∧ _ = pc' := by simpa [step, hb] using h
      split_ifs <;> trivial
  case unclaim e =>
    cases h
    cases e <;> trivial
  case getLock | wonRelease | lostRelease | parkRelease | parked | failRelease =>
    obtain ⟨_, _, he⟩ := Option.map_eq_some_iff.1 h
    cases he
    first | trivial | exact hf | (split_ifs <;> trivial)
  case away | done => simp [step] at h
  all_goals
    cases h
    first | trivial | exact hf | (split_ifs <;> trivial)

end Step

end MultiMLton.Channel
