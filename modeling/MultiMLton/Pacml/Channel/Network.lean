import MultiMLton.Lib.Interleave
import MultiMLton.Pacml.Channel.Code

/-!
# Threads that communicate over channels

Any number of threads that run `send`, `recv`, `sendPoll`, `recvPoll` and `sSync` on choices of
`sendEvt` and `recvEvt`, each one atomic step of `Channel.step` at a time.

* An operation has a number, which is also the number of its transaction id; a thread that waits is
  named by the number of the run of code that it waits in (`Net.own` gives its transaction id).
* `sSync` may poll its events and try their `doitFn`s in any order and as often as it likes before
  it blocks, so every outcome of `selectDoitFn` and of the polls is covered.  It then runs the one
  `blockFn` itself, or waits for the parasites that `blockHelper` spawns; the parasites of a choice
  may start in any order and at any time.
* A choice may also offer events of other kinds: these claim its transaction id and commit it or
  give it back (`Local.other`).
* `Net.req`, `Net.log` and `Net.results` are auxiliary: what the operations offer, the commits, and
  how the operations have ended.
-/

namespace MultiMLton.Channel

open Interleave

/-- A base event: `sendEvt (chan, msg)` has the offer `msg`, `recvEvt chan` has none. -/
structure BaseEvt (κ α : Type*) where
  chan : κ
  offer : Option α
  deriving DecidableEq

section Events

variable {κ α : Type*}

def sendEvt (ch : κ) (msg : α) : BaseEvt κ α := ⟨ch, some msg⟩
def recvEvt (ch : κ) : BaseEvt κ α := ⟨ch, none⟩

def BaseEvt.doitFn (b : BaseEvt κ α) : Op κ α := ⟨b.chan, b.offer, .doit⟩
def BaseEvt.blockFn (b : BaseEvt κ α) : Op κ α := ⟨b.chan, b.offer, .block⟩

end Events

/-- A commit: of a sender and a receiver, or of a choice by an event of another kind. -/
inductive Commit (κ α : Type*)
  | pair (sender receiver : ℕ) (chan : κ) (msg : Option α)
  | other (x : ℕ)
  deriving DecidableEq

/-- The operations that a commit commits. -/
def Commit.parties {κ α : Type*} : Commit κ α → List ℕ
  | .pair sender receiver _ _ => [sender, receiver]
  | .other x => [x]

/-- The commit of operation `x`, which runs `op`, with the waiting element `e`. -/
def Op.commit {κ α : Type*} (op : Op κ α) (x : ℕ) (e : Entry ℕ ℕ α) : Commit κ α :=
  if op.offer.isSome then .pair x e.txid op.chan op.offer else .pair e.txid x op.chan e.msg

/-- The state of all channels, and the records of the operations. -/
structure Net (κ τ α : Type*) where
  mem : Mem κ ℕ ℕ τ α
  /-- the next number -/
  next : ℕ
  /-- the transaction id under which a run of code waits -/
  own : ℕ → ℕ
  /-- what an operation offers -/
  req : ℕ → List (BaseEvt κ α)
  /-- the operations that wait or have waited under their transaction id -/
  exposed : List ℕ
  /-- those among them that `blockHelper` has blocked -/
  choices : List ℕ
  /-- the calls of `S.ready` for threads blocked by `blockHelper` that are not resumed yet -/
  woken : List (ℕ × Option α)
  results : List (ℕ × Outcome α)
  log : List (Commit κ α)

/-- Who runs the code of an operation: a call of the channel interface, a `doitFn` of `sSync`, its
single `blockFn`, or a parasite of `blockHelper`. -/
inductive Role (κ α : Type*)
  | call
  | doit (bevts : List (BaseEvt κ α))
  | host
  | par
  deriving DecidableEq

/-- What a thread is doing for operation `x`. -/
inductive Local (κ α : Type*)
  | idle
  /-- run `h` of the code of `op` -/
  | run (role : Role κ α) (x h : ℕ) (op : Op κ α) (pc : Pc ℕ ℕ α)
  /-- `syncOnBEvts` before it blocks -/
  | sync (x : ℕ) (bevts : List (BaseEvt κ α))
  /-- blocked by `blockHelper` -/
  | waiting (x : ℕ)
  /-- an event of another kind -/
  | other (x : ℕ)
  | otherClaimed (x : ℕ)
  deriving DecidableEq

/-- What the code leaves open. -/
inductive Choice (κ α : Type*)
  | call (op : Op κ α)
  | sync (bevts : List (BaseEvt κ α))
  | spawn (x : ℕ) (b : BaseEvt κ α)
  | other (x : ℕ)
  | poll (b : BaseEvt κ α)
  | doit (b : BaseEvt κ α)
  | block
  | claim
  | commit
  | giveBack
  | go

section Step

variable {κ τ α : Type*} [DecidableEq κ] [DecidableEq τ] [DecidableEq α]

/-- `cleanAndChk`: the priority, when somebody waits. -/
def cleanAndChk (m : Mem κ ℕ ℕ τ α) (c : κ) (d : Side) : Mem κ ℕ ℕ τ α × Option ℤ :=
  let q := ((m.chan c).queue d).dropWhile m.cleaner
  let m' := m.setQueue c d q
  if q.isEmpty then (m', none) else (m'.setPrio c ((m.chan c).prio + 1), some (m.chan c).prio)

/-- `pollFn` of `sendEvt` and `recvEvt`, under the lock. -/
def BaseEvt.pollFn (b : BaseEvt κ α) (self : τ) (m : Mem κ ℕ ℕ τ α) :
    Option (Mem κ ℕ ℕ τ α × Option ℤ) :=
  (m.getLock b.chan self).bind fun m =>
    let r := cleanAndChk m b.chan b.doitFn.theirs
    (r.1.releaseLock b.chan self).map (·, r.2)

/-- The element that a step commits. -/
def wins (m : Mem κ ℕ ℕ τ α) (op : Op κ α) : Pc ℕ ℕ α → Option (Entry ℕ ℕ α)
  | .matchLp e => if op.mode ≠ .block ∧ m.txid e.txid = 0 then some e else none
  | .claimed e => if m.txid e.txid = 0 then some e else none
  | _ => none

/-- One step of the code of an operation. -/
def Net.access (n : Net κ τ α) (x : ℕ) (op : Op κ α) (pc : Pc ℕ ℕ α)
    (m : Mem κ ℕ ℕ τ α) : Net κ τ α :=
  { n with
    mem := m
    exposed := if pc = .enque then x :: n.exposed else n.exposed
    log := match wins n.mem op pc with
      | some e => op.commit x e :: n.log
      | none => n.log }

/-- The end of the code of an operation. -/
def Net.finish (n : Net κ τ α) (x : ℕ) (r : Outcome α) :
    Role κ α → Option (Net κ τ α × Local κ α)
  | .call => some ({ n with results := (x, r) :: n.results }, .idle)
  | .doit bevts =>
    match r with
    | .ret v => some ({ n with results := (x, .ret v) :: n.results }, .idle)
    | .doitFail => some (n, .sync x bevts)
    | _ => none
  | .host =>
    match r with
    | .ret v => some ({ n with results := (x, .ret v) :: n.results }, .idle)
    | _ => none
  | .par =>
    match r with
    | .ret v => some ({ n with woken := (x, v) :: n.woken }, .idle)
    | _ => none

/-- One step of a thread. -/
def netStep (t : τ) (k : Choice κ α) (n : Net κ τ α) : Local κ α → Option (Net κ τ α × Local κ α)
  | .idle =>
    match k with
    | .call op =>
      if op.mode = .call ∨ op.mode = .poll then
        some ({ n with
            next := n.next + 1
            own := Function.update n.own n.next n.next
            req := Function.update n.req n.next [⟨op.chan, op.offer⟩] },
          .run .call n.next n.next op op.start)
      else none
    | .sync bevts =>
      some ({ n with
          next := n.next + 1
          own := Function.update n.own n.next n.next
          req := Function.update n.req n.next bevts }, .sync n.next bevts)
    | .spawn x b =>
      if x ∈ n.choices ∧ b ∈ n.req x then
        some ({ n with next := n.next + 1, own := Function.update n.own n.next x },
          .run .par x n.next b.blockFn b.blockFn.start)
      else none
    | .other x => if x ∈ n.choices then some (n, .other x) else none
    | _ => none
  | .sync x bevts =>
    match k with
    | .poll b =>
      if b ∈ bevts then
        (b.pollFn t n.mem).map fun r => ({ n with mem := r.1 }, .sync x bevts)
      else none
    | .doit b =>
      if b ∈ bevts then some (n, .run (.doit bevts) x x b.doitFn b.doitFn.start) else none
    | .block =>
      match bevts with
      | [] => none
      | [b] =>
        some ({ n with exposed := x :: n.exposed }, .run .host x x b.blockFn b.blockFn.start)
      | _ => some ({ n with exposed := x :: n.exposed, choices := x :: n.choices }, .waiting x)
    | _ => none
  | .run role x h op pc =>
    match pc with
    | .done r => n.finish x r role
    | pc => (step t h x op n.mem pc).map fun r => (n.access x op pc r.1, .run role x h op r.2)
  | .waiting x =>
    (n.woken.find? (·.1 = x)).map fun r =>
      ({ n with woken := n.woken.erase r, results := (x, .ret r.2) :: n.results }, .idle)
  | .other x =>
    match k with
    | .claim =>
      if n.mem.txid x = 0 then some ({ n with mem := n.mem.setTxid x 1 }, .otherClaimed x)
      else some (n, .idle)
    | .commit =>
      if n.mem.txid x = 0 then
        some ({ n with mem := n.mem.setTxid x 2, log := .other x :: n.log }, .idle)
      else some (n, .idle)
    | _ => none
  | .otherClaimed x =>
    match k with
    | .commit => some ({ n with mem := n.mem.setTxid x 2, log := .other x :: n.log }, .idle)
    | .giveBack => some ({ n with mem := n.mem.setTxid x 0 }, .idle)
    | _ => none

section Equations

attribute [local simp] netStep

end Equations

/-- The threads. -/
def netProcess (κ τ α : Type*) [DecidableEq κ] [DecidableEq τ] [DecidableEq α] :
    Process τ (Choice κ α) (Net κ τ α) (Local κ α) where
  step := netStep

/-- New channels, and nothing has been started. -/
def Net.init (κ τ α : Type*) : Net κ τ α :=
  ⟨⟨fun _ => channel ℕ ℕ τ α, fun _ => 0, []⟩, 0, fun _ => 0, fun _ => [], [], [], [], [], []⟩

def Initial (c : Config τ (Net κ τ α) (Local κ α)) : Prop :=
  c.shared = Net.init κ τ α ∧ ∀ t, c.loc t = .idle

end Step

end MultiMLton.Channel
