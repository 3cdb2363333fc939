import Mathlib.Data.Int.Notation
import MultiMLton.Lib.Interleave
import MultiMLton.Lib.Linearizability
import MultiMLton.Pacml.ImpQueue

/-!
# I-variables and M-variables of `core-cml/sync-var.sml`

One cell and any number of threads that work on it.  `gPut`, `gSwap`, `gSwapPoll` and the `doitFn`
and `blockFn` of `gSwapEvt` are one step relation over program counters; every access to the lock,
to the cell, to a transaction id and to the read queue under the lock is a step of its own.

* a thread at rest may start any operation, and may poll the event: in this way every order in
  which `sSync` polls the cell, tries its `doitFn` and runs its `blockFn`s is covered;
* the transaction ids of choices are also moved by other cells and channels (`Choice.foreign`);
* a cleaning step of the read queue may overlook an entry whose transaction id has become `2` only
  after it was read (`Choice.clean`);
* `Mem.next` and `Mem.trace` are auxiliary: they number the operations and record them.
-/

namespace MultiMLton.SyncVar

open Linearizability

/-- What becomes of the value when it is read: `doGetSwap`, `doTakeSwap` and `doSwapSwap x`. -/
inductive Swap (α : Type*)
  | get
  | take
  | swap (x : α)
  deriving DecidableEq

/-- `doSwap`. -/
def Swap.doSwap {α : Type*} : Swap α → Option α → Option α
  | .get, value => value
  | .take, _ => none
  | .swap x, _ => some x

/-- The transaction id of an entry: the `ref 0` of one `gSwap`, or that of a choice. -/
inductive TxId (ι : Type*)
  | own (id : ℕ)
  | choice (n : ι)
  deriving DecidableEq

/-- The functions that read the cell. -/
inductive Via (ι : Type*)
  | gSwap
  | gSwapPoll
  | doitFn
  | blockFn (mytxid : ι)
  deriving DecidableEq

/-- The operations. -/
inductive Op (ι α : Type*)
  | gPut (x : α)
  | swap (via : Via ι) (doSwap : Swap α)
  deriving DecidableEq

section Operations

variable {ι α : Type*}

def iPut (x : α) : Op ι α := .gPut x
def iGet : Op ι α := .swap .gSwap .get
def iGetPoll : Op ι α := .swap .gSwapPoll .get
/-- A function of `iGetEvt`. -/
def iGetEvt (via : Via ι) : Op ι α := .swap via .get
def mPut (x : α) : Op ι α := .gPut x
def mTake : Op ι α := .swap .gSwap .take
/-- A function of `mTakeEvt`. -/
def mTakeEvt (via : Via ι) : Op ι α := .swap via .take
def mTakePoll : Op ι α := .swap .gSwapPoll .take
def mGet : Op ι α := .swap .gSwap .get
/-- A function of `mGetEvt`. -/
def mGetEvt (via : Via ι) : Op ι α := .swap via .get
def mGetPoll : Op ι α := .swap .gSwapPoll .get
def mSwap (x : α) : Op ι α := .swap .gSwap (.swap x)
/-- A function of `mSwapEvt`. -/
def mSwapEvt (via : Via ι) (x : α) : Op ι α := .swap via (.swap x)

end Operations

/-- How an operation ends. -/
inductive Res (α : Type*)
  | unit
  | msg (x : α)
  | NONE
  | raisePut
  | raiseDoitFail
  deriving DecidableEq

/-- An entry of `readQ`: the transaction id, the waiting thread, named by its operation, and
`doSwap`. -/
structure Entry (ι α : Type*) where
  tx : TxId ι
  rt : ℕ
  doSwap : Swap α
  deriving DecidableEq

/-- The operation that waits. -/
def Entry.op {ι α : Type*} (e : Entry ι α) : Op ι α :=
  match e.tx with
  | .own _ => .swap .gSwap e.doSwap
  | .choice n => .swap (.blockFn n) e.doSwap

/-- The cell, the transaction ids, and the calls of `S.atomicReady` so far. -/
structure Mem (τ ι α : Type*) where
  prio : ℤ
  readQ : ImpQueue.T (Entry ι α)
  value : Option α
  lock : Option τ
  txid : TxId ι → ℕ
  readied : List (ℕ × α)
  next : ℕ
  trace : List (Act ℕ (Op ι α) (Res α))

/-- What follows the release of the lock. -/
inductive Then (ι α : Type*)
  | ret (r : Res α)
  | ready (rdyLst : List (ℕ × α))
  | park (tx : TxId ι)
  | away

/-- Where a thread is in operation `id`. -/
inductive Pc (ι α : Type*)
  | idle
  | lock (id : ℕ) (op : Op ι α)
  /-- `case !value of` -/
  | test (id : ℕ) (op : Op ι α)
  /-- `tryLp` of `relayMsg` -/
  | tryLp (id : ℕ) (msg : α) (readyList : List (ℕ × α))
  /-- `matchLp` of `relayMsg` -/
  | matchLp (id : ℕ) (msg : α) (e : Entry ι α) (readyList : List (ℕ × α))
  /-- `matchLp` of `relayMsg`, after a successful `cas` -/
  | commit (id : ℕ) (msg : α) (e : Entry ι α) (readyList : List (ℕ × α))
  | ready (id : ℕ) (rdyLst : List (ℕ × α))
  /-- the branch `SOME x` of `gSwap`, `gSwapPoll` and `doitFn` -/
  | swap (id : ℕ) (via : Via ι) (doSwap : Swap α) (x : α)
  /-- `matchLp` of `blockFn` -/
  | matchOwn (id : ℕ) (doSwap : Swap α) (mytxid : ι) (x : α)
  | enque (id : ℕ) (doSwap : Swap α) (tx : TxId ι)
  | unlock (id : ℕ) (after : Then ι α)
  | parked (id : ℕ) (tx : TxId ι)
  | ret (id : ℕ) (r : Res α)
  /-- `S.atomicSwitchToNext (fn _ => ())` -/
  | away

/-- What the code leaves open. -/
inductive Choice (ι α : Type*)
  | start (op : Op ι α)
  | pollFn
  | foreign (n : ι) (v : ℕ)
  | clean (seen : ℕ → Bool)

def Choice.seen {ι α : Type*} : Choice ι α → ℕ → Bool
  | .clean seen => seen
  | _ => fun _ => true

section Step

variable {τ ι α : Type*}

/-- The start: `mVar` and `iVar` with `none`, `mVarInit x` with `some x`. -/
def Mem.init (value : Option α) : Mem τ ι α :=
  ⟨0, ImpQueue.new, value, none, fun _ => 0, [], 0, []⟩

/-- `pollFn` of `gSwapEvt`: an enabled event bumps the priority. -/
def Mem.pollFn (m : Mem τ ι α) : Mem τ ι α :=
  match m.value with
  | none => m
  | some _ => { m with prio := m.prio + 1 }

/-- Elsewhere an id is claimed, given back or committed. -/
def foreignMove : ℕ → ℕ → Bool
  | 0, v => v == 1 || v == 2
  | 1, v => v == 0 || v == 2
  | _, _ => false

/-- After the release of the lock. -/
def Then.pc (id : ℕ) : Then ι α → Pc ι α
  | .ret r => .ret id r
  | .ready rdyLst => .ready id rdyLst
  | .park tx => .parked id tx
  | .away => .away

variable [DecidableEq ι]

def Mem.setTx (m : Mem τ ι α) (tx : TxId ι) (v : ℕ) : Mem τ ι α :=
  { m with txid := Function.update m.txid tx v }

/-- `cleaner`, for the entries whose transaction id is read in time. -/
def Mem.cleaner (m : Mem τ ι α) (seen : ℕ → Bool) (e : Entry ι α) : Bool :=
  seen e.rt && m.txid e.tx == 2

/-- `cleanAndDeque`. -/
def cleanAndDeque (m : Mem τ ι α) (seen : ℕ → Bool) :
    Except String (Option (Entry ι α) × ImpQueue.T (Entry ι α)) :=
  ImpQueue.dequeLazyClean m.readQ (m.cleaner seen)

/-- `enqueAndClean`. -/
def enqueAndClean (m : Mem τ ι α) (seen : ℕ → Bool) (e : Entry ι α) :
    ImpQueue.T (Entry ι α) :=
  ImpQueue.enque (ImpQueue.cleanSuffix m.readQ (m.cleaner seen)) e

/-- One step of a thread.  An operation takes effect, `Act.lin`, when it reads or writes the cell
under the lock; that of a waiter when its `doSwap` is run by the thread that relays. -/
def step (t : τ) (k : Choice ι α) (m : Mem τ ι α) : Pc ι α → Option (Mem τ ι α × Pc ι α)
  | .idle =>
    match k with
    | .start op =>
      some ({ m with next := m.next + 1, trace := .inv m.next op :: m.trace }, .lock m.next op)
    | .pollFn => some (m.pollFn, .idle)
    | .foreign n v =>
      if foreignMove (m.txid (.choice n)) v then some (m.setTx (.choice n) v, .idle) else none
    | .clean _ => none
  | .lock id op =>
    if m.lock = none then some ({ m with lock := some t }, .test id op) else none
  | .test id (.gPut x) =>
    match m.value with
    | none =>
      some ({ m with
          value := some x, prio := 1
          trace := .lin ⟨id, .gPut x, .unit⟩ :: m.trace }, .tryLp id x [])
    | some _ =>
      some ({ m with trace := .lin ⟨id, .gPut x, .raisePut⟩ :: m.trace },
        .unlock id (.ret .raisePut))
  | .test id (.swap via doSwap) =>
    match m.value, via with
    | none, .gSwap => some (m, .enque id doSwap (.own id))
    | none, .gSwapPoll =>
      some ({ m with trace := .lin ⟨id, .swap .gSwapPoll doSwap, .NONE⟩ :: m.trace },
        .unlock id (.ret .NONE))
    | none, .doitFn =>
      some ({ m with trace := .lin ⟨id, .swap .doitFn doSwap, .raiseDoitFail⟩ :: m.trace },
        .unlock id (.ret .raiseDoitFail))
    | none, .blockFn n => some (m, .enque id doSwap (.choice n))
    | some x, .blockFn n => some (m, .matchOwn id doSwap n x)
    | some x, via => some (m, .swap id via doSwap x)
  | .tryLp id msg readyList =>
    match cleanAndDeque m k.seen with
    | .ok (some e, readQ) => some ({ m with readQ := readQ }, .matchLp id msg e readyList)
    | .ok (none, readQ) => some ({ m with readQ := readQ }, .unlock id (.ready readyList))
    | .error _ => none
  | .matchLp id msg e readyList =>
    match m.txid e.tx with
    | 0 => some (m.setTx e.tx 2, .commit id msg e readyList)
    | 1 => some (m, .matchLp id msg e readyList)
    | _ => some (m, .tryLp id msg readyList)
  | .commit id msg e readyList =>
    some ({ m with
        value := e.doSwap.doSwap m.value
        trace := .lin ⟨e.rt, e.op, .msg msg⟩ :: m.trace }, .tryLp id msg ((e.rt, msg) :: readyList))
  | .ready id [] => some (m, .ret id .unit)
  | .ready id (rthrd :: rdyLst) =>
    some ({ m with readied := rthrd :: m.readied }, .ready id rdyLst)
  | .swap id via doSwap x =>
    some ({ m with
        prio := 1, value := doSwap.doSwap m.value
        trace := .lin ⟨id, .swap via doSwap, .msg x⟩ :: m.trace }, .unlock id (.ret (.msg x)))
  | .matchOwn id doSwap n x =>
    match m.txid (.choice n) with
    | 0 =>
      some ({ m.setTx (.choice n) 2 with
          prio := 1
          trace := .lin ⟨id, .swap (.blockFn n) doSwap, .msg x⟩ :: m.trace },
        .unlock id (.ret (.msg x)))
    | 1 => some (m, .matchOwn id doSwap n x)
    | _ => some (m, .unlock id .away)
  | .enque id doSwap tx =>
    some ({ m with readQ := enqueAndClean m k.seen ⟨tx, id, doSwap⟩ }, .unlock id (.park tx))
  | .unlock id after => some ({ m with lock := none }, after.pc id)
  | .parked id _ =>
    match m.readied.lookup id with
    | none => none
    | some x => some (m, .ret id (.msg x))
  | .ret id r => some ({ m with trace := .ret id r :: m.trace }, .idle)
  | .away => none

section Equations

attribute [local simp] step

end Equations

end Step

/-- The threads of one cell. -/
def cellProcess (τ ι α : Type*) [DecidableEq ι] :
    Interleave.Process τ (Choice ι α) (Mem τ ι α) (Pc ι α) where
  step := step

/-- No operation has been started. -/
def Initial {τ ι α : Type*} (value : Option α)
    (c : Interleave.Config τ (Mem τ ι α) (Pc ι α)) : Prop :=
  c.shared = Mem.init value ∧ ∀ t, c.loc t = .idle

/-! ### The sequential specification -/

/-- A one-place buffer: a put fills the empty buffer, and raises when it is full; a swap answers
with what the full buffer holds; a poll and a `doitFn` also notice that it is empty. -/
inductive Buffer {ι α : Type*} : Op ι α → Res α → Option α → Option α → Prop
  | put (x : α) : Buffer (.gPut x) .unit none (some x)
  | full (x v : α) : Buffer (.gPut x) .raisePut (some v) (some v)
  | swap (via : Via ι) (d : Swap α) (v : α) :
      Buffer (.swap via d) (.msg v) (some v) (d.doSwap (some v))
  | empty (d : Swap α) : Buffer (.swap .gSwapPoll d) .NONE none none
  | disabled (d : Swap α) : Buffer (.swap .doitFn d) .raiseDoitFail none none

end MultiMLton.SyncVar
