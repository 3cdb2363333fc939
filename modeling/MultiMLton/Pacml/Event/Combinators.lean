import Mathlib.Data.Int.Notation
import Mathlib.Data.List.Dedup
import Mathlib.Data.Nat.Notation

/-!
# The event combinators of `core-cml/event.sml`

A synchronous event is a tree of base events, and a base event is a poll function that answers with
a `doitFn` when the event is enabled and with a `blockFn` otherwise.  `wrap` and `wrapHandler`
compose the functions that a poll returns with a user function.

* `Action`: computations that consult the outcomes of the races (`Races`), may raise, and log
  what the claims talk about (`Obs`);
* `SEvt`, `wrap`, `wrapHandler`, `choose`, `force`;
* `wrapForDoit`, `syncOnBEvt`, `syncOnBEvts` and `sSync`.

All events carry values of one type.  User functions are pure, except that they may raise user
exceptions; `DOIT_FAIL` is not visible to them, so only a handler that has been given it can raise
it.  `selectDoitFn` is left open among the enabled events.
-/

namespace MultiMLton.Event

/-- Exceptions: the internal ones and those of user functions. -/
inductive Exn (ε : Type)
  | DOIT_FAIL
  | Fail (msg : String)
  | user (e : ε)
  deriving DecidableEq

/-- How a computation ends; `asleep` is a thread that is never resumed or a process that has
exited. -/
inductive Res (ε α : Type)
  | val (a : α)
  | raise (x : Exn ε)
  | asleep

/-- A handler given to `wrapHandler`. -/
structure Handler (ε V : Type) where
  fn : Exn ε → Except (Exn ε) V
  user : ∀ e y, fn (.user e) = .error y → ∃ e', y = .user e'

/-- What is observed of a synchronisation.  `inside` tells whether the base event was run under a
function installed by `wrapHandler`. -/
inductive Obs (ε : Type)
  /-- a base event has committed -/
  | commit
  /-- a `doitFn` of a base event has raised `DOIT_FAIL` -/
  | fail (inside : Bool)
  /-- a `blockFn` of a base event has raised `Fail "Same event"` -/
  | same (inside : Bool)
  /-- a user function has raised an exception -/
  | raised (e : ε)
  /-- a handler is applied -/
  | handle (x : Exn ε)
  /-- `RETRY` -/
  | retry
  deriving DecidableEq

/-- What a base `blockFn` does. -/
inductive Blocked (V : Type)
  | commits (v : V)
  | same
  | asleep

/-- The outcomes of the races, by the number of the query: whether a poll finds the event enabled
and with which priority, whether a `doitFn` commits, what a `blockFn` does, which enabled event
`selectDoitFn` picks, and in which order the parasites of `blockHelper` finish. -/
structure Races (B V : Type) where
  poll : ℕ → B → Option ℤ
  doit : ℕ → B → Option V
  block : ℕ → B → Blocked V
  pick : ℕ → ℕ
  finish : ℕ → List ℕ

/-- The number of queries so far, the number of open functions of `wrapHandler`, whether the
current transaction id is `2`, and the observations, the latest first. -/
structure St (ε : Type) where
  tick : ℕ
  depth : ℕ
  synched : Bool
  trace : List (Obs ε)

/-- The start of a synchronisation. -/
def St.init (ε : Type) : St ε := ⟨0, 0, false, []⟩

def St.log {ε : Type} (s : St ε) (o : Obs ε) : St ε :=
  { s with tick := s.tick + 1, trace := o :: s.trace }

def St.query {ε : Type} (s : St ε) : St ε := { s with tick := s.tick + 1 }

/-- A computation. -/
abbrev Action (B V ε α : Type) := Races B V → St ε → Res ε α × St ε

variable {B V ε α β : Type}

def Action.bind (f : Action B V ε α) (g : α → Action B V ε β) : Action B V ε β := fun w s =>
  match f w s with
  | (.val a, s) => g a w s
  | (.raise x, s) => (.raise x, s)
  | (.asleep, s) => (.asleep, s)

/-- `status`: what a poll returns.  The transaction id that `blockFn` is applied to is the current
one. -/
inductive Status (B V ε : Type)
  | enabled (prio : ℤ) (doitFn : Action B V ε V)
  | blocked (blockFn : Action B V ε V)

/-- `'a base`. -/
abbrev Base (B V ε : Type) := Action B V ε (Status B V ε)

/-! ### Base events -/

/-- `doitFn` of a base event. -/
def doitFn (b : B) : Action B V ε V := fun w s =>
  match w.doit s.tick b with
  | some v => (.val v, s.log .commit)
  | none => (.raise .DOIT_FAIL, s.log (.fail (decide (0 < s.depth))))

/-- `blockFn` of a base event: at most one of those that share a transaction id commits. -/
def blockFn (b : B) : Action B V ε V := fun w s =>
  match w.block s.tick b with
  | .commits v =>
    if s.synched then (.asleep, s.query) else (.val v, { s.log .commit with synched := true })
  | .same => (.raise (.Fail "Same event"), s.log (.same (decide (0 < s.depth))))
  | .asleep => (.asleep, s.query)

/-- `pollFn` of a base event. -/
def pollFn (b : B) : Base B V ε := fun w s =>
  match w.poll s.tick b with
  | some prio => (.val (.enabled prio (doitFn b)), s.query)
  | none => (.val (.blocked (blockFn b)), s.query)

/-! ### Combinators -/

/-- `sevt`. -/
inductive SEvt (B V ε : Type)
  | bevt (bevts : List (Base B V ε))
  | choose (evts : List (SEvt B V ε))
  | guard (g : Unit → SEvt B V ε)

/-- `wrapF` of `wrap`. -/
def wrapF (wfn : V → Except ε V) (f : Action B V ε V) : Action B V ε V := fun w s =>
  match f w s with
  | (.val v, s) =>
    match wfn v with
    | .ok v => (.val v, s)
    | .error e => (.raise (.user e), s.log (.raised e))
  | r => r

/-- `wrapF` of `wrapHandler`. -/
def handleF (hfn : Handler ε V) (f : Action B V ε V) : Action B V ε V := fun w s =>
  match f w { s with depth := s.depth + 1 } with
  | (.raise x, s') =>
    let s' := St.log { s' with depth := s.depth } (.handle x)
    match hfn.fn x with
    | .ok v => (.val v, s')
    | .error (.user e) => (.raise (.user e), s'.log (.raised e))
    | .error y => (.raise y, s')
  | (r, s') => (r, { s' with depth := s.depth })

/-- `wrapBaseEvt` with the composed function given. -/
def wrapBaseEvt (F : Action B V ε V → Action B V ε V) (pollFn : Base B V ε) : Base B V ε :=
  Action.bind pollFn fun st _ s =>
    match st with
    | .enabled prio doitFn => (.val (.enabled prio (F doitFn)), s)
    | .blocked blockFn => (.val (.blocked (F blockFn)), s)

mutual

/-- `wrap'`, of `wrap` and of `wrapHandler`. -/
def wrapWith (F : Action B V ε V → Action B V ε V) : SEvt B V ε → SEvt B V ε
  | .bevt bevts => .bevt (bevts.map (wrapBaseEvt F))
  | .choose evts => .choose (wrapWithList F evts)
  | .guard g => .guard fun u => wrapWith F (g u)

/-- `List.map wrap'`. -/
def wrapWithList (F : Action B V ε V → Action B V ε V) : List (SEvt B V ε) → List (SEvt B V ε)
  | [] => []
  | e :: es => wrapWith F e :: wrapWithList F es

end

/-- `wrap`. -/
def wrap (evt : SEvt B V ε) (wfn : V → Except ε V) : SEvt B V ε := wrapWith (wrapF wfn) evt

/-- `wrapHandler`. -/
def wrapHandler (evt : SEvt B V ε) (hfn : Handler ε V) : SEvt B V ε :=
  wrapWith (handleF hfn) evt

/-- `never`. -/
def never : SEvt B V ε := .bevt []

/-- `gather` of `choose`. -/
def gather : List (SEvt B V ε) → List (SEvt B V ε) → SEvt B V ε
  | [], [evt'] => evt'
  | [], evts' => .choose evts'
  | .choose cevts :: evts, evts' => gather evts (cevts ++ evts')
  | .bevt [] :: evts, evts' => gather evts evts'
  | .bevt bevts :: evts, .bevt bevts' :: evts' => gather evts (.bevt (bevts ++ bevts') :: evts')
  | evt :: evts, evts' => gather evts (evt :: evts')

/-- `gatherBEvts` of `choose`. -/
def gatherBEvts : List (SEvt B V ε) → List (Base B V ε) → SEvt B V ε
  | [], bevts' => .bevt bevts'
  | .bevt bevts :: evts, bevts' => gatherBEvts evts (bevts ++ bevts')
  | evts, [] => gather evts []
  | evts, bevts' => gather evts [.bevt bevts']

/-- `choose`. -/
def choose (evts : List (SEvt B V ε)) : SEvt B V ε := gatherBEvts evts.reverse []

mutual

/-- `forceBL`. -/
def forceBL : List (SEvt B V ε) → List (Base B V ε) → List (Base B V ε)
  | [], bevts => bevts
  | evt :: evts, bevts => forceBL evts (force evt ++ bevts)

/-- `force`. -/
def force : SEvt B V ε → List (Base B V ε)
  | .bevt bevts => bevts
  | .choose evts => forceBL evts []
  | .guard g => force (g ())

end

/-! ### Synchronisation -/

/-- `doit_result` of a synchronous event. -/
inductive DoitResult (V : Type)
  | RETRY
  | SYNC_DONE (v : V)

/-- `wrapForDoit`. -/
def wrapForDoit (doit : Action B V ε V) : Action B V ε (DoitResult V) := fun w s =>
  match doit w s with
  | (.val v, s) => (.val (.SYNC_DONE v), s)
  | (.raise .DOIT_FAIL, s) => (.val .RETRY, s.log .retry)
  | (.raise x, s) => (.raise x, s)
  | (.asleep, s) => (.asleep, s)

/-- `syncOnBEvt`; a run of its loop that has not ended after `fuel` rounds is `asleep`. -/
def syncOnBEvt (pollFn : Base B V ε) : ℕ → Action B V ε V
  | 0 => fun _ s => (.asleep, s)
  | fuel + 1 => Action.bind pollFn fun
    | .enabled _ doitFn => Action.bind (wrapForDoit doitFn) fun
      | .RETRY => syncOnBEvt pollFn fuel
      | .SYNC_DONE v => fun _ s => (.val v, s)
    | .blocked blockFn => fun w s => blockFn w { s with synched := false }

/-- `extRdy`: the `doitFn`s of the enabled events among the remaining ones. -/
def extRdy : List (Base B V ε) → List (Action B V ε V) → Action B V ε (List (Action B V ε V))
  | [], doitFns => fun _ s => (.val doitFns, s)
  | pollFn :: bevts, doitFns => Action.bind pollFn fun
    | .enabled _ doitFn => extRdy bevts (doitFn :: doitFns)
    | .blocked _ => extRdy bevts doitFns

/-- `ext`: the `doitFn`s of the enabled events, or all `blockFn`s. -/
def ext : List (Base B V ε) → List (Action B V ε V) →
    Action B V ε (List (Action B V ε V) ⊕ List (Action B V ε V))
  | [], blockFns => fun _ s => (.val (.inr blockFns), s)
  | pollFn :: bevts, blockFns => Action.bind pollFn fun
    | .enabled _ doitFn =>
      Action.bind (extRdy bevts [doitFn]) fun doitFns _ s => (.val (.inl doitFns), s)
    | .blocked blockFn => ext bevts (blockFn :: blockFns)

/-- `doSomeDoit` with `n` of the `doitFn`s left: the value of the first one that commits, `none`
when none does. -/
def doSomeDoit : ℕ → List (Action B V ε V) → Action B V ε (Option V)
  | 0, _ => fun _ s => (.val none, s)
  | n + 1, doitFns => fun w s =>
    let i := w.pick s.tick % doitFns.length
    match doitFns[i]? with
    | none => (.val none, s)
    | some doitFn =>
      Action.bind (wrapForDoit doitFn) (fun
        | .RETRY => doSomeDoit n (doitFns.eraseIdx i)
        | .SYNC_DONE v => fun _ s => (.val (some v), s)) w s.query

/-- The parasites of `blockHelper` in the order in which they finish, `t` being what the
synchronising thread has been readied with: an exception ends the process. -/
def blockLoop (blockFns : List (Action B V ε V)) : Option V → List ℕ → Action B V ε V
  | none, [] => fun _ s => (.asleep, s)
  | some v, [] => fun _ s => (.val v, s)
  | t, i :: is => fun w s =>
    match blockFns[i]? with
    | none => blockLoop blockFns t is w s
    | some blockFn =>
      match blockFn w s with
      | (.val v, s) => blockLoop blockFns (some (t.getD v)) is w s
      | (.raise _, s) => (.asleep, s)
      | (.asleep, s) => blockLoop blockFns t is w s

/-- `blockHelper`, with its new transaction id. -/
def blockHelper (blockFns : List (Action B V ε V)) : Action B V ε V := fun w s =>
  blockLoop blockFns none (w.finish s.tick).dedup w { s.query with synched := false }

/-- `syncOnBEvts`. -/
def syncOnBEvts (bevts : List (Base B V ε)) : ℕ → Action B V ε V
  | 0 => fun _ s => (.asleep, s)
  | fuel + 1 =>
    match bevts with
    | [] => fun _ s => (.asleep, s)
    | [bevt] => syncOnBEvt bevt (fuel + 1)
    | bevts => Action.bind (ext bevts []) fun
      | .inl doitFns => Action.bind (doSomeDoit doitFns.length doitFns) fun
        | none => syncOnBEvts bevts fuel
        | some v => fun _ s => (.val v, s)
      | .inr blockFns => blockHelper blockFns

/-- `sSync`. -/
def sSync (evt : SEvt B V ε) (fuel : ℕ) : Action B V ε V := syncOnBEvts (force evt) fuel

end MultiMLton.Event
