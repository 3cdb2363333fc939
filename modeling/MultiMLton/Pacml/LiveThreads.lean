import Mathlib.Tactic
import Mathlib.Data.PNat.Basic

/-!
# Live-thread accounting

`Config.numLiveThreads` is meant to count the host threads on compute processors that have been
created and have not exited; the last of them to exit shuts the system down.  The counter is
changed by `readyForSpawn`, the spawning functions, `createHost`, `generalExit` and, through
`readyForSpawn`, by every reification of a parasite and by the cleaner of the timeout queue.

* `World` and the functions of `config.sml`, `thread.sml`, `scheduler.sml` and `timeout.sml` that
  touch the counter, each one step;
* `Act`, `step`, `run`: the operations of a run;
* `Accurate`: the counter is the number of live compute hosts, and `accurate_step_iff`, which
  steps keep it so (`Counts`);
* `numLiveThreads_accurate_iff`: a run is accurate throughout exactly when all its steps are of
  that kind; the others are the readying of an already counted host by the timeout cleaner, and
  the exit or the `createHost` of a thread on an I/O processor.

`N` is `PacmlFFI.numComputeProcessors`; the processors from `N` on do I/O.  The scheduler's queues
play no part, and the order of the timeout queue by time is left open.
-/

namespace MultiMLton.LiveThreads

/-- A host thread: its thread id, and the processor it belongs to. -/
structure Host where
  id : ℕ
  processorId : ℕ
  deriving DecidableEq, Repr

/-- A thread in the timeout queue.  A host waits under the transaction id of its own
`syncOnBEvt`, which nobody else has; a parasite may share its transaction id with the other events
of a choice. -/
inductive Waiter
  | host (h : Host)
  | parasite (lockId : ℕ) (txid : ℕ)
  deriving DecidableEq, Repr

/-- The counter, the next thread id, the live hosts and the lock ids of the parasites that do not
wait for a timeout, those that do, and the transaction ids. -/
structure World where
  numLiveThreads : ℤ
  tidCounter : ℕ
  hosts : List Host
  parasites : List ℕ
  timeQ : List Waiter
  txid : ℕ → ℤ

/-- After `reset`: nothing is counted and nobody runs. -/
def start : World := ⟨0, 0, [], [], [], fun _ => 0⟩

/-- `proc_spec`. -/
inductive ProcSpec
  | anyProc
  | onProc (n : ℕ)
  deriving DecidableEq, Repr

/-- The three spawning functions; the runtime's controls say which one `spawn` is. -/
inductive Helper
  | eager
  | plain
  | lazy
  deriving DecidableEq, Repr

/-! ### The code -/

variable (N : ℕ+)

/-- `Config.incrementNumLiveThreads`. -/
def incrementNumLiveThreads (w : World) : World :=
  { w with numLiveThreads := w.numLiveThreads + 1 }

/-- `Config.decrementNumLiveThreads`: whether the counter was `1`. -/
def decrementNumLiveThreads (w : World) : World × Bool :=
  ({ w with numLiveThreads := w.numLiveThreads - 1 }, w.numLiveThreads == 1)

/-- A host thread comes into being. -/
def addHost (w : World) (h : Host) : World := { w with hosts := h :: w.hosts }

/-- `TID.new` and `TID.newOnProc`. -/
def newTid (w : World) : ProcSpec → World × Host
  | .anyProc => ({ w with tidCounter := w.tidCounter + 1 }, ⟨w.tidCounter, w.tidCounter % N⟩)
  | .onProc p => ({ w with tidCounter := w.tidCounter + 1 }, ⟨w.tidCounter, p⟩)

/-- `TID.newWithTid`. -/
def newWithTid (n : ℕ) : Host := ⟨n, n % N⟩

/-- `S.readyForSpawn`. -/
def readyForSpawn (w : World) : World := incrementNumLiveThreads w

/-- The correction for I/O processors at the end of the spawning functions. -/
def correctForIoProc (w : World) : ProcSpec → World
  | .anyProc => w
  | .onProc n => if (n : ℤ) > (N : ℕ) - 1 then (decrementNumLiveThreads w).1 else w

/-- `spawnHostHelperEager` and `spawnHostHelper`. -/
def spawnHostHelper (w : World) (ps : ProcSpec) : World :=
  let r := newTid N w ps
  correctForIoProc N (readyForSpawn (addHost r.1 r.2)) ps

/-- `spawnHostHelperLazy` on processor `cur`: a thread for another processor is counted here and
readied there. -/
def spawnHostHelperLazy (cur : ℕ) (w : World) (ps : ProcSpec) : World :=
  let r := newTid N w ps
  let w' := addHost r.1 r.2
  correctForIoProc N
    (if r.2.processorId ≠ cur then incrementNumLiveThreads w' else readyForSpawn w') ps

/-- `createHost` on processor `cur`. -/
def createHost (cur : ℕ) (w : World) : World :=
  let r := newTid N w (.onProc cur)
  incrementNumLiveThreads (addHost r.1 r.2)

/-- `reifyHostFromParasite`. -/
def reifyHostFromParasite (w : World) (lockId : ℕ) : World := addHost w (newWithTid N lockId)

/-- `inflateAndReady` of the timeout queue's `cleaner`. -/
def inflateAndReady (w : World) : Waiter → World
  | .parasite lockId _ => readyForSpawn (reifyHostFromParasite N w lockId)
  | .host h => readyForSpawn { w with hosts := h :: w.hosts }

/-- `cleaner` on an element whose time has come: `none` while its transaction id is claimed. -/
def cleaner (w : World) (i : ℕ) : Option World :=
  match w.timeQ[i]? with
  | none => none
  | some (.host h) => some (inflateAndReady N { w with timeQ := w.timeQ.eraseIdx i } (.host h))
  | some (.parasite lockId x) =>
    if w.txid x = 0 then
      some (inflateAndReady N
        { w with timeQ := w.timeQ.eraseIdx i, txid := Function.update w.txid x 2 }
        (.parasite lockId x))
    else if w.txid x = 1 then none
    else some { w with timeQ := w.timeQ.eraseIdx i }

/-- `generalExit`, and whether it takes the shutdown branch. -/
def generalExit (w : World) (h : Host) : World × Bool :=
  decrementNumLiveThreads { w with hosts := w.hosts.erase h }

/-! ### Runs -/

/-- The operations of a run.  `spawn` and `createHost` name the processor they run on;
`reify` stands for `reifyCurrent` and for the reification of a preempted parasite. -/
inductive Act
  | spawn (helper : Helper) (ps : ProcSpec) (cur : ℕ)
  | createHost (cur : ℕ)
  | spawnParasite
  | endParasite (lockId : ℕ)
  | reify (lockId : ℕ)
  | hostTimeWait (h : Host)
  | parasiteTimeWait (lockId txid : ℕ)
  | setTxid (txid : ℕ) (v : ℤ)
  | cleaner (i : ℕ)
  | generalExit (h : Host)
  deriving DecidableEq

/-- One operation; `none` when no such thread is there to perform it. -/
def step (w : World) : Act → Option World
  | .spawn .eager ps _ | .spawn .plain ps _ => some (spawnHostHelper N w ps)
  | .spawn .lazy ps cur => some (spawnHostHelperLazy N cur w ps)
  | .createHost cur => some (createHost N cur w)
  | .spawnParasite =>
    some { w with tidCounter := w.tidCounter + 1, parasites := w.tidCounter :: w.parasites }
  | .endParasite lockId =>
    if lockId ∈ w.parasites then some { w with parasites := w.parasites.erase lockId } else none
  | .reify lockId =>
    if lockId ∈ w.parasites then
      some (readyForSpawn
        (reifyHostFromParasite N { w with parasites := w.parasites.erase lockId } lockId))
    else none
  | .hostTimeWait h =>
    if h ∈ w.hosts then
      some { w with hosts := w.hosts.erase h, timeQ := .host h :: w.timeQ }
    else none
  | .parasiteTimeWait lockId x =>
    if lockId ∈ w.parasites then
      some { w with
        parasites := w.parasites.erase lockId, timeQ := .parasite lockId x :: w.timeQ }
    else none
  | .setTxid x v => some { w with txid := Function.update w.txid x v }
  | .cleaner i => cleaner N w i
  | .generalExit h => if h ∈ w.hosts then some (generalExit w h).1 else none

/-- A run. -/
def run : List Act → World → Option World
  | [], w => some w
  | a :: as, w => (step N w a).bind (run as)

/-! ### The accounting -/

/-- The thread belongs to a compute processor. -/
def Host.compute (h : Host) : Bool := decide (h.processorId < (N : ℕ))

/-- The waiting thread is a host on a compute processor. -/
def Waiter.compute : Waiter → Bool
  | .host h => h.compute N
  | .parasite _ _ => false

/-- The number of host threads on compute processors that have been created and have not executed
`generalExit`. -/
def liveHosts (w : World) : ℕ :=
  w.hosts.countP (Host.compute N) + w.timeQ.countP (Waiter.compute N)

/-- The counter is right. -/
def Accurate (w : World) : Prop := w.numLiveThreads = liveHosts N w

/-- The operation changes the counter as it changes the number of live compute hosts: it is not
the readying of an already counted host by the timeout cleaner, and not the exit or the
`createHost` of a thread on an I/O processor. -/
def Counts (w : World) : Act → Prop
  | .createHost cur => cur < (N : ℕ)
  | .generalExit h => h.compute N
  | .cleaner i => ∀ h, w.timeQ[i]? ≠ some (.host h)
  | _ => True

@[simp] theorem newWithTid_compute (n : ℕ) : (newWithTid N n).compute N = true := by
  simp [newWithTid, Host.compute, Nat.mod_lt _ N.pos]

/-- The counter less the number of live compute hosts. -/
def excess (w : World) : ℤ := w.numLiveThreads - liveHosts N w

/-- How far an operation moves the counter away from the number of live compute hosts. -/
def drift (w : World) : Act → ℤ
  | .createHost cur => if cur < (N : ℕ) then 0 else 1
  | .generalExit h => if h.compute N then 0 else -1
  | .cleaner i =>
    match w.timeQ[i]? with
    | some (.host _) => 1
    | _ => 0
  | _ => 0

variable {N}

theorem accurate_iff {w : World} : Accurate N w ↔ excess N w = 0 := by
  simp [Accurate, excess, sub_eq_zero]

theorem counts_iff {w : World} {a : Act} : Counts N w a ↔ drift N w a = 0 := by
  cases a
  case createHost | generalExit => simp [Counts, drift]
  case cleaner i =>
    rcases h : w.timeQ[i]? with _ | _ | _ <;> simp [Counts, drift, h]
  all_goals simp [Counts, drift]

theorem liveHosts_addHost (w : World) (h : Host) :
    liveHosts N (addHost w h) = liveHosts N w + if h.compute N then 1 else 0 := by
  simp only [liveHosts, addHost, List.countP_cons]
  omega

@[simp] theorem excess_readyForSpawn (w : World) :
    excess N (readyForSpawn w) = excess N w + 1 := by
  simp [excess, readyForSpawn, incrementNumLiveThreads, liveHosts]
  ring

@[simp] theorem excess_incrementNumLiveThreads (w : World) :
    excess N (incrementNumLiveThreads w) = excess N w + 1 := excess_readyForSpawn w

@[simp] theorem excess_decrementNumLiveThreads (w : World) :
    excess N (decrementNumLiveThreads w).1 = excess N w - 1 := by
  simp [excess, decrementNumLiveThreads, liveHosts]
  ring

@[simp] theorem excess_addHost (w : World) (h : Host) :
    excess N (addHost w h) = excess N w - if h.compute N then 1 else 0 := by
  have hnum : (addHost w h).numLiveThreads = w.numLiveThreads := rfl
  rw [excess, liveHosts_addHost, hnum, excess]
  split_ifs <;> push_cast <;> ring

/-- The thread that `newTid` makes belongs to a compute processor. -/
def ProcSpec.compute (N : ℕ+) : ProcSpec → Bool
  | .anyProc => true
  | .onProc n => decide (n < (N : ℕ))

theorem newTid_compute (w : World) (ps : ProcSpec) :
    (newTid N w ps).2.compute N = ps.compute N := by
  cases ps with
  | anyProc => simp [newTid, Host.compute, ProcSpec.compute, Nat.mod_lt _ N.pos]
  | onProc n => rfl

theorem excess_newTid (w : World) (ps : ProcSpec) : excess N (newTid N w ps).1 = excess N w := by
  cases ps <;> rfl

/-- The correction takes back the count of a thread on an I/O processor. -/
theorem excess_correctForIoProc (w : World) (ps : ProcSpec) :
    excess N (correctForIoProc N w ps) = excess N w - if ps.compute N then 0 else 1 := by
  cases ps with
  | anyProc => simp [correctForIoProc, ProcSpec.compute]
  | onProc n =>
    by_cases hn : n < (N : ℕ)
    · simp [correctForIoProc, ProcSpec.compute, hn, show ¬ (n : ℤ) > (N : ℕ) - 1 by omega]
    · simp [correctForIoProc, ProcSpec.compute, hn, show (n : ℤ) > (N : ℕ) - 1 by omega]

theorem excess_spawnHostHelper (w : World) (ps : ProcSpec) :
    excess N (spawnHostHelper N w ps) = excess N w := by
  simp only [spawnHostHelper, excess_correctForIoProc, excess_readyForSpawn, excess_addHost,
    excess_newTid, newTid_compute]
  split_ifs <;> ring

theorem excess_spawnHostHelperLazy (cur : ℕ) (w : World) (ps : ProcSpec) :
    excess N (spawnHostHelperLazy N cur w ps) = excess N w := by
  simp only [spawnHostHelperLazy, excess_correctForIoProc, apply_ite (excess N),
    excess_incrementNumLiveThreads, excess_readyForSpawn, excess_addHost, excess_newTid,
    newTid_compute]
  split_ifs <;> ring

theorem excess_createHost (cur : ℕ) (w : World) :
    excess N (createHost N cur w) = excess N w + if cur < (N : ℕ) then 0 else 1 := by
  simp only [createHost, excess_incrementNumLiveThreads, excess_addHost, excess_newTid,
    newTid_compute, ProcSpec.compute, decide_eq_true_eq]
  split_ifs <;> ring

/-- A reified parasite is a new host on a compute processor, and is counted. -/
theorem excess_reify (w : World) (lockId : ℕ) :
    excess N (readyForSpawn (reifyHostFromParasite N w lockId)) = excess N w := by
  simp [reifyHostFromParasite]

theorem liveHosts_erase {w : World} {h : Host} (hh : h ∈ w.hosts) :
    liveHosts N { w with hosts := w.hosts.erase h } + (if h.compute N then 1 else 0) =
      liveHosts N w := by
  simp only [liveHosts, (List.perm_cons_erase hh).countP_eq, List.countP_cons]
  omega

theorem excess_generalExit {w : World} {h : Host} (hh : h ∈ w.hosts) :
    excess N (generalExit w h).1 = excess N w + if h.compute N then 0 else -1 := by
  have := liveHosts_erase (N := N) hh
  simp only [generalExit, excess_decrementNumLiveThreads]
  simp only [excess]
  split_ifs at this ⊢ <;> omega

theorem countP_eraseIdx_add {β : Type*} {l : List β} {i : ℕ} {b : β} (hb : l[i]? = some b)
    (p : β → Bool) : (l.eraseIdx i).countP p + (if p b then 1 else 0) = l.countP p := by
  obtain ⟨hi, rfl⟩ := List.getElem?_eq_some_iff.1 hb
  rw [← (List.getElem_cons_eraseIdx_perm hi).countP_eq, List.countP_cons]

/-- A parasite in the timeout queue is not counted. -/
theorem excess_eraseIdx_parasite {w : World} {i lockId x : ℕ}
    (hw : w.timeQ[i]? = some (.parasite lockId x)) (f : ℕ → ℤ) :
    excess N { w with timeQ := w.timeQ.eraseIdx i, txid := f } = excess N w := by
  have := countP_eraseIdx_add hw (Waiter.compute N)
  simp [Waiter.compute] at this
  simp [excess, liveHosts, this]

/-- The cleaner counts the thread it readies, which was counted before if it is a host. -/
theorem excess_cleaner {w w' : World} {i : ℕ} (hs : cleaner N w i = some w') :
    excess N w' = excess N w + drift N w (.cleaner i) := by
  rcases hw : w.timeQ[i]? with _ | ⟨h | ⟨lockId, x⟩⟩
  · simp [cleaner, hw] at hs
  · obtain rfl : _ = w' := by simpa [cleaner, hw] using hs
    have hcount := countP_eraseIdx_add hw (Waiter.compute N)
    simp only [Waiter.compute] at hcount
    simp only [inflateAndReady, excess_readyForSpawn, drift, hw]
    by_cases hc : h.compute N
    all_goals
      simp only [hc, ite_true, ite_false, Bool.false_eq_true] at hcount
      simp only [excess, liveHosts, List.countP_cons, hc]
      simp
      omega
  · simp only [cleaner, hw] at hs
    split_ifs at hs
    · cases hs
      simp only [inflateAndReady, excess_reify, excess_eraseIdx_parasite hw, drift, hw, add_zero]
    · cases hs
      simp [excess_eraseIdx_parasite hw w.txid, drift, hw]

/-- The counter and the live compute hosts part only by the drift of the operation. -/
theorem excess_step {w w' : World} {a : Act} (hs : step N w a = some w') :
    excess N w' = excess N w + drift N w a := by
  cases a
  case spawn helper ps cur =>
    cases helper <;> cases hs
    · simp [drift, excess_spawnHostHelper]
    · simp [drift, excess_spawnHostHelper]
    · simp [drift, excess_spawnHostHelperLazy]
  case createHost cur =>
    cases hs
    exact excess_createHost cur w
  case reify lockId =>
    obtain ⟨-, rfl⟩ : lockId ∈ w.parasites ∧ _ = w' := by simpa [step] using hs
    rw [excess_reify]
    simp [drift, excess, liveHosts]
  case hostTimeWait h =>
    obtain ⟨hh, rfl⟩ : h ∈ w.hosts ∧ _ = w' := by simpa [step] using hs
    have herase := liveHosts_erase (N := N) hh
    simp only [liveHosts] at herase
    by_cases hc : h.compute N
    all_goals
      simp only [hc, ite_true, ite_false, Bool.false_eq_true] at herase
      simp only [drift, excess, liveHosts, List.countP_cons, Waiter.compute, hc]
      simp
      omega
  case generalExit h =>
    obtain ⟨hh, rfl⟩ : h ∈ w.hosts ∧ (generalExit w h).1 = w' := by simpa [step] using hs
    exact excess_generalExit hh
  case cleaner i => exact excess_cleaner hs
  case endParasite lockId =>
    obtain ⟨-, rfl⟩ : lockId ∈ w.parasites ∧ _ = w' := by simpa [step] using hs
    simp [drift, excess, liveHosts]
  case parasiteTimeWait lockId x =>
    obtain ⟨-, rfl⟩ : lockId ∈ w.parasites ∧ _ = w' := by simpa [step] using hs
    simp [drift, excess, liveHosts, Waiter.compute]
  case spawnParasite | setTxid =>
    cases hs
    simp [drift, excess, liveHosts]

/-- An operation keeps a right counter right exactly if it counts. -/
theorem accurate_step_iff {w w' : World} {a : Act} (hw : Accurate N w)
    (hs : step N w a = some w') : Accurate N w' ↔ Counts N w a := by
  rw [accurate_iff, excess_step hs, accurate_iff.1 hw, zero_add, counts_iff]

/-- While the counter is right, the shutdown branch is taken by the last live compute host. -/
theorem generalExit_shutdown_iff {w : World} {h : Host} (hw : Accurate N w) (hh : h ∈ w.hosts)
    (hc : h.compute N) : (generalExit w h).2 = true ↔ liveHosts N (generalExit w h).1 = 0 := by
  have := liveHosts_erase (N := N) hh
  rw [if_pos hc] at this
  have hlive : liveHosts N (generalExit w h).1 = liveHosts N { w with hosts := w.hosts.erase h } :=
    rfl
  rw [hlive]
  have hnum : w.numLiveThreads = liveHosts N w := hw
  simp only [generalExit, decrementNumLiveThreads, beq_iff_eq]
  constructor <;> intro <;> omega

theorem run_append (as bs : List Act) (w : World) :
    run N (as ++ bs) w = (run N as w).bind (run N bs) := by
  induction as generalizing w with
  | nil => rfl
  | cons a as ih =>
    cases hs : step N w a with
    | none => simp [run, hs]
    | some w' => simp [run, hs, ih]

/-- **`numLiveThreads` is the number of live compute hosts**, in every state of a run, and the
shutdown branch of `generalExit` is taken exactly by the last of them, if and only if every
operation of the run counts: no host is readied by the timeout cleaner, and no thread on an I/O
processor exits or creates a host. -/
theorem numLiveThreads_accurate_iff (N : ℕ+) (as : List Act) :
    (∀ p w, p <+: as → run N p start = some w → Accurate N w ∧
        ∀ h ∈ w.hosts, p ++ [.generalExit h] <+: as →
          ((generalExit w h).2 = true ↔ liveHosts N (generalExit w h).1 = 0)) ↔
      ∀ p a w w', p ++ [a] <+: as → run N p start = some w → step N w a = some w' →
        Counts N w a := by
  constructor
  · intro h p a w w' hp hw hs
    have hrun : run N (p ++ [a]) start = some w' := by simp [run_append, hw, run, hs]
    have hacc := (h p w ((List.prefix_append p [a]).trans hp) hw).1
    exact (accurate_step_iff hacc hs).1 (h _ w' hp hrun).1
  · intro h
    have hacc : ∀ p w, p <+: as → run N p start = some w → Accurate N w := by
      intro p
      induction p using List.reverseRecOn with
      | nil => rintro w - hw; cases hw; rfl
      | append_singleton p a ih =>
        intro w' hp hw'
        rw [run_append] at hw'
        obtain ⟨w, hw, hlast⟩ := Option.bind_eq_some_iff.1 hw'
        obtain ⟨w'', hs, hend⟩ := Option.bind_eq_some_iff.1 hlast
        cases hend
        have hpw := ih w ((List.prefix_append p [a]).trans hp) hw
        exact (accurate_step_iff hpw hs).2 (h p a w _ hp hw hs)
    intro p w hp hw
    refine ⟨hacc p w hp hw, fun x hx hpx => ?_⟩
    have hs : step N w (.generalExit x) = some (generalExit w x).1 := by simp [step, hx]
    exact generalExit_shutdown_iff (hacc p w hp hw) hx (h p _ w _ hpx hw hs)

/-- The main thread waits for a timeout: the cleaner counts it again, and its exit does not shut
the system down though nobody is left. -/
theorem cleaner_counts_host_twice :
    let main : Host := ⟨0, 0⟩
    ∃ w, run 1 [.spawn .eager .anyProc 0, .hostTimeWait main, .cleaner 0] start = some w ∧
      w.numLiveThreads = 2 ∧ liveHosts 1 w = 1 ∧
      (generalExit w main).2 = false ∧ liveHosts 1 (generalExit w main).1 = 0 := by
  refine ⟨_, rfl, rfl, rfl, rfl, rfl⟩

end MultiMLton.LiveThreads
