import Mathlib.Tactic
import MultiMLton.Pacml.Channel.Code

/-!
# Locks and atomic sections of the channel operations

Every operation is run against arbitrary memories: the shared memory is given anew at each step,
so a run covers every state of the channel and every outcome of the races.  A `Meter` counts the
atomic nesting of the running thread and how often the operation has taken and released the
channel's lock.

* `charge`: what a program point does to the meter; `meterAt`: the reading at each program point,
  and `exec_meter`, that every run shows it;
* `Balanced`: the lock is released exactly once when the operation returns, switches away or raises
  `DOIT_FAIL`, and a returning operation leaves the atomic section;
* `channelOp_balanced_iff`: a run is balanced throughout exactly when no poll of it finds nobody
  waiting, since `sendPoll` and `recvPoll` then return with the lock held inside the atomic section.
-/

namespace MultiMLton.Channel

variable {κ ι θ φ α : Type*}

/-- The atomic nesting of the running thread, and the acquisitions and releases of the channel's
lock by the operation. -/
@[ext] structure Meter where
  atomic : ℤ
  acquired : ℕ
  released : ℕ
  deriving DecidableEq

/-- The effect of leaving a program point.  `S.atomicReady` ends the atomic section and `S.ready`
first begins one; a thread that has switched away resumes with the section ended. -/
def charge (op : Op κ α) : Pc ι θ α → Meter → Meter
  | .begin, c | .resumed _, c => { c with atomic := c.atomic + 1 }
  | .getLock, c => { c with acquired := c.acquired + 1 }
  | .wonRelease _, c | .lostRelease, c | .parkRelease, c | .failRelease, c =>
    { c with released := c.released + 1 }
  | .ready _, c => if op.mode = .block then c else { c with atomic := c.atomic - 1 }
  | .reify _, c | .reifyResumed _, c | .parked, c => { c with atomic := c.atomic - 1 }
  | _, c => c

/-- The meter of a thread outside atomic sections that calls the operation; `doitFn` and `blockFn`
run inside the section that the synchronisation has begun. -/
def Op.startMeter (op : Op κ α) : Meter :=
  match op.mode with
  | .call | .poll => ⟨0, 0, 0⟩
  | .doit | .block => ⟨1, 0, 0⟩

/-- The reading of the meter at each program point. -/
def meterAt (op : Op κ α) : Pc ι θ α → Meter
  | .begin => ⟨0, 0, 0⟩
  | .getLock => ⟨1, 0, 0⟩
  | .ready _ => if op.mode = .block then ⟨0, 1, 1⟩ else ⟨1, 1, 1⟩
  | .reify _ | .away | .parked | .reifyResumed _ | .done .doitFail => ⟨1, 1, 1⟩
  | .resumed _ | .done (.ret _) => ⟨0, 1, 1⟩
  | _ => ⟨1, 1, 0⟩

theorem startMeter_eq (op : Op κ α) : op.startMeter = meterAt op (op.start : Pc ι θ α) := by
  rcases op with ⟨c, o, _ | _ | _ | _⟩ <;> rfl

theorem meterAt_afterDeque [DecidableEq ι] (op : Op κ α) (own : ι) (e : Option (Entry ι θ α)) :
    meterAt op (afterDeque op own e) = ⟨1, 1, 0⟩ := by
  rcases op with ⟨c, o, _ | _ | _ | _⟩ <;> cases e <;> simp [afterDeque, meterAt]
  split_ifs <;> rfl

/-- At its ends an operation has released the lock once, and has left the atomic section if it
returns. -/
def Balanced (s : Pc ι θ α × Meter) : Prop :=
  match s.1 with
  | .away | .parked | .done .doitFail => s.2.acquired = 1 ∧ s.2.released = 1
  | .done (.ret _) | .done .refused => s.2.acquired = 1 ∧ s.2.released = 1 ∧ s.2.atomic = 0
  | _ => True

/-- Nobody waits on the other side: every element there is `SYNCHED`. -/
def NobodyWaits (op : Op κ α) (m : Mem κ ι θ φ α) : Prop :=
  ∀ e ∈ (m.chan op.chan).queue op.theirs, m.txid e.txid = 2

/-- At the reading of its program point an operation is balanced, unless a poll has been
refused. -/
theorem balanced_meterAt_iff (op : Op κ α) (pc : Pc ι θ α) :
    Balanced (pc, meterAt op pc) ↔ pc ≠ .done .refused := by
  cases pc
  case done r => cases r <;> simp [Balanced, meterAt]
  all_goals simp [Balanced, meterAt]

theorem afterDeque_eq_refused_iff [DecidableEq ι] {op : Op κ α} {own : ι}
    {e : Option (Entry ι θ α)} : afterDeque op own e = .done .refused ↔ op.mode = .poll ∧ e = none := by
  rcases op with ⟨c, o, _ | _ | _ | _⟩ <;> cases e <;> simp [afterDeque]
  split_ifs <;> simp

theorem cleanAndDeque_eq_none_iff {m : Mem κ ι θ φ α} {q : List (Entry ι θ α)} :
    (cleanAndDeque m q).1 = none ↔ ∀ e ∈ q, m.txid e.txid = 2 := by
  simp [cleanAndDeque, List.head?_eq_none_iff, List.dropWhile_eq_nil_iff, Mem.cleaner]

variable [DecidableEq κ] [DecidableEq ι] [DecidableEq θ] [DecidableEq φ] [DecidableEq α]

/-- A step moves the meter from the reading at its program point to the reading at the next. -/
theorem charge_step {self : φ} {me : θ} {own : ι} {op : Op κ α} {m m' : Mem κ ι θ φ α}
    {pc pc' : Pc ι θ α} (hf : Fits op pc) (h : step self me own op m pc = some (m', pc')) :
    charge op pc (meterAt op pc) = meterAt op pc' := by
  cases pc
  case tryLp =>
    cases h
    rw [meterAt_afterDeque]
    rfl
  case getLock | wonRelease | lostRelease | parkRelease | parked | failRelease =>
    obtain ⟨_, _, he⟩ := Option.map_eq_some_iff.1 h
    cases he
    by_cases hb : op.mode = .block <;> simp [charge, meterAt, hb]
  case matchLp =>
    by_cases hb : op.mode = .block
    · obtain ⟨-, rfl⟩ : _ ∧ _ = pc' := by simpa [step, hb] using h
      split_ifs <;> rfl
    · obtain ⟨-, rfl⟩ : _ ∧ _ = pc' := by simpa [step, hb] using h
      split_ifs <;> rfl
  case unclaim e =>
    cases h
    cases e <;> rfl
  case reify e =>
    cases h
    have hb : op.mode = .block := hf
    simp [charge, meterAt, hb]
  case ready e =>
    cases h
    by_cases hb : op.mode = .block <;> simp [charge, meterAt, hb]
  case away | done => simp [step] at h
  all_goals
    cases h
    first | rfl | (split_ifs <;> rfl)

/-! ### Runs against arbitrary memories -/

/-- Run the operation, each step on the memory it finds. -/
def exec (self : φ) (me : θ) (own : ι) (op : Op κ α) :
    List (Mem κ ι θ φ α) → Pc ι θ α × Meter → Option (Pc ι θ α × Meter)
  | [], s => some s
  | m :: ms, s =>
    (step self me own op m s.1).bind fun r =>
      exec self me own op ms (r.2, charge op s.1 s.2)

/-- The start of a call. -/
def Op.init (op : Op κ α) : Pc ι θ α × Meter := (op.start, op.startMeter)

variable {self : φ} {me : θ} {own : ι} {op : Op κ α}

theorem exec_append (ms ms' : List (Mem κ ι θ φ α)) (s : Pc ι θ α × Meter) :
    exec self me own op (ms ++ ms') s =
      (exec self me own op ms s).bind (exec self me own op ms') := by
  induction ms generalizing s with
  | nil => rfl
  | cons m ms ih =>
    cases hm : step self me own op m s.1 with
    | none => simp [exec, hm]
    | some r => simp [exec, hm, ih]

/-- Every run shows the reading of the meter at the program point it is at. -/
theorem exec_meter {ms : List (Mem κ ι θ φ α)} {s s' : Pc ι θ α × Meter} (hf : Fits op s.1)
    (hs : s.2 = meterAt op s.1) (h : exec self me own op ms s = some s') :
    Fits op s'.1 ∧ s'.2 = meterAt op s'.1 := by
  induction ms generalizing s with
  | nil => cases h; exact ⟨hf, hs⟩
  | cons m ms ih =>
    obtain ⟨⟨m', pc'⟩, hstep, hrest⟩ := Option.bind_eq_some_iff.1 h
    refine ih (fits_step hf hstep) ?_ hrest
    rw [hs]
    exact charge_step hf hstep

theorem exec_init_meter {ms : List (Mem κ ι θ φ α)} {s : Pc ι θ α × Meter}
    (h : exec self me own op ms op.init = some s) : s.2 = meterAt op s.1 :=
  (exec_meter (fits_start op) (startMeter_eq op) h).2

/-- A poll is refused by the step of `tryLp` that finds nobody waiting, and by no other. -/
theorem step_refused_iff {m m' : Mem κ ι θ φ α} {pc pc' : Pc ι θ α}
    (h : step self me own op m pc = some (m', pc')) :
    pc' = .done .refused ↔ pc = .tryLp ∧ op.mode = .poll ∧ NobodyWaits op m := by
  cases pc
  case tryLp =>
    cases h
    simp [afterDeque_eq_refused_iff, cleanAndDeque_eq_none_iff, NobodyWaits]
  case getLock | wonRelease | lostRelease | parkRelease | parked | failRelease =>
    obtain ⟨_, _, he⟩ := Option.map_eq_some_iff.1 h
    cases he
    first | (simp; done) | (split_ifs <;> simp)
  case matchLp e =>
    by_cases hb : op.mode = .block
    · obtain ⟨-, rfl⟩ : _ ∧ _ = pc' := by simpa [step, hb] using h
      split_ifs <;> simp
    · obtain ⟨-, rfl⟩ : _ ∧ _ = pc' := by simpa [step, hb] using h
      split_ifs <;> simp
  case unclaim e =>
    cases h
    cases e <;> simp
  case away | done => simp [step] at h
  all_goals
    cases h
    first | (simp; done) | (split_ifs <;> simp)

/-- **A channel operation is lock- and atomicity-balanced on every path exactly when no poll of it
finds nobody waiting**: for every operation, every state of the memory at each of its steps and
every outcome of the races, all ends of a run are balanced if and only if no step of `sendPoll` or
`recvPoll` at `tryLp` finds only `SYNCHED` elements on the other side. -/
theorem channelOp_balanced_iff (self : φ) (me : θ) (own : ι) (op : Op κ α)
    (ms : List (Mem κ ι θ φ α)) :
    (∀ p s, p <+: ms → exec self me own op p op.init = some s → Balanced s) ↔
      ∀ p m s, p ++ [m] <+: ms → exec self me own op p op.init = some s → s.1 = .tryLp →
        op.mode = .poll → ¬ NobodyWaits op m := by
  constructor
  · rintro h p m ⟨pc, c⟩ hp hs rfl hpoll hnone
    obtain ⟨m', hstep⟩ : ∃ m', step self me own op m .tryLp = some (m', .done .refused) := by
      have hstep : step self me own op m .tryLp = some (_, _) := rfl
      exact ⟨_, hstep.trans (by rw [(step_refused_iff hstep).2 ⟨rfl, hpoll, hnone⟩])⟩
    have hexec : exec self me own op (p ++ [m]) op.init = some (.done .refused, c) := by
      rw [exec_append, hs]
      simp [exec, hstep, charge]
    obtain rfl : c = meterAt op (.done .refused : Pc ι θ α) := exec_init_meter hexec
    exact (balanced_meterAt_iff op _).1 (h _ _ hp hexec) rfl
  · rintro h p ⟨pc, c⟩ hp hs
    obtain rfl : c = meterAt op pc := exec_init_meter hs
    refine (balanced_meterAt_iff op pc).2 ?_
    rintro rfl
    induction p using List.reverseRecOn with
    | nil =>
      obtain ⟨he, -⟩ := Prod.mk.inj (Option.some.inj hs)
      rcases op with ⟨c, o, _ | _ | _ | _⟩ <;> cases he
    | append_singleton p m _ =>
      rw [exec_append] at hs
      obtain ⟨⟨pc, c⟩, hp', hlast⟩ := Option.bind_eq_some_iff.1 hs
      obtain ⟨⟨m', pc'⟩, hstep, hend⟩ := Option.bind_eq_some_iff.1 hlast
      obtain ⟨rfl, -⟩ := Prod.mk.inj (Option.some.inj hend)
      obtain ⟨rfl, hpoll, hnone⟩ := (step_refused_iff hstep).1 rfl
      exact h p m _ hp hp' rfl hpoll hnone

/-- The run of `sendPoll` on a new channel: it returns `false` inside the atomic section and with
the lock held. -/
theorem sendPoll_unbalanced :
    let m₀ : Mem Unit ℕ ℕ ℕ ℕ := ⟨fun _ => channel ℕ ℕ ℕ ℕ, fun _ => 0, []⟩
    let m₁ := m₀.setLock () (some (0, 0))
    m₀.getLock () 0 = some m₁ ∧
      exec 0 0 0 (sendPoll () 7) [m₀, m₀, m₁] (sendPoll () 7).init =
        some (.done .refused, ⟨1, 1, 0⟩) ∧
      ¬ Balanced ((.done .refused, ⟨1, 1, 0⟩) : Pc ℕ ℕ ℕ × Meter) :=
  ⟨rfl, rfl, by simp [Balanced]⟩

end MultiMLton.Channel
