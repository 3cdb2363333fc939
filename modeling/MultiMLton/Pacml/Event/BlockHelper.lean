import Mathlib.Logic.Function.Basic
import Mathlib.Logic.Relation
import Mathlib.Tactic

/-!
# `blockHelper` of `syncOnBEvts`

A thread `t` that finds all its base events blocked is captured by `S.atomicSwitch`, and a loop
spawns a parasite for each `blockFn`.  A parasite may block with an offer that another thread
commits, commit at once, or find that it has lost the race.  All share the transaction id of the
synchronisation, `0` (open), `1` (claimed) or `2` (committed).

* `step`: the loop, the `blockFn`s of `channel.sml`, `sync-var.sml` and `timeout.sml`, and the
  threads that commit an offer, one atomic step at a time;
* `Inv`: one `blockFn` at most has claimed or won the id;
* `resumedOnce`: `t` is readied at most once, and is not forgotten.

The loop may go on while a parasite waits for a lock.  The other threads and the contents of the
queues and cells are arguments of a step.  A `blockFn` that raises an exception ends the process.
-/

namespace MultiMLton.BlockHelper

/-- `event_type` -/
inductive EventType
  | ASYNC
  | SYNC
  deriving DecidableEq

/-- The base event of a `blockFn`: `sendEvt` or `recvEvt`, `gSwapEvt`, `timeOutEvt` or
`atTimeEvt`. -/
inductive BlockFn
  | channel
  | cell
  | time
  deriving DecidableEq

/-- Where a parasite is. -/
inductive Phase
  | notSpawned
  /-- it has, or waits for, the lock of the channel or cell -/
  | tryLp
  /-- it has taken a partner's element off the queue, or found the cell full -/
  | matchLp
  /-- it has claimed the id, and goes for the partner's -/
  | claimed
  /-- it has won the partner's id -/
  | met
  /-- it has switched away, with an offer in a queue -/
  | blocked
  /-- another thread has committed the id through the offer, and has the parasite in hand -/
  | held
  /-- it has been readied -/
  | readied
  /-- the `blockFn` returns -/
  | returns
  /-- the function of the parasite has returned -/
  | done
  /-- it has lost the race and switched away for ever -/
  | dropped
  deriving DecidableEq

/-- Where the loop is; a number is the position in `blockFns`. -/
inductive Loop
  | at (i : ℕ)
  /-- after the parasite has been spawned, at `if (!transId = 0)` -/
  | test (i : ℕ)
  /-- it has run out of `blockFns` -/
  | ranOut
  /-- it has been abandoned -/
  | abandoned
  deriving DecidableEq

structure State where
  transId : ℕ
  loop : Loop
  phase : ℕ → Phase
  /-- how often `t` has been readied -/
  ready : ℕ

def State.init : State := ⟨0, .at 0, fun _ => .notSpawned, 0⟩

/-- Parasite `i` moves on. -/
def State.put (s : State) (i : ℕ) (p : Phase) : State :=
  { s with phase := Function.update s.phase i p }

/-- A step: of the loop, of parasite `i` (with whether it finds a partner in the queue, or the cell
full, and with the result of its `cas` on the partner's id), and of the thread that commits the
offer of parasite `i` and then readies it. -/
inductive Act
  | loop
  | parasite (i : ℕ) (found : Bool) (res2 : ℕ)
  | commit (i : ℕ)
  | wake (i : ℕ)

/-- `loop` -/
def loopStep (et : EventType) (blockFns : List BlockFn) (s : State) : Option State :=
  match s.loop with
  | .at i =>
    if i < blockFns.length then some { s.put i .tryLp with loop := .test i }
    else match et with
      | .ASYNC => some { s with loop := .ranOut, ready := s.ready + 1 }
      | .SYNC => some { s with loop := .ranOut }
  | .test i =>
    if s.transId = 0 then some { s with loop := .at (i + 1) } else some { s with loop := .abandoned }
  | .ranOut => none
  | .abandoned => none

/-- The next step of a `blockFn`, and what the parasite does after it. -/
def parasiteStep (et : EventType) (blockFns : List BlockFn) (s : State) (i : ℕ) (found : Bool)
    (res2 : ℕ) : Option State :=
  match s.phase i, blockFns[i]? with
  | .tryLp, some .time => some (s.put i .blocked)
  | .tryLp, some _ => some (s.put i (if found then .matchLp else .blocked))
  | .matchLp, some .channel =>
    -- `cas (mytxid, 0, 1)`
    if s.transId = 0 then some { s.put i .claimed with transId := 1 }
    else if s.transId = 1 then some s
    else some (s.put i .dropped)
  | .matchLp, some .cell =>
    -- `cas (mytxid, 0, 2)`
    if s.transId = 0 then some { s.put i .returns with transId := 2 }
    else if s.transId = 1 then some s
    else some (s.put i .dropped)
  | .claimed, _ =>
    if res2 = 0 then some (s.put i .met)
    else if res2 = 1 then some { s.put i .matchLp with transId := 0 }
    else some { s.put i .tryLp with transId := 0 }
  | .met, _ => some { s.put i .returns with transId := 2 }
  | .readied, _ => some (s.put i .returns)
  | .returns, _ =>
    match et with
    | .ASYNC => some (s.put i .done)
    | .SYNC => some { s.put i .done with ready := s.ready + 1 }
  | _, _ => none

def step (et : EventType) (blockFns : List BlockFn) (s : State) : Act → Option State
  | .loop => loopStep et blockFns s
  | .parasite i found res2 => parasiteStep et blockFns s i found res2
  | .commit i =>
    if s.phase i = .blocked ∧ s.transId = 0 then some { s.put i .held with transId := 2 } else none
  | .wake i => if s.phase i = .held then some (s.put i .readied) else none

/-- The states of a synchronisation. -/
inductive Reachable (et : EventType) (blockFns : List BlockFn) : State → Prop
  | init : Reachable et blockFns .init
  | step {s s' : State} (h : Reachable et blockFns s) (a : Act)
      (hs : step et blockFns s a = some s') : Reachable et blockFns s'

/-- The loop has finished. -/
def Loop.finished : Loop → Prop
  | .ranOut | .abandoned => True
  | _ => False

/-- The parasite has claimed the id. -/
def Phase.claims : Phase → Prop
  | .claimed | .met => True
  | _ => False

/-- The parasite has won the id and has not readied `t`. -/
def Phase.inFlight : Phase → Prop
  | .held | .readied | .returns => True
  | _ => False

/-- The id has been committed by or for the parasite. -/
def Phase.won (p : Phase) : Prop := p.inFlight ∨ p = .done

/-- The parasite has no share in the id. -/
def Phase.idle (p : Phase) : Prop := ¬ p.claims ∧ ¬ p.won

/-! ### What a step does -/

/-- The steps of a parasite and of its partner. -/
inductive Moves (et : EventType) (i : ℕ) (s : State) : State → Prop
  | quiet (p : Phase) (h : (s.phase i).idle) (hp : p.idle) : Moves et i s (s.put i p)
  | spin : Moves et i s s
  | claim (h : s.transId = 0) : Moves et i s { s.put i .claimed with transId := 1 }
  | unclaim (p : Phase) (h : (s.phase i).claims) (hp : p.idle) :
      Moves et i s { s.put i p with transId := 0 }
  | meet (h : (s.phase i).claims) : Moves et i s (s.put i .met)
  | win (p : Phase) (h : s.transId = 0 ∨ (s.phase i).claims) (hp : p.inFlight) :
      Moves et i s { s.put i p with transId := 2 }
  | advance (p : Phase) (h : (s.phase i).inFlight) (hp : p.inFlight) : Moves et i s (s.put i p)
  | finish (h : (s.phase i).inFlight) : Moves et i s { s.put i .done with
      ready := match et with
        | .ASYNC => s.ready
        | .SYNC => s.ready + 1 }

variable {et : EventType} {s s' : State} {i : ℕ} {blockFns : List BlockFn}

theorem moves_of_parasiteStep
    {found : Bool} {res2 : ℕ} (h : parasiteStep et blockFns s i found res2 = some s') :
    Moves et i s s' := by
  have hidle {p q : Phase} (hp : s.phase i = p) (hpi : p.idle) (hq : q.idle) :
      Moves et i s (s.put i q) := .quiet q (hp ▸ hpi) hq
  unfold parasiteStep at h
  split at h
  case h_1 hp _ =>
    cases h
    exact hidle hp (by simp [Phase.idle, Phase.claims, Phase.won, Phase.inFlight])
      (by simp [Phase.idle, Phase.claims, Phase.won, Phase.inFlight])
  case h_2 hp _ =>
    cases h
    refine hidle hp (by simp [Phase.idle, Phase.claims, Phase.won, Phase.inFlight]) ?_
    split_ifs <;> simp [Phase.idle, Phase.claims, Phase.won, Phase.inFlight]
  case h_3 hp _ =>
    split_ifs at h with h0 h1
    · cases h
      exact .claim h0
    · cases h
      exact .spin
    · cases h
      exact hidle hp (by simp [Phase.idle, Phase.claims, Phase.won, Phase.inFlight])
        (by simp [Phase.idle, Phase.claims, Phase.won, Phase.inFlight])
  case h_4 hp _ =>
    split_ifs at h with h0 h1
    · cases h
      exact .win .returns (.inl h0) trivial
    · cases h
      exact .spin
    · cases h
      exact hidle hp (by simp [Phase.idle, Phase.claims, Phase.won, Phase.inFlight])
        (by simp [Phase.idle, Phase.claims, Phase.won, Phase.inFlight])
  case h_5 hp =>
    have hclaims : (s.phase i).claims := hp ▸ trivial
    split_ifs at h
    · cases h
      exact .meet hclaims
    · cases h
      exact .unclaim .matchLp hclaims (by simp [Phase.idle, Phase.claims, Phase.won, Phase.inFlight])
    · cases h
      exact .unclaim .tryLp hclaims (by simp [Phase.idle, Phase.claims, Phase.won, Phase.inFlight])
  case h_6 hp =>
    cases h
    exact .win .returns (.inr (hp ▸ trivial)) trivial
  case h_7 hp =>
    cases h
    exact .advance .returns (hp ▸ trivial) trivial
  case h_8 hp =>
    have hflight : (s.phase i).inFlight := hp ▸ trivial
    cases et with
    | ASYNC | SYNC =>
      cases h
      exact .finish hflight
  case h_9 => cases h

theorem moves_of_partner
    {a : Act} (ha : a = .commit i ∨ a = .wake i) (h : step et blockFns s a = some s') :
    Moves et i s s' := by
  rcases ha with rfl | rfl
  · dsimp only [step] at h
    split_ifs at h with hc
    cases h
    exact .win .held (.inl hc.2) trivial
  · dsimp only [step] at h
    split_ifs at h with hc
    cases h
    exact .advance .readied (hc ▸ trivial) trivial

/-! ### The invariant -/

/-- One parasite at most has a share in the id: it claims it when it is `1` and has won it when it
is `2`. -/
inductive Share (s : State) : Prop
  | unclaimed (h : s.transId = 0) (hall : ∀ i, (s.phase i).idle)
  | claimed (h : s.transId = 1) (i : ℕ) (hi : (s.phase i).claims)
      (hall : ∀ j, j ≠ i → (s.phase j).idle)
  | committed (h : s.transId = 2) (i : ℕ) (hi : (s.phase i).won)
      (hall : ∀ j, j ≠ i → (s.phase j).idle)

/-- What has been done for `t`. -/
def Readied (et : EventType) (s : State) : Prop :=
  match et with
  | .ASYNC => s.ready = if s.loop = .ranOut then 1 else 0
  | .SYNC => (s.ready = 0 ∧ ∀ i, s.phase i ≠ .done) ∨ (s.ready = 1 ∧ ∃ i, s.phase i = .done)

/-- The parasites that the loop has not come to. -/
def Fresh (s : State) : Prop :=
  match s.loop with
  | .at i => ∀ j, i ≤ j → s.phase j = .notSpawned
  | .test i => ∀ j, i < j → s.phase j = .notSpawned
  | _ => True

structure Inv (et : EventType) (s : State) : Prop where
  share : Share s
  readied : Readied et s
  fresh : Fresh s

@[simp] theorem State.put_self (s : State) (i : ℕ) (p : Phase) : (s.put i p).phase i = p :=
  Function.update_self ..

theorem State.put_of_ne (s : State) {i j : ℕ} (h : j ≠ i) (p : Phase) :
    (s.put i p).phase j = s.phase j := Function.update_of_ne h ..

variable {s : State}

/-- A parasite that claims is the one with the share. -/
theorem Share.of_claims (h : Share s) (hi : (s.phase i).claims) :
    s.transId = 1 ∧ ∀ j, j ≠ i → (s.phase j).idle := by
  cases h with
  | unclaimed _ hall => exact absurd hi (hall i).1
  | claimed h k hk hall =>
    by_cases hik : i = k
    · subst hik
      exact ⟨h, hall⟩
    · exact absurd hi (hall i hik).1
  | committed h k hk hall =>
    by_cases hik : i = k
    · subst hik
      revert hi hk
      cases s.phase i <;> simp [Phase.claims, Phase.won, Phase.inFlight]
    · exact absurd hi (hall i hik).1

theorem Share.of_won (h : Share s) (hi : (s.phase i).won) :
    s.transId = 2 ∧ ∀ j, j ≠ i → (s.phase j).idle := by
  cases h with
  | unclaimed _ hall => exact absurd hi (hall i).2
  | claimed h k hk hall =>
    by_cases hik : i = k
    · subst hik
      revert hi hk
      cases s.phase i <;> simp [Phase.claims, Phase.won, Phase.inFlight]
    · exact absurd hi (hall i hik).2
  | committed h k hk hall =>
    by_cases hik : i = k
    · subst hik
      exact ⟨h, hall⟩
    · exact absurd hi (hall i hik).2

theorem Share.congr (h : Share s) (ht : s'.transId = s.transId)
    (hp : s'.phase = s.phase) : Share s' := by
  cases h with
  | unclaimed h hall => exact .unclaimed (ht.trans h) (hp ▸ hall)
  | claimed h i hi hall => exact .claimed (ht.trans h) i (hp ▸ hi) (hp ▸ hall)
  | committed h i hi hall => exact .committed (ht.trans h) i (hp ▸ hi) (hp ▸ hall)

/-- The other parasites have no share when the id is open or parasite `i` has claimed it. -/
theorem Share.others (h : Share s) (hi : s.transId = 0 ∨ (s.phase i).claims) :
    ∀ j, j ≠ i → (s.phase j).idle := by
  rcases hi with hi | hi
  · cases h with
    | unclaimed _ hall => exact fun j _ => hall j
    | claimed h => omega
    | committed h => omega
  · exact (h.of_claims hi).2

variable {p : Phase}

theorem put_idle (hall : ∀ j, j ≠ i → (s.phase j).idle) :
    ∀ j, j ≠ i → ((s.put i p).phase j).idle := by
  intro j hj
  rw [s.put_of_ne hj]
  exact hall j hj

theorem put_all_idle (hp : p.idle)
    (hall : ∀ j, j ≠ i → (s.phase j).idle) : ∀ j, ((s.put i p).phase j).idle := by
  intro j
  by_cases hj : j = i
  · subst hj
    rwa [s.put_self]
  · exact put_idle hall j hj

/-- A parasite without a share may move to another phase without one. -/
theorem Share.put_idle (h : Share s) (hi : (s.phase i).idle) (hp : p.idle) : Share (s.put i p) := by
  have hstay {k : ℕ} (hk : ¬ (s.phase k).idle) : (s.put i p).phase k = s.phase k :=
    s.put_of_ne (by rintro rfl; exact hk hi) p
  have hidle {k : ℕ} (hall : ∀ j, j ≠ k → (s.phase j).idle) :
      ∀ j, j ≠ k → ((s.put i p).phase j).idle := by
    intro j hj
    by_cases hji : j = i
    · subst hji
      rwa [s.put_self]
    · rw [s.put_of_ne hji]
      exact hall j hj
  cases h with
  | unclaimed h hall => exact .unclaimed h (put_all_idle hp fun j _ => hall j)
  | claimed h k hk hall =>
    exact .claimed h k (by rwa [hstay fun hk' => hk'.1 hk]) (hidle hall)
  | committed h k hk hall =>
    exact .committed h k (by rwa [hstay fun hk' => hk'.2 hk]) (hidle hall)

theorem Share.moves (h : Share s) (hm : Moves et i s s') : Share s' := by
  cases hm with
  | quiet p hi hp => exact h.put_idle hi hp
  | spin => exact h
  | claim h0 =>
    refine .claimed rfl i ?_ (BlockHelper.put_idle (h.others (.inl h0)))
    show ((s.put i .claimed).phase i).claims
    rw [s.put_self]
    trivial
  | unclaim p hi hp => exact .unclaimed rfl (put_all_idle hp (h.of_claims hi).2)
  | meet hi =>
    obtain ⟨h1, hall⟩ := h.of_claims hi
    refine .claimed h1 i ?_ (BlockHelper.put_idle hall)
    rw [s.put_self]
    trivial
  | win p hi hp =>
    refine .committed rfl i ?_ (BlockHelper.put_idle (h.others hi))
    show ((s.put i p).phase i).won
    rw [s.put_self]
    exact .inl hp
  | advance p hi hp =>
    obtain ⟨h2, hall⟩ := h.of_won (.inl hi)
    refine .committed h2 i ?_ (BlockHelper.put_idle hall)
    rw [s.put_self]
    exact .inl hp
  | finish hi =>
    obtain ⟨h2, hall⟩ := h.of_won (.inl hi)
    refine .committed h2 i ?_ (BlockHelper.put_idle hall)
    show ((s.put i .done).phase i).won
    rw [s.put_self]
    exact .inr rfl

/-- A phase that is not `done` becomes another one that is not. -/
theorem readied_put (h : Readied et s)
    (hi : s.phase i ≠ .done) (hp : p ≠ .done) (hphase : s'.phase = (s.put i p).phase)
    (hloop : s'.loop = s.loop) (hready : s'.ready = s.ready) : Readied et s' := by
  unfold Readied at h ⊢
  rw [hloop, hready, hphase]
  cases et with
  | ASYNC => exact h
  | SYNC =>
    rcases h with ⟨h, hall⟩ | ⟨h, k, hk⟩
    · refine .inl ⟨h, fun j => ?_⟩
      by_cases hj : j = i
      · subst hj
        rwa [s.put_self]
      · rw [s.put_of_ne hj]
        exact hall j
    · refine .inr ⟨h, k, ?_⟩
      rwa [s.put_of_ne (by rintro rfl; exact hi hk)]

theorem Phase.idle.ne_done (h : p.idle) : p ≠ .done := fun hp => h.2 (.inr hp)

theorem Phase.claims.ne_done (h : p.claims) : p ≠ .done := by
  rintro rfl
  exact h

theorem Phase.inFlight.ne_done (h : p.inFlight) : p ≠ .done := by
  rintro rfl
  exact h

/-- Nobody has readied `t` while the id is open or claimed. -/
theorem Share.ne_done (h : Share s) (hi : s.transId = 0 ∨ (s.phase i).claims) :
    s.phase i ≠ .done := by
  rcases hi with hi | hi
  · cases h with
    | unclaimed _ hall => exact (hall i).ne_done
    | claimed h => omega
    | committed h => omega
  · exact hi.ne_done

theorem Inv.readied_moves (h : Inv et s) (hm : Moves et i s s') : Readied et s' := by
  cases hm with
  | quiet p hi hp | unclaim p hi hp | advance p hi hp =>
    exact readied_put h.readied hi.ne_done hp.ne_done rfl rfl rfl
  | spin => exact h.readied
  | claim h0 =>
    exact readied_put h.readied (h.share.ne_done (.inl h0)) (show Phase.claimed ≠ .done by decide)
      rfl rfl rfl
  | meet hi =>
    exact readied_put h.readied hi.ne_done (show Phase.met ≠ .done by decide) rfl rfl rfl
  | win p hi hp =>
    exact readied_put h.readied (h.share.ne_done hi) hp.ne_done rfl rfl rfl
  | finish hi =>
    have hr := h.readied
    unfold Readied at hr ⊢
    cases et with
    | ASYNC => exact hr
    | SYNC =>
      -- the others have no share, so this parasite is the first
      rcases hr with ⟨hr, -⟩ | ⟨-, k, hk⟩
      · refine .inr ⟨?_, i, s.put_self i .done⟩
        show s.ready + 1 = 1
        omega
      · have hne : k ≠ i := by
          rintro rfl
          exact hi.ne_done hk
        exact absurd hk ((h.share.of_won (.inl hi)).2 k hne).ne_done

/-- A parasite without a share moves on; the loop is not concerned. -/
theorem Moves.loop_eq (hm : Moves et i s s') : s'.loop = s.loop := by
  cases hm <;> rfl

theorem Moves.phase_eq {i j : ℕ} (hm : Moves et i s s') (hj : j ≠ i) : s'.phase j = s.phase j := by
  cases hm with
  | spin => rfl
  | _ => exact s.put_of_ne hj _

theorem Fresh.moves (h : Fresh s) (hm : Moves et i s s')
    (hi : s.phase i ≠ .notSpawned) : Fresh s' := by
  have hkeep {j : ℕ} (hj : s.phase j = .notSpawned) : s'.phase j = .notSpawned := by
    rw [hm.phase_eq (by rintro rfl; exact hi hj)]
    exact hj
  unfold Fresh at h ⊢
  rw [hm.loop_eq]
  split at h
  · exact fun j hj => hkeep (h j hj)
  · exact fun j hj => hkeep (h j hj)
  · trivial

theorem ne_notSpawned_of_parasiteStep
    {found : Bool} {res2 : ℕ} (h : parasiteStep et blockFns s i found res2 = some s') :
    s.phase i ≠ .notSpawned := by
  intro hi
  simp [parasiteStep, hi] at h

theorem Inv.moves (h : Inv et s) (hm : Moves et i s s')
    (hi : s.phase i ≠ .notSpawned) : Inv et s' :=
  ⟨h.share.moves hm, h.readied_moves hm, h.fresh.moves hm hi⟩

theorem Inv.loop (h : Inv et s) (hs : loopStep et blockFns s = some s') : Inv et s' := by
  have hfresh := h.fresh
  have hready := h.readied
  unfold loopStep at hs
  unfold Fresh at hfresh
  split at hs
  case h_1 i hloop =>
    simp only [hloop] at hfresh
    split_ifs at hs with hi
    · -- a parasite is spawned
      cases hs
      have hnew : (s.phase i).idle := by
        rw [hfresh i le_rfl]
        simp [Phase.idle, Phase.claims, Phase.won, Phase.inFlight]
      have htry : Phase.tryLp.idle := by
        simp [Phase.idle, Phase.claims, Phase.won, Phase.inFlight]
      refine ⟨(h.share.put_idle hnew htry).congr rfl rfl, ?_, ?_⟩
      · have hput : Readied et (s.put i .tryLp) :=
          readied_put hready hnew.ne_done htry.ne_done rfl rfl rfl
        unfold Readied at hput ⊢
        cases et with
        | ASYNC => simpa [State.put, hloop] using hput
        | SYNC => exact hput
      · intro j hj
        show (s.put i .tryLp).phase j = .notSpawned
        rw [s.put_of_ne (by omega)]
        exact hfresh j (by omega)
    · -- `blockFns` is empty
      unfold Readied at hready
      cases et with
      | ASYNC =>
        cases hs
        refine ⟨h.share.congr rfl rfl, ?_, trivial⟩
        simp only [hloop] at hready
        show s.ready + 1 = _
        rw [hready]
        rfl
      | SYNC =>
        cases hs
        exact ⟨h.share.congr rfl rfl, hready, trivial⟩
  case h_2 i hloop =>
    simp only [hloop] at hfresh
    unfold Readied at hready
    split_ifs at hs
    · cases hs
      refine ⟨h.share.congr rfl rfl, ?_, fun j hj => hfresh j (by omega)⟩
      cases et with
      | ASYNC => simpa [Readied, hloop] using hready
      | SYNC => exact hready
    · cases hs
      refine ⟨h.share.congr rfl rfl, ?_, trivial⟩
      cases et with
      | ASYNC => simpa [Readied, hloop] using hready
      | SYNC => exact hready
  case h_3 => cases hs
  case h_4 => cases hs

theorem Reachable.inv (h : Reachable et blockFns s) : Inv et s := by
  induction h with
  | init =>
    refine ⟨.unclaimed rfl fun i => ?_, ?_, fun j _ => rfl⟩
    · simp [State.init, Phase.idle, Phase.claims, Phase.won, Phase.inFlight]
    · cases et with
      | ASYNC => rfl
      | SYNC => exact .inl ⟨rfl, nofun⟩
  | step h a hs ih =>
    cases a with
    | loop => exact ih.loop hs
    | parasite i found res2 =>
      exact ih.moves (moves_of_parasiteStep hs) (ne_notSpawned_of_parasiteStep hs)
    | commit i =>
      refine ih.moves (moves_of_partner (.inl rfl) hs) fun hi => ?_
      simp [BlockHelper.step, hi] at hs
    | wake i =>
      refine ih.moves (moves_of_partner (.inr rfl) hs) fun hi => ?_
      simp [BlockHelper.step, hi] at hs

/-! ### The thread that synchronises -/

/-- A run in which parasite `i` and the thread that committed its offer take at most three steps and
`t` is readied. -/
def Delivers (et : EventType) (blockFns : List BlockFn) (s : State) (i : ℕ) : Prop :=
  ∃ acts : List Act, acts.length ≤ 3 ∧
    (∀ a ∈ acts, a = .wake i ∨ ∃ found res2, a = .parasite i found res2) ∧
    ∃ s', acts.foldlM (step et blockFns) s = some s' ∧ s'.ready = s.ready + 1

/-- A parasite that has won the id readies `t` by its own steps. -/
theorem delivers_of_inFlight (h : (s.phase i).inFlight) : Delivers .SYNC blockFns s i := by
  cases hp : s.phase i with
  | held =>
    refine ⟨[.wake i, .parasite i true 0, .parasite i true 0], by simp, by simp, ?_⟩
    simp [step, parasiteStep, hp, State.put]
  | readied =>
    refine ⟨[.parasite i true 0, .parasite i true 0], by simp, by simp, ?_⟩
    simp [step, parasiteStep, hp, State.put]
  | returns =>
    refine ⟨[.parasite i true 0], by simp, by simp, ?_⟩
    simp [step, parasiteStep, hp, State.put]
  | _ => simp [hp, Phase.inFlight] at h

/-- In every state of a synchronisation, `t` has been readied at most once.  For `SYNC`, when the
loop has finished and the id has been committed, `t` has been readied or there is one parasite that
has won the id, and its steps ready `t`.  For `ASYNC`, when the loop has run out of `blockFns`, `t`
has been readied. -/
theorem resumedOnce {et : EventType} {blockFns : List BlockFn} {s : State}
    (h : Reachable et blockFns s) :
    s.ready ≤ 1 ∧
    (et = .SYNC → s.loop.finished → s.transId = 2 →
      s.ready = 1 ∨ s.ready = 0 ∧ ∃! i, (s.phase i).inFlight ∧ Delivers et blockFns s i) ∧
    (et = .ASYNC → s.loop = .ranOut → s.ready = 1) := by
  have hready := h.inv.readied
  unfold Readied at hready
  cases et with
  | ASYNC =>
    refine ⟨?_, nofun, fun _ hloop => ?_⟩
    · rw [hready]
      split_ifs <;> omega
    · rw [hready, if_pos hloop]
  | SYNC =>
    refine ⟨?_, fun _ _ h2 => ?_, nofun⟩
    · rcases hready with ⟨hr, -⟩ | ⟨hr, -⟩ <;> omega
    · rcases hready with ⟨hr, hall⟩ | ⟨hr, -⟩
      · right
        cases h.inv.share with
        | unclaimed h0 => omega
        | claimed h1 => omega
        | committed _ i hi hidle =>
          have hflight := hi.resolve_right (hall i)
          refine ⟨hr, i, ⟨hflight, delivers_of_inFlight hflight⟩, fun j hj => ?_⟩
          by_contra hne
          exact (hidle j hne).2 (.inl hj.1)
      · exact .inl hr

/-! ### Two runs -/

theorem reachable_foldlM {acts : List Act}
    (h : Reachable et blockFns s) (hrun : acts.foldlM (step et blockFns) s = some s') :
    Reachable et blockFns s' := by
  induction acts generalizing s with
  | nil =>
    cases hrun
    exact h
  | cons a acts ih =>
    rw [List.foldlM_cons] at hrun
    obtain ⟨s₁, hs₁, hrest⟩ := Option.bind_eq_some_iff.1 hrun
    exact ih (.step h a hs₁) hrest

/-- The state at the end of a run, by what is seen of it. -/
theorem exists_reachable (et : EventType) (blockFns : List BlockFn) (acts : List Act)
    (r : ℕ × Loop × ℕ)
    (h : (acts.foldlM (step et blockFns) .init).map (fun s => (s.transId, s.loop, s.ready)) =
      some r) :
    ∃ s, Reachable et blockFns s ∧ (s.transId, s.loop, s.ready) = r := by
  obtain ⟨s, hs, hr⟩ := Option.map_eq_some_iff.1 h
  exact ⟨s, reachable_foldlM .init hs, hr⟩

/-- Both parasites block and the loop runs out; then another thread commits the first offer. -/
def choiceMet : List Act := [.loop, .parasite 0 false 0, .loop, .loop, .parasite 1 false 0, .loop,
  .loop, .commit 0]

theorem resumedOnce_choiceMet : ∃ s, Reachable .SYNC [.channel, .channel] s ∧ s.ready ≤ 1 ∧
    (s.ready = 1 ∨ s.ready = 0 ∧
      ∃! i, (s.phase i).inFlight ∧ Delivers .SYNC [.channel, .channel] s i) := by
  obtain ⟨s, hs, hobs⟩ := exists_reachable .SYNC [.channel, .channel] choiceMet (2, .ranOut, 0)
    (by decide)
  obtain ⟨h2, hloop, -⟩ : s.transId = 2 ∧ s.loop = .ranOut ∧ s.ready = 0 := by simpa using hobs
  have hfinished : s.loop.finished := hloop ▸ trivial
  exact ⟨s, hs, (resumedOnce hs).1, (resumedOnce hs).2.1 rfl hfinished h2⟩

/-- `SYNC`: the id has been committed and the loop has finished, and `t` has not been readied yet.
`ASYNC`: the loop finds the id committed by another thread after the first `blockFn`, and finishes
without readying `t`. -/
theorem finished_not_ready :
    (∃ s, Reachable .SYNC [.channel, .channel] s ∧ s.loop.finished ∧ s.transId = 2 ∧ s.ready = 0) ∧
    ∃ s, Reachable .ASYNC [.channel, .channel] s ∧ s.loop.finished ∧ s.ready = 0 := by
  constructor
  · obtain ⟨s, hs, hobs⟩ := exists_reachable .SYNC [.channel, .channel] choiceMet (2, .ranOut, 0)
      (by decide)
    obtain ⟨h2, hloop, h0⟩ : s.transId = 2 ∧ s.loop = .ranOut ∧ s.ready = 0 := by simpa using hobs
    exact ⟨s, hs, hloop ▸ trivial, h2, h0⟩
  · obtain ⟨s, hs, hobs⟩ := exists_reachable .ASYNC [.channel, .channel]
      [.loop, .parasite 0 false 0, .commit 0, .loop] (2, .abandoned, 0) (by decide)
    obtain ⟨-, hloop, h0⟩ : s.transId = 2 ∧ s.loop = .abandoned ∧ s.ready = 0 := by
      simpa using hobs
    exact ⟨s, hs, hloop ▸ trivial, h0⟩

end MultiMLton.BlockHelper
