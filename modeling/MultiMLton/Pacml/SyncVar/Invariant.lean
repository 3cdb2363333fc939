import Mathlib.Tactic
import MultiMLton.Pacml.SyncVar.Code

/-!
# Invariants of a cell

* `Move`: what a step can do, with the read queue as the list of its contents, and
  `move_of_step`;
* `Inv`: every operation that has not taken effect yet is in the hands of one thread or in the read
  queue, the threads that a relay has served wait in one ready list, and the trace is well formed;
* `inv_of_reachable`.
-/

namespace MultiMLton.SyncVar

open Linearizability Interleave List
open Config (put_loc_of_ne put_loc_self put_shared)

variable {τ ι α : Type*}

/-! ### What a step can do -/

theorem pollFn_eq (m : Mem τ ι α) : ∃ prio, m.pollFn = { m with prio := prio } := by
  unfold Mem.pollFn
  split
  · exact ⟨m.prio, rfl⟩
  · exact ⟨m.prio + 1, rfl⟩

theorem cleanAndDeque_cases (m : Mem τ ι α) (seen : ℕ → Bool) :
    (∃ dropped e readQ, cleanAndDeque m seen = .ok (some e, readQ) ∧
        m.readQ.contents = dropped ++ e :: readQ.contents ∧ ∀ e ∈ dropped, m.txid e.tx = 2) ∨
      ∃ readQ, cleanAndDeque m seen = .ok (none, readQ) ∧ readQ.contents = [] ∧
        ∀ e ∈ m.readQ.contents, m.txid e.tx = 2 := by
  obtain ⟨readQ, hdeque, hcontents⟩ := ImpQueue.dequeLazyClean_eq m.readQ (m.cleaner seen)
  have htake : ∀ e ∈ m.readQ.contents.takeWhile (m.cleaner seen), m.txid e.tx = 2 := by
    intro e he
    have := mem_takeWhile_imp he
    simp only [Mem.cleaner, Bool.and_eq_true, beq_iff_eq] at this
    exact this.2
  have hsplit := takeWhile_append_dropWhile (p := m.cleaner seen) (l := m.readQ.contents)
  cases hd : m.readQ.contents.dropWhile (m.cleaner seen) with
  | nil =>
    rw [hd] at hdeque hcontents hsplit
    rw [append_nil] at hsplit
    exact .inr ⟨readQ, hdeque, hcontents, hsplit ▸ htake⟩
  | cons e es =>
    rw [hd] at hdeque hcontents hsplit
    rw [tail_cons] at hcontents
    exact .inl ⟨_, e, readQ, hdeque, by rw [hcontents, hsplit], htake⟩

theorem enqueAndClean_cases (m : Mem τ ι α) (seen : ℕ → Bool) (e : Entry ι α) :
    ∃ kept dropped, m.readQ.contents = kept ++ dropped ∧
      (∀ e ∈ dropped, m.txid e.tx = 2) ∧ (enqueAndClean m seen e).contents = kept ++ [e] := by
  obtain ⟨dropped, hsplit, hdropped⟩ := ImpQueue.contents_cleanSuffix m.readQ (m.cleaner seen)
  refine ⟨_, dropped, hsplit, fun e he => ?_, ImpQueue.contents_enque _ _⟩
  have := hdropped e he
  simp only [Mem.cleaner, Bool.and_eq_true, beq_iff_eq] at this
  exact this.2

variable [DecidableEq ι]

/-- The steps, one by one. -/
inductive Move (t : τ) (m : Mem τ ι α) : Pc ι α → Mem τ ι α → Pc ι α → Prop
  | start (op : Op ι α) :
      Move t m .idle { m with next := m.next + 1, trace := .inv m.next op :: m.trace }
        (.lock m.next op)
  | poll (prio : ℤ) : Move t m .idle { m with prio := prio } .idle
  | foreign {n : ι} {v : ℕ} (h : foreignMove (m.txid (.choice n)) v = true) :
      Move t m .idle (m.setTx (.choice n) v) .idle
  | acquire {id : ℕ} {op : Op ι α} (h : m.lock = none) :
      Move t m (.lock id op) { m with lock := some t } (.test id op)
  | put {id : ℕ} {x : α} (h : m.value = none) :
      Move t m (.test id (.gPut x)) { m with
        value := some x, prio := 1, trace := .lin ⟨id, .gPut x, .unit⟩ :: m.trace }
        (.tryLp id x [])
  | full {id : ℕ} {x v : α} (h : m.value = some v) :
      Move t m (.test id (.gPut x))
        { m with trace := .lin ⟨id, .gPut x, .raisePut⟩ :: m.trace } (.unlock id (.ret .raisePut))
  | wait {id : ℕ} {via : Via ι} {d : Swap α} {tx : TxId ι} (h : m.value = none)
      (hop : (Entry.mk tx id d).op = .swap via d) (htx : ∀ j, tx = .own j → j = id) :
      Move t m (.test id (.swap via d)) m (.enque id d tx)
  | empty {id : ℕ} {d : Swap α} (h : m.value = none) :
      Move t m (.test id (.swap .gSwapPoll d))
        { m with trace := .lin ⟨id, .swap .gSwapPoll d, .NONE⟩ :: m.trace }
        (.unlock id (.ret .NONE))
  | disabled {id : ℕ} {d : Swap α} (h : m.value = none) :
      Move t m (.test id (.swap .doitFn d))
        { m with trace := .lin ⟨id, .swap .doitFn d, .raiseDoitFail⟩ :: m.trace }
        (.unlock id (.ret .raiseDoitFail))
  | found {id : ℕ} {via : Via ι} {d : Swap α} {x : α} (h : m.value = some x)
      (hvia : ∀ n, via ≠ .blockFn n) :
      Move t m (.test id (.swap via d)) m (.swap id via d x)
  | foundOwn {id : ℕ} {n : ι} {d : Swap α} {x : α} (h : m.value = some x) :
      Move t m (.test id (.swap (.blockFn n) d)) m (.matchOwn id d n x)
  | deque {id : ℕ} {msg : α} {rdy : List (ℕ × α)} {e : Entry ι α} {dropped : List (Entry ι α)}
      {readQ : ImpQueue.T (Entry ι α)} (h : m.readQ.contents = dropped ++ e :: readQ.contents)
      (hdropped : ∀ e ∈ dropped, m.txid e.tx = 2) :
      Move t m (.tryLp id msg rdy) { m with readQ := readQ } (.matchLp id msg e rdy)
  | drained {id : ℕ} {msg : α} {rdy : List (ℕ × α)} {readQ : ImpQueue.T (Entry ι α)}
      (h : readQ.contents = []) (hdropped : ∀ e ∈ m.readQ.contents, m.txid e.tx = 2) :
      Move t m (.tryLp id msg rdy) { m with readQ := readQ } (.unlock id (.ready rdy))
  | win {id : ℕ} {msg : α} {rdy : List (ℕ × α)} {e : Entry ι α} (h : m.txid e.tx = 0) :
      Move t m (.matchLp id msg e rdy) (m.setTx e.tx 2) (.commit id msg e rdy)
  | again {id : ℕ} {msg : α} {rdy : List (ℕ × α)} {e : Entry ι α} :
      Move t m (.matchLp id msg e rdy) m (.matchLp id msg e rdy)
  | lose {id : ℕ} {msg : α} {rdy : List (ℕ × α)} {e : Entry ι α} (h : 2 ≤ m.txid e.tx) :
      Move t m (.matchLp id msg e rdy) m (.tryLp id msg rdy)
  | commit {id : ℕ} {msg : α} {rdy : List (ℕ × α)} {e : Entry ι α} :
      Move t m (.commit id msg e rdy) { m with
        value := e.doSwap.doSwap m.value, trace := .lin ⟨e.rt, e.op, .msg msg⟩ :: m.trace }
        (.tryLp id msg ((e.rt, msg) :: rdy))
  | allReady {id : ℕ} : Move t m (.ready id []) m (.ret id .unit)
  | ready {id : ℕ} {r : ℕ × α} {rdy : List (ℕ × α)} :
      Move t m (.ready id (r :: rdy)) { m with readied := r :: m.readied } (.ready id rdy)
  | swap {id : ℕ} {via : Via ι} {d : Swap α} {x : α} :
      Move t m (.swap id via d x) { m with
        prio := 1, value := d.doSwap m.value
        trace := .lin ⟨id, .swap via d, .msg x⟩ :: m.trace } (.unlock id (.ret (.msg x)))
  | winOwn {id : ℕ} {d : Swap α} {n : ι} {x : α} (h : m.txid (.choice n) = 0) :
      Move t m (.matchOwn id d n x) { m.setTx (.choice n) 2 with
        prio := 1, trace := .lin ⟨id, .swap (.blockFn n) d, .msg x⟩ :: m.trace }
        (.unlock id (.ret (.msg x)))
  | againOwn {id : ℕ} {d : Swap α} {n : ι} {x : α} :
      Move t m (.matchOwn id d n x) m (.matchOwn id d n x)
  | loseOwn {id : ℕ} {d : Swap α} {n : ι} {x : α} :
      Move t m (.matchOwn id d n x) m (.unlock id .away)
  | enque {id : ℕ} {d : Swap α} {tx : TxId ι} {kept dropped : List (Entry ι α)}
      {readQ : ImpQueue.T (Entry ι α)} (h : m.readQ.contents = kept ++ dropped)
      (hdropped : ∀ e ∈ dropped, m.txid e.tx = 2) (hq : readQ.contents = kept ++ [⟨tx, id, d⟩]) :
      Move t m (.enque id d tx) { m with readQ := readQ } (.unlock id (.park tx))
  | unlock {id : ℕ} {after : Then ι α} :
      Move t m (.unlock id after) { m with lock := none } (after.pc id)
  | resume {id : ℕ} {tx : TxId ι} {x : α} (h : (id, x) ∈ m.readied) :
      Move t m (.parked id tx) m (.ret id (.msg x))
  | ret {id : ℕ} {r : Res α} :
      Move t m (.ret id r) { m with trace := .ret id r :: m.trace } .idle

variable {m s : Mem τ ι α} {pc l : Pc ι α} {t : τ}

/-- Every step is a move. -/
theorem move_of_step {k : Choice ι α} (h : step t k m pc = some (s, l)) : Move t m pc s l := by
  cases pc with
  | idle =>
    cases k with
    | start op =>
      cases h
      exact .start op
    | pollFn =>
      cases h
      obtain ⟨prio, hprio⟩ := pollFn_eq m
      rw [hprio]
      exact .poll prio
    | foreign n v =>
      simp only [step] at h
      split at h
      · obtain ⟨rfl, rfl⟩ : _ = s ∧ _ = l := by simpa using h
        exact .foreign ‹_›
      · cases h
    | clean seen => simp [step] at h
  | lock id op =>
    simp only [step] at h
    split at h
    · obtain ⟨rfl, rfl⟩ : _ = s ∧ _ = l := by simpa using h
      exact .acquire ‹_›
    · cases h
  | test id op =>
    cases op with
    | gPut x =>
      cases hv : m.value with
      | none =>
        obtain ⟨rfl, rfl⟩ : _ = s ∧ _ = l := by simpa [step, hv] using h
        exact .put hv
      | some v =>
        obtain ⟨rfl, rfl⟩ : _ = s ∧ _ = l := by simpa [step, hv] using h
        rw [← hv]
        exact .full hv
    | swap via d =>
      cases hv : m.value with
      | none =>
        cases via with
        | gSwap | blockFn n =>
          obtain ⟨rfl, rfl⟩ : _ = s ∧ _ = l := by simpa [step, hv] using h
          exact .wait hv rfl (by simp)
        | gSwapPoll =>
          obtain ⟨rfl, rfl⟩ : _ = s ∧ _ = l := by simpa [step, hv] using h
          rw [← hv]
          exact .empty hv
        | doitFn =>
          obtain ⟨rfl, rfl⟩ : _ = s ∧ _ = l := by simpa [step, hv] using h
          rw [← hv]
          exact .disabled hv
      | some x =>
        cases via with
        | blockFn n =>
          obtain ⟨rfl, rfl⟩ : _ = s ∧ _ = l := by simpa [step, hv] using h
          exact .foundOwn hv
        | gSwap | gSwapPoll | doitFn =>
          obtain ⟨rfl, rfl⟩ : _ = s ∧ _ = l := by simpa [step, hv] using h
          exact .found hv (by simp)
  | tryLp id msg rdy =>
    rcases cleanAndDeque_cases m k.seen with ⟨dropped, e, readQ, hq, hc, hd⟩ | ⟨readQ, hq, hc, hd⟩
    · obtain ⟨rfl, rfl⟩ : _ = s ∧ _ = l := by simpa [step, hq] using h
      exact .deque hc hd
    · obtain ⟨rfl, rfl⟩ : _ = s ∧ _ = l := by simpa [step, hq] using h
      exact .drained hc hd
  | matchLp id msg e rdy =>
    match hv : m.txid e.tx with
    | 0 =>
      obtain ⟨rfl, rfl⟩ : _ = s ∧ _ = l := by simpa [step, hv] using h
      exact .win hv
    | 1 =>
      obtain ⟨rfl, rfl⟩ : _ = s ∧ _ = l := by simpa [step, hv] using h
      exact .again
    | n + 2 =>
      obtain ⟨rfl, rfl⟩ : _ = s ∧ _ = l := by simpa [step, hv] using h
      exact .lose (by omega)
  | commit id msg e rdy =>
    cases h
    exact .commit
  | ready id rdy =>
    cases rdy with
    | nil =>
      cases h
      exact .allReady
    | cons r rdy =>
      cases h
      exact .ready
  | swap id via d x =>
    cases h
    exact .swap
  | matchOwn id d n x =>
    match hv : m.txid (.choice n) with
    | 0 =>
      obtain ⟨rfl, rfl⟩ : _ = s ∧ _ = l := by simpa [step, hv] using h
      exact .winOwn hv
    | 1 =>
      obtain ⟨rfl, rfl⟩ : _ = s ∧ _ = l := by simpa [step, hv] using h
      exact .againOwn
    | k + 2 =>
      obtain ⟨rfl, rfl⟩ : _ = s ∧ _ = l := by simpa [step, hv] using h
      exact .loseOwn
  | enque id d tx =>
    obtain ⟨kept, dropped, hc, hd, hq⟩ := enqueAndClean_cases m k.seen ⟨tx, id, d⟩
    cases h
    exact .enque hc hd hq
  | unlock id after =>
    cases h
    exact .unlock
  | parked id tx =>
    simp only [step] at h
    cases hl : m.readied.lookup id with
    | none => simp [hl] at h
    | some x =>
      obtain ⟨rfl, rfl⟩ : _ = s ∧ _ = l := by simpa [hl] using h
      obtain ⟨l₁, l₂, hmem, -⟩ := lookup_eq_some_iff.mp hl
      exact .resume (by simp [hmem])
  | ret id r =>
    cases h
    exact .ret
  | away => simp [step] at h

/-! ### Who holds what -/

section Tokens

omit [DecidableEq ι]

/-- The operations in the hands of a thread that have not taken effect: its own one, or the waiter
that it is about to serve. -/
def Pc.openOps : Pc ι α → List (ℕ × Op ι α)
  | .lock id op => [(id, op)]
  | .test id op => [(id, op)]
  | .matchLp _ _ e _ => [(e.rt, e.op)]
  | .commit _ _ e _ => [(e.rt, e.op)]
  | .swap id via d _ => [(id, .swap via d)]
  | .matchOwn id d n _ => [(id, .swap (.blockFn n) d)]
  | .enque id d tx => [(id, (Entry.mk tx id d).op)]
  | _ => []

/-- `readyList`: the waiters that a thread has served and not yet readied. -/
def Pc.rdys : Pc ι α → List (ℕ × α)
  | .tryLp _ _ rdy => rdy
  | .matchLp _ _ _ rdy => rdy
  | .commit _ _ _ rdy => rdy
  | .ready _ rdy => rdy
  | .unlock _ (.ready rdy) => rdy
  | _ => []

/-- What the operation of a thread will answer. -/
def Pc.results : Pc ι α → List (ℕ × Res α)
  | .tryLp id _ _ => [(id, .unit)]
  | .matchLp id _ _ _ => [(id, .unit)]
  | .commit id _ _ _ => [(id, .unit)]
  | .ready id _ => [(id, .unit)]
  | .unlock id (.ready _) => [(id, .unit)]
  | .unlock id (.ret r) => [(id, r)]
  | .ret id r => [(id, r)]
  | _ => []

section Equations

attribute [local simp] Pc.openOps Pc.rdys Pc.results

end Equations

/-- The operations that wait in the read queue. -/
def Mem.openOps (m : Mem τ ι α) : List (ℕ × Op ι α) :=
  m.readQ.contents.map fun e => (e.rt, e.op)

/-- An operation is a token: it is in the hands of a thread until it takes effect or waits, in the
read queue while it waits, in a ready list once it has been served, and then readied. -/
def Pc.tokens (pc : Pc ι α) : List ℕ := pc.openOps.map Prod.fst ++ pc.rdys.map Prod.fst

def Mem.tokens (m : Mem τ ι α) : List ℕ :=
  m.readQ.contents.map Entry.rt ++ m.readied.map Prod.fst

theorem Mem.tokens_eq (m : Mem τ ι α) :
    m.tokens = m.openOps.map Prod.fst ++ m.readied.map Prod.fst := by
  simp [Mem.tokens, Mem.openOps, Function.comp_def]

/-- Operation `p.1` has been invoked as `p.2` and has not taken effect. -/
def Open (t : List (Act ℕ (Op ι α) (Res α))) (p : ℕ × Op ι α) : Prop :=
  .inv p.1 p.2 ∈ t ∧ ∀ c ∈ points t, c.id ≠ p.1

/-- Operation `p.1` has taken effect with the answer `p.2`. -/
def Answered (t : List (Act ℕ (Op ι α) (Res α))) (p : ℕ × Res α) : Prop :=
  ∃ op, ⟨p.1, op, p.2⟩ ∈ points t

/-- What a step of a thread at `pc` can add to the trace. -/
inductive Grows (pc : Pc ι α) (m s : Mem τ ι α) : Prop
  | same (htrace : s.trace = m.trace) (hnext : s.next = m.next)
  | inv (op : Op ι α) (htrace : s.trace = .inv m.next op :: m.trace) (hnext : s.next = m.next + 1)
  | lin (p : ℕ × Op ι α) (r : Res α) (hp : p ∈ pc.openOps)
      (htrace : s.trace = .lin ⟨p.1, p.2, r⟩ :: m.trace) (hnext : s.next = m.next)
  | ret (p : ℕ × Res α) (hp : p ∈ pc.results) (htrace : s.trace = .ret p.1 p.2 :: m.trace)
      (hnext : s.next = m.next)

theorem Grows.open_mono {pc : Pc ι α} (h : Grows pc m s) {p : ℕ × Op ι α}
    (hp : Open m.trace p) (hne : p.1 ∉ pc.openOps.map Prod.fst) : Open s.trace p := by
  cases h with
  | same htrace _ => rwa [htrace]
  | inv op htrace _ | ret q _ htrace _ =>
    rw [htrace]
    exact ⟨mem_cons_of_mem _ hp.1, hp.2⟩
  | lin q r hq htrace _ =>
    rw [htrace]
    refine ⟨mem_cons_of_mem _ hp.1, ?_⟩
    rw [points_lin]
    rintro c (_ | ⟨_, hc⟩) heq
    · exact hne (mem_map.mpr ⟨q, hq, heq⟩)
    · exact hp.2 c hc heq

theorem Grows.answered_mono {pc : Pc ι α} (h : Grows pc m s) {p : ℕ × Res α}
    (hp : Answered m.trace p) : Answered s.trace p := by
  obtain ⟨op, hop⟩ := hp
  refine ⟨op, ?_⟩
  cases h with
  | same htrace _ | inv _ htrace _ | ret _ _ htrace _ => rwa [htrace]
  | lin q r hq htrace _ =>
    rw [htrace]
    exact mem_cons_of_mem _ hop

end Tokens

section

variable (h : Move t m pc s l)

include h

theorem Move.grows : Grows pc m s := by
  cases h with
  | start op => exact .inv op rfl rfl
  | put _ | full _ | empty _ | disabled _ | commit | swap | winOwn _ =>
    exact .lin _ _ (mem_singleton_self _) rfl rfl
  | ret => exact .ret _ (mem_singleton_self _) rfl rfl
  | _ => exact .same rfl rfl

/-- A step creates the token of the operation that it starts; otherwise it only moves and drops
tokens. -/
theorem Move.tokens : (l.tokens ++ s.tokens).Subperm
      ((if s.next = m.next then [] else [m.next]) ++ (pc.tokens ++ m.tokens)) := by
  rw [subperm_ext_iff]
  intro x _
  cases h with
  | deque h _ =>
    simp [Pc.tokens, Pc.openOps, Pc.rdys, Mem.tokens, h, count_cons]
    omega
  | drained h _ => simp [Pc.tokens, Pc.openOps, Pc.rdys, Mem.tokens, h]
  | enque h _ hq =>
    simp [Pc.tokens, Pc.openOps, Pc.rdys, Mem.tokens, h, hq, count_cons]
    omega
  | @unlock id after =>
    cases after <;> simp [Pc.tokens, Pc.openOps, Pc.rdys, Mem.tokens, Then.pc]
  | wait _ hop _ => simp [Pc.tokens, Pc.openOps, Pc.rdys, Mem.tokens]
  | _ => simp [Pc.tokens, Pc.openOps, Pc.rdys, Mem.tokens, Mem.setTx, count_cons] <;> omega

/-- An operation in the hands of a thread after its step. -/
theorem Move.openOps {p : ℕ × Op ι α} (hp : p ∈ l.openOps) :
    s.trace = m.trace ∧ (p ∈ pc.openOps ∨ p ∈ m.openOps) ∨
      p.1 = m.next ∧ s.trace = .inv p.1 p.2 :: m.trace := by
  cases h with
  | start op =>
    obtain rfl : p = (m.next, op) := by simpa [Pc.openOps] using hp
    exact .inr ⟨rfl, rfl⟩
  | @unlock id after => cases after <;> simp [Then.pc, Pc.openOps] at hp
  | wait _ hop _ => exact .inl ⟨rfl, .inl (by simpa [Pc.openOps, hop] using hp)⟩
  | deque h _ =>
    obtain rfl := mem_singleton.mp hp
    exact .inl ⟨rfl, .inr (mem_map.mpr ⟨_, by simp [h], rfl⟩)⟩
  | _ => simp_all [Pc.openOps, Mem.setTx]

/-- An operation in the read queue after a step. -/
theorem Move.queued {e : Entry ι α} (he : e ∈ s.readQ.contents) : e ∈ m.readQ.contents ∨
      s.trace = m.trace ∧ (e.rt, e.op) ∈ pc.openOps ∧ pc = .enque e.rt e.doSwap e.tx := by
  cases h with
  | deque h _ => exact .inl (by simp [h, he])
  | drained h _ => simp [h] at he
  | enque h _ hq =>
    rw [hq] at he
    rcases mem_append.mp he with he | he
    · exact .inl (by simp [h, he])
    · obtain rfl := mem_singleton.mp he
      exact .inr ⟨rfl, by simp [Pc.openOps], rfl⟩
  | _ => exact .inl he

/-- A waiter in the ready list after a step. -/
theorem Move.rdys
    {p : ℕ × α} (hp : p ∈ l.rdys) : p ∈ pc.rdys ∨ Answered s.trace (p.1, .msg p.2) := by
  cases h with
  | @unlock id after => cases after <;> simp_all [Then.pc, Pc.rdys]
  | commit =>
    rcases mem_cons.mp hp with rfl | hp
    · exact .inr ⟨_, mem_cons_self ..⟩
    · exact .inl hp
  | ready => exact .inl (mem_cons_of_mem _ hp)
  | _ => simp_all [Pc.rdys]

/-- A waiter that has been readied after a step. -/
theorem Move.readied {p : ℕ × α} (hp : p ∈ s.readied) : p ∈ m.readied ∨ p ∈ pc.rdys := by
  cases h with
  | ready =>
    rcases mem_cons.mp hp with rfl | hp
    · exact .inr (mem_cons_self ..)
    · exact .inl hp
  | _ => exact .inl hp

/-- An answer that a thread holds after its step. -/
theorem Move.results {p : ℕ × Res α} (hp : p ∈ l.results) :
    p ∈ pc.results ∨ Answered s.trace p ∨ ∃ x, p.2 = .msg x ∧ (p.1, x) ∈ m.readied := by
  cases h with
  | @unlock id after => cases after <;> simp_all [Then.pc, Pc.results]
  | put _ | full _ | empty _ | disabled _ | swap | winOwn _ =>
    obtain rfl := mem_singleton.mp hp
    exact .inr (.inl ⟨_, mem_cons_self ..⟩)
  | resume h =>
    obtain rfl := mem_singleton.mp hp
    exact .inr (.inr ⟨_, rfl, h⟩)
  | _ => simp_all [Pc.results]

end

/-! ### The invariant -/

section Invariant

/-- Every operation that has not taken effect is a token in one place, and what the places say of
it is so. -/
structure Inv (c : Config τ (Mem τ ι α) (Pc ι α)) : Prop where
  tokens : Exclusive Pc.tokens Mem.tokens c
  wf : WellFormed c.shared.trace
  invoked : ∀ i op, .inv i op ∈ c.shared.trace → i < c.shared.next
  held : ∀ t, ∀ p ∈ (c.loc t).openOps, Open c.shared.trace p
  queued : ∀ p ∈ c.shared.openOps, Open c.shared.trace p
  served : ∀ t, ∀ p ∈ (c.loc t).rdys, Answered c.shared.trace (p.1, .msg p.2)
  readied : ∀ p ∈ c.shared.readied, Answered c.shared.trace (p.1, .msg p.2)
  answered : ∀ t, ∀ p ∈ (c.loc t).results, Answered c.shared.trace p

variable {c : Config τ (Mem τ ι α) (Pc ι α)}

omit [DecidableEq ι] in
theorem Inv.lt_next (h : Inv c) {p : ℕ × Res α} (hp : Answered c.shared.trace p) :
    p.1 < c.shared.next := by
  obtain ⟨op, hop⟩ := hp
  exact h.invoked _ _ (h.wf.invoked _ hop)

omit [DecidableEq ι] in
theorem Inv.held_lt_next (h : Inv c) {i : ℕ} (hi : i ∈ (c.loc t).tokens) : i < c.shared.next := by
  rcases mem_append.mp hi with hi | hi
  · obtain ⟨p, hp, rfl⟩ := mem_map.mp hi
    exact h.invoked _ _ (h.held t p hp).1
  · obtain ⟨p, hp, rfl⟩ := mem_map.mp hi
    exact h.lt_next (h.served t p hp)

omit [DecidableEq ι] in
theorem Inv.lying_lt_next (h : Inv c) {i : ℕ} (hi : i ∈ c.shared.tokens) :
    i < c.shared.next := by
  rw [Mem.tokens_eq] at hi
  rcases mem_append.mp hi with hi | hi
  · obtain ⟨p, hp, rfl⟩ := mem_map.mp hi
    exact h.invoked _ _ (h.queued p hp).1
  · obtain ⟨p, hp, rfl⟩ := mem_map.mp hi
    exact h.lt_next (h.readied p hp)

theorem Inv.wf_step (h : Inv c) {s : Mem τ ι α} {l : Pc ι α}
    (hm : Move t c.shared (c.loc t) s l) : WellFormed s.trace := by
  cases hm.grows with
  | same htrace _ => rw [htrace]; exact h.wf
  | inv op htrace _ =>
    rw [htrace]
    exact .inv h.wf fun op' hop => lt_irrefl _ (h.invoked _ _ hop)
  | lin p r hp htrace _ =>
    rw [htrace]
    exact .lin h.wf (h.held t p hp).1 (h.held t p hp).2
  | ret p hp htrace _ =>
    rw [htrace]
    obtain ⟨op, hop⟩ := h.answered t p hp
    exact .ret h.wf hop

/-- What another thread or the read queue holds does not take effect in a step of thread `t`. -/
theorem Inv.open_step (h : Inv c) {s : Mem τ ι α} {l : Pc ι α}
    (hm : Move t c.shared (c.loc t) s l) {p : ℕ × Op ι α}
    (hp : (∃ u, u ≠ t ∧ p ∈ (c.loc u).openOps) ∨ p ∈ c.shared.openOps) : Open s.trace p := by
  rcases hp with ⟨u, hu, hp⟩ | hp
  · refine hm.grows.open_mono (h.held u p hp) fun hmem => ?_
    exact h.tokens.apart u t hu
      (mem_append_left _ (mem_map_of_mem (f := Prod.fst) hp))
      (mem_append_left _ hmem)
  · refine hm.grows.open_mono (h.queued p hp) fun hmem => ?_
    refine (nodup_append.mp (h.tokens.own t)).2.2 p.1 (mem_append_left _ hmem) p.1 ?_ rfl
    rw [Mem.tokens_eq]
    exact mem_append_left _ (mem_map_of_mem hp)

variable [DecidableEq τ]

theorem Inv.tokens_step (h : Inv c) {s : Mem τ ι α} {l : Pc ι α}
    (hm : Move t c.shared (c.loc t) s l) : Exclusive Pc.tokens Mem.tokens (c.put t s l) := by
  refine h.tokens.put (if s.next = c.shared.next then [] else [c.shared.next]) ?_ ?_ hm.tokens
  · split <;> simp
  · intro x hx
    obtain rfl : x = c.shared.next := by
      split at hx
      · cases hx
      · exact mem_singleton.mp hx
    exact ⟨fun hmem => lt_irrefl _ (h.lying_lt_next hmem),
      fun u hmem => lt_irrefl _ (h.held_lt_next hmem)⟩

theorem Inv.step (h : Inv c) {s : Mem τ ι α} {l : Pc ι α}
    (hm : Move t c.shared (c.loc t) s l) : Inv (c.put t s l) where
  tokens := h.tokens_step hm
  wf := h.wf_step hm
  invoked := by
    intro i op hi
    have hlt : .inv i op ∈ c.shared.trace → i < c.shared.next := h.invoked i op
    rw [put_shared] at hi ⊢
    cases hm.grows with
    | same htrace hnext => rw [htrace] at hi; rw [hnext]; exact hlt hi
    | inv op' htrace hnext =>
      rw [htrace] at hi
      rcases mem_cons.mp hi with heq | hi
      · cases heq
        omega
      · have := hlt hi
        omega
    | lin p r _ htrace hnext | ret p _ htrace hnext =>
      rw [htrace] at hi
      rw [hnext]
      exact hlt ((mem_cons.mp hi).resolve_left (by simp))
  held := by
    intro u p hp
    by_cases hu : u = t
    · subst hu
      rw [put_loc_self] at hp
      rcases hm.openOps hp with ⟨htrace, hp | hp⟩ | ⟨hid, htrace⟩
      · rw [put_shared, htrace]
        exact h.held u p hp
      · rw [put_shared, htrace]
        exact h.queued p hp
      · rw [put_shared, htrace]
        refine ⟨mem_cons_self .., fun d hd heq => ?_⟩
        have := h.invoked _ _ (h.wf.invoked d hd)
        omega
    · rw [put_loc_of_ne hu] at hp
      exact h.open_step hm (.inl ⟨u, hu, hp⟩)
  queued := by
    intro p hp
    obtain ⟨e, he, rfl⟩ := mem_map.mp hp
    rcases hm.queued he with he | ⟨htrace, he, -⟩
    · exact h.open_step hm (.inr (mem_map.mpr ⟨e, he, rfl⟩))
    · rw [put_shared, htrace]
      exact h.held t _ he
  served := by
    intro u p hp
    by_cases hu : u = t
    · subst hu
      rw [put_loc_self] at hp
      rcases hm.rdys hp with hp | hp
      · exact hm.grows.answered_mono (h.served u p hp)
      · exact hp
    · rw [put_loc_of_ne hu] at hp
      exact hm.grows.answered_mono (h.served u p hp)
  readied := by
    intro p hp
    rcases hm.readied hp with hp | hp
    · exact hm.grows.answered_mono (h.readied p hp)
    · exact hm.grows.answered_mono (h.served t p hp)
  answered := by
    intro u p hp
    by_cases hu : u = t
    · subst hu
      rw [put_loc_self] at hp
      rcases hm.results hp with hp | hp | ⟨x, hx, hp⟩
      · exact hm.grows.answered_mono (h.answered u p hp)
      · exact hp
      · rw [← Prod.eta p, hx]
        exact hm.grows.answered_mono (h.readied _ hp)
    · rw [put_loc_of_ne hu] at hp
      exact hm.grows.answered_mono (h.answered u p hp)

omit [DecidableEq τ] [DecidableEq ι] in
theorem inv_of_initial {value : Option α} (h : Initial value c) : Inv c := by
  obtain ⟨hshared, hloc⟩ := h
  refine ⟨⟨?_, fun t => ?_, fun t u _ => ?_⟩, ?_, ?_, fun t => ?_, ?_, fun t => ?_, ?_, fun t => ?_⟩
  all_goals
    simp [hshared, hloc, Mem.init, Mem.tokens, Mem.openOps, Pc.tokens, Pc.openOps, Pc.rdys,
      Pc.results, WellFormed.nil]

theorem inv_of_reachable {C : Config τ (Mem τ ι α) (Pc ι α) → τ × Choice ι α → Prop}
    {value : Option α} (h : (cellProcess τ ι α).ReachableWhile C (Initial value) c) : Inv c :=
  h.invariant (I := Inv) (fun _ h => inv_of_initial h)
    fun _ _ _ _ _ _ _ h hstep => h.step (move_of_step hstep)

end Invariant

end MultiMLton.SyncVar
