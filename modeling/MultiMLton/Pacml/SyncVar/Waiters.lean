import MultiMLton.Pacml.SyncVar.Invariant

/-!
# Where the waiters of a cell are

* `OwnIds`: nobody but the relaying thread moves the transaction id of a `gSwap`;
* `Running`: an operation that a thread runs has not returned;
* `Placed`: a waiter is in the read queue, in the hands of a thread that relays, in its ready list,
  readied, or its choice has been committed elsewhere;
* `placed_of_waiting`;
* `won_nodup`: of the events of one choice at most one is committed on the cell.
-/

namespace MultiMLton.SyncVar

open Linearizability Interleave List
open Config (put_loc_of_ne put_loc_self put_shared)

variable {τ ι α : Type*}

/-- The operation that a thread runs. -/
def Pc.opId : Pc ι α → List ℕ
  | .idle => []
  | .lock id _ => [id]
  | .test id _ => [id]
  | .tryLp id _ _ => [id]
  | .matchLp id _ _ _ => [id]
  | .commit id _ _ _ => [id]
  | .ready id _ => [id]
  | .swap id _ _ _ => [id]
  | .matchOwn id _ _ _ => [id]
  | .enque id _ _ => [id]
  | .unlock _ .away => []
  | .unlock id _ => [id]
  | .parked id _ => [id]
  | .ret id _ => [id]
  | .away => []

/-- The waiter that a relaying thread has taken from the read queue. -/
def Pc.hand : Pc ι α → Option (Entry ι α)
  | .matchLp _ _ e _ => some e
  | .commit _ _ e _ => some e
  | _ => none

/-- The operation and the transaction id of a thread that waits. -/
def Pc.waits : Pc ι α → Option (ℕ × TxId ι)
  | .unlock id (.park tx) => some (id, tx)
  | .parked id tx => some (id, tx)
  | _ => none

/-- The operations in the hands of a thread whose own transaction id is unused. -/
def Pc.unused : Pc ι α → List ℕ
  | .commit _ _ _ _ => []
  | pc => pc.openOps.map Prod.fst

/-- The entries that a thread has or makes. -/
def Pc.entries : Pc ι α → List (Entry ι α)
  | .matchLp _ _ e _ => [e]
  | .commit _ _ e _ => [e]
  | .enque id d tx => [⟨tx, id, d⟩]
  | _ => []

/-- The choice that a call has committed from its `blockFn`. -/
def wonChoice : Call ℕ (Op ι α) (Res α) → Option ι
  | ⟨_, .swap (.blockFn n) _, .msg _⟩ => some n
  | _ => none

/-- The choices that have been committed on the cell. -/
def Mem.won (m : Mem τ ι α) : List ι := (points m.trace).filterMap wonChoice

/-- The choice that a relaying thread has won and whose waiter it serves next. -/
def Pc.winning : Pc ι α → List ι
  | .commit _ _ ⟨.choice n, _, _⟩ _ => [n]
  | _ => []

/-- A `blockFn` commits in its own `matchLp` or when it is served. -/
def Pc.Direct : Pc ι α → Prop
  | .swap _ via _ _ => ∀ n, via ≠ .blockFn n
  | _ => True

/-- The transaction id of an entry is that of its operation or that of a choice. -/
def Entry.Owned (e : Entry ι α) : Prop := ∀ j, e.tx = .own j → j = e.rt

theorem Pc.mem_tokens_of_unused {pc : Pc ι α} {i : ℕ} (h : i ∈ pc.unused) : i ∈ pc.tokens := by
  cases pc with
  | commit => cases h
  | _ => exact mem_append_left _ h

variable {e : Entry ι α}

theorem Pc.mem_tokens_of_hand {pc : Pc ι α} (h : pc.hand = some e) : (e.rt, e.op) ∈ pc.openOps := by
  cases pc <;> simp_all [Pc.hand, Pc.openOps]

/-- An entry whose transaction id has become `2` is one of a choice. -/
theorem Entry.choice_of_two {m : Mem τ ι α} (howned : e.Owned)
    (h0 : m.txid (.own e.rt) = 0) (h2 : 2 ≤ m.txid e.tx) : ∃ n, e.tx = .choice n := by
  cases htx : e.tx with
  | choice n => exact ⟨n, rfl⟩
  | own j =>
    obtain rfl := howned j htx
    rw [htx, h0] at h2
    omega

section Moves

variable [DecidableEq ι] {t : τ} {m s : Mem τ ι α} {pc l : Pc ι α}

section

variable (h : Move t m pc s l)

include h

theorem Move.opId :
    (l.opId ++ []).Subperm ((if s.next = m.next then [] else [m.next]) ++ (pc.opId ++ [])) := by
  cases h with
  | @unlock id after => cases after <;> simp [Then.pc, Pc.opId]
  | _ => simp [Pc.opId, Mem.setTx]

theorem Move.returned {i : ℕ} {r : Res α} (hr : .ret i r ∈ s.trace) :
    .ret i r ∈ m.trace ∨ i ∈ pc.opId ∧ l.opId = [] := by
  cases h with
  | ret =>
    rcases mem_cons.mp hr with heq | hr
    · cases heq
      exact .inr ⟨mem_singleton_self _, rfl⟩
    · exact .inl hr
  | _ => exact .inl (by simpa [Mem.setTx] using hr)

/-- Only the relaying thread moves the transaction id of a `gSwap`. -/
theorem Move.own_txid (hpc : ∀ e ∈ pc.entries, e.Owned) {j : ℕ}
    (hj : j ∉ pc.unused) : s.txid (.own j) = m.txid (.own j) := by
  cases h with
  | foreign _ | winOwn _ => simp [Mem.setTx]
  | @win id msg rdy e _ =>
    refine Function.update_of_ne (fun heq => hj ?_) _ _
    rw [hpc e (mem_singleton_self _) j heq.symm]
    exact mem_singleton_self _
  | _ => rfl

theorem Move.unused {i : ℕ} (hi : i ∈ l.unused) : s.txid (.own i) = m.txid (.own i) ∧
      (i ∈ pc.unused ∨ i ∈ m.readQ.contents.map Entry.rt ∨ i = m.next) := by
  cases h with
  | @unlock id after => cases after <;> simp [Then.pc, Pc.unused, Pc.openOps] at hi
  | deque h _ =>
    obtain rfl : i = _ := by simpa [Pc.unused, Pc.openOps] using hi
    exact ⟨rfl, .inr (.inl (by simp [h]))⟩
  | _ => simp_all [Pc.unused, Pc.openOps]

theorem Move.entries (he : e ∈ l.entries) : e ∈ pc.entries ∨ e ∈ m.readQ.contents ∨ e.Owned := by
  cases h with
  | @unlock id after => cases after <;> simp [Then.pc, Pc.entries] at he
  | deque h _ =>
    obtain rfl := mem_singleton.mp he
    exact .inr (.inl (by simp [h]))
  | wait _ _ htx =>
    obtain rfl := mem_singleton.mp he
    exact .inr (.inr htx)
  | _ => simp_all [Pc.entries]

theorem Move.txid_two {tx : TxId ι} (htx : m.txid tx = 2) : s.txid tx = 2 := by
  have update : ∀ tx', m.txid tx' ≠ 2 ∨ tx' ≠ tx → ∀ v, (m.setTx tx' v).txid tx = 2 := by
    intro tx' hne v
    have : tx ≠ tx' := by
      rintro rfl
      exact hne.elim (fun h => h htx) fun h => h rfl
    simpa [Mem.setTx, this] using htx
  cases h with
  | @foreign n v h =>
    refine update _ (.inl fun heq => ?_) v
    rw [heq] at h
    simp [foreignMove] at h
  | win h | winOwn h => exact update _ (.inl (by omega)) 2
  | _ => exact htx

theorem Move.txid_le_two (hle : ∀ tx, m.txid tx ≤ 2) (tx : TxId ι) : s.txid tx ≤ 2 := by
  have update : ∀ tx' v, v ≤ 2 → (m.setTx tx' v).txid tx ≤ 2 := by
    intro tx' v hv
    unfold Mem.setTx
    by_cases htx : tx = tx'
    · subst htx
      simpa using hv
    · simpa [htx] using hle tx
  cases h with
  | @foreign n v h =>
    refine update _ v ?_
    revert h
    unfold foreignMove
    split
    · simp; omega
    · simp; omega
    · simp
  | win _ | winOwn _ => exact update _ 2 le_rfl
  | _ => exact hle tx

/-- An entry of the read queue stays there, is taken, or is dropped when it is of no use. -/
theorem Move.dequeued (he : e ∈ m.readQ.contents) :
    e ∈ s.readQ.contents ∨ l.hand = some e ∨ m.txid e.tx = 2 ∧ s.txid = m.txid ∧
      s.trace = m.trace ∧ (e.rt :: (l.tokens ++ s.tokens)).Subperm (pc.tokens ++ m.tokens) := by
  cases h with
  | @deque id msg rdy e' dropped readQ h hdropped =>
    rw [h] at he
    rcases mem_append.mp he with hd | hd
    · refine .inr (.inr ⟨hdropped e hd, rfl, rfl, ?_⟩)
      obtain ⟨d₁, d₂, rfl⟩ := append_of_mem hd
      rw [subperm_ext_iff]
      intro x _
      simp [Pc.tokens, Pc.openOps, Pc.rdys, Mem.tokens, h, count_cons]
      omega
    · rcases mem_cons.mp hd with rfl | hd
      · exact .inr (.inl rfl)
      · exact .inl hd
  | @drained id msg rdy readQ h hdropped =>
    refine .inr (.inr ⟨hdropped e he, rfl, rfl, ?_⟩)
    obtain ⟨d₁, d₂, hd⟩ := append_of_mem he
    rw [subperm_ext_iff]
    intro x _
    simp [Pc.tokens, Pc.openOps, Pc.rdys, Mem.tokens, h, hd, count_cons]
    omega
  | @enque id d tx kept dropped readQ h hdropped hq =>
    rw [h] at he
    rcases mem_append.mp he with hd | hd
    · exact .inl (by simp [hq, hd])
    · refine .inr (.inr ⟨hdropped e hd, rfl, rfl, ?_⟩)
      obtain ⟨d₁, d₂, rfl⟩ := append_of_mem hd
      rw [subperm_ext_iff]
      intro x _
      simp [Pc.tokens, Pc.openOps, Pc.rdys, Mem.tokens, h, hq, count_cons]
      omega
  | _ => exact .inl he

/-- A relaying thread keeps the waiter that it has taken, serves it, or drops it when it is of no
use. -/
theorem Move.handed (he : pc.hand = some e) : l.hand = some e ∨ (∃ x, (e.rt, x) ∈ l.rdys) ∨
      (e.rt ∈ pc.unused ∧ e ∈ pc.entries) ∧ 2 ≤ m.txid e.tx ∧ s.txid = m.txid ∧
        s.trace = m.trace ∧ (e.rt :: (l.tokens ++ s.tokens)).Subperm (pc.tokens ++ m.tokens) := by
  cases h with
  | win _ | again => exact .inl he
  | @lose id msg rdy e' h =>
    cases he
    refine .inr (.inr ⟨⟨mem_singleton_self _, mem_singleton_self _⟩, h, rfl, rfl, ?_⟩)
    exact Subperm.refl _
  | @commit id msg rdy e' =>
    cases he
    exact .inr (.inl ⟨msg, mem_cons_self ..⟩)
  | _ => cases he

theorem Move.direct : l.Direct := by
  cases h with
  | @unlock id after => cases after <;> trivial
  | found _ hvia => exact hvia
  | _ => trivial

/-- A step that commits a choice moves its transaction id from `0` to `2`. -/
theorem Move.won (hpc : pc.Direct) : ∃ new : List ι, new.Nodup ∧
    (∀ n ∈ new, m.txid (.choice n) = 0 ∧ s.txid (.choice n) = 2) ∧
      (l.winning ++ s.won).Subperm (new ++ (pc.winning ++ m.won)) := by
  cases h with
  | @win id msg rdy e h =>
    obtain ⟨tx, rt, d⟩ := e
    cases tx with
    | own j => exact ⟨[], by simp, by simp, Subperm.refl _⟩
    | choice n =>
      refine ⟨[n], by simp, ?_, Subperm.refl _⟩
      intro n' hn
      obtain rfl := mem_singleton.mp hn
      exact ⟨h, by simp [Mem.setTx]⟩
  | @winOwn id d n x h =>
    refine ⟨[n], by simp, ?_, Subperm.refl _⟩
    intro n' hn
    obtain rfl := mem_singleton.mp hn
    exact ⟨h, by simp [Mem.setTx]⟩
  | @commit id msg rdy e =>
    obtain ⟨tx, rt, d⟩ := e
    cases tx with
    | own j | choice n => exact ⟨[], by simp, by simp, Subperm.refl _⟩
  | @unlock id after => cases after <;> exact ⟨[], by simp, by simp, Subperm.refl _⟩
  | @swap id via d x =>
    cases via with
    | blockFn n => exact absurd rfl (hpc n)
    | _ => exact ⟨[], by simp, by simp, Subperm.refl _⟩
  | _ => exact ⟨[], by simp, by simp, Subperm.refl _⟩

theorem Move.kept_served {p : ℕ × α} (hp : p ∈ pc.rdys) : p ∈ l.rdys ∨ p ∈ s.readied := by
  cases h with
  | @unlock id after => cases after <;> simp_all [Pc.rdys, Then.pc]
  | commit => exact .inl (mem_cons_of_mem _ hp)
  | ready =>
    rcases mem_cons.mp hp with rfl | hp
    · exact .inr (mem_cons_self ..)
    · exact .inl hp
  | _ => exact .inl hp

theorem Move.kept_readied {p : ℕ × α} (hp : p ∈ m.readied) : p ∈ s.readied := by
  cases h with
  | ready => exact mem_cons_of_mem _ hp
  | _ => exact hp

theorem Move.waits {id : ℕ} {tx : TxId ι} (hl : l.waits = some (id, tx)) :
    pc.waits = some (id, tx) ∨ ∃ e ∈ s.readQ.contents, e.rt = id ∧ e.tx = tx := by
  cases h with
  | @unlock id after => cases after <;> simp_all [Pc.waits, Then.pc]
  | @enque id' d tx' kept dropped readQ _ _ hq =>
    obtain ⟨rfl, rfl⟩ := Prod.mk.inj (Option.some.inj hl)
    exact .inr ⟨⟨tx', id', d⟩, by simp [hq], rfl, rfl⟩
  | _ => cases hl

end

end Moves

section Runs

variable [DecidableEq τ] [DecidableEq ι] {c : Config τ (Mem τ ι α) (Pc ι α)}
  {C : Config τ (Mem τ ι α) (Pc ι α) → τ × Choice ι α → Prop} {value : Option α}

/-! ### Transaction ids of `gSwap` -/

/-- The transaction id of a `gSwap` is `0` until a relay wins it. -/
structure OwnIds (c : Config τ (Mem τ ι α) (Pc ι α)) : Prop where
  fresh : ∀ j, c.shared.next ≤ j → c.shared.txid (.own j) = 0
  queued : ∀ e ∈ c.shared.readQ.contents, c.shared.txid (.own e.rt) = 0 ∧ e.Owned
  held : ∀ t, ∀ i ∈ (c.loc t).unused, c.shared.txid (.own i) = 0
  owned : ∀ t, ∀ e ∈ (c.loc t).entries, e.Owned

variable {s : Mem τ ι α} {l : Pc ι α}

theorem OwnIds.step (h : OwnIds c) (hinv : Inv c) {t : τ}
    (hm : Move t c.shared (c.loc t) s l) : OwnIds (c.put t s l) := by
  have keep : ∀ j, j ∉ (c.loc t).unused → c.shared.txid (.own j) = 0 → s.txid (.own j) = 0 :=
    fun j hj h0 => (hm.own_txid (h.owned t) hj).trans h0
  -- the tokens of the read queue and of other threads are not the one that `t` can win
  have hqueue : ∀ e ∈ c.shared.readQ.contents, e.rt ∉ (c.loc t).unused := by
    intro e he hmem
    refine (nodup_append.mp (hinv.tokens.own t)).2.2 e.rt (Pc.mem_tokens_of_unused hmem)
      e.rt ?_ rfl
    exact mem_append_left _ (mem_map_of_mem he)
  refine ⟨fun j hj => ?_, fun e he => ?_, fun u i hi => ?_, fun u e he => ?_⟩
  · rw [put_shared] at hj ⊢
    have hle : c.shared.next ≤ s.next := by
      cases hm.grows <;> omega
    refine keep j (fun hmem => ?_) (h.fresh j (by omega))
    have := hinv.held_lt_next (Pc.mem_tokens_of_unused hmem)
    omega
  · rcases hm.queued he with he | ⟨-, -, hpc⟩
    · exact ⟨keep _ (hqueue e he) (h.queued e he).1, (h.queued e he).2⟩
    · have hentry : e ∈ (c.loc t).entries := by
        rw [hpc]
        exact mem_singleton_self _
      have hunused : e.rt ∈ (c.loc t).unused := by
        rw [hpc]
        exact mem_singleton_self _
      rw [hpc] at hm
      refine ⟨?_, h.owned t e hentry⟩
      cases hm
      exact h.held t _ hunused
  · by_cases hu : u = t
    · subst hu
      rw [put_loc_self] at hi
      obtain ⟨htx, hi | hi | rfl⟩ := hm.unused hi
      · exact htx.trans (h.held u i hi)
      · obtain ⟨e, he, rfl⟩ := mem_map.mp hi
        exact htx.trans (h.queued e he).1
      · exact htx.trans (h.fresh _ le_rfl)
    · rw [put_loc_of_ne hu] at hi
      refine keep i (fun hmem => ?_) (h.held u i hi)
      exact hinv.tokens.apart u t hu (Pc.mem_tokens_of_unused hi) (Pc.mem_tokens_of_unused hmem)
  · by_cases hu : u = t
    · subst hu
      rw [put_loc_self] at he
      rcases hm.entries he with he | he | he
      · exact h.owned u e he
      · exact (h.queued e he).2
      · exact he
    · rw [put_loc_of_ne hu] at he
      exact h.owned u e he

theorem ownIds_of_reachable (h : (cellProcess τ ι α).ReachableWhile C (Initial value) c) :
    OwnIds c := by
  refine h.invariant (I := OwnIds) ?_ ?_
  · intro c hc
    refine ⟨?_, ?_, fun t => ?_, fun t => ?_⟩
    all_goals simp [hc.1, hc.2, Mem.init, Pc.unused, Pc.openOps, Pc.entries]
  · intro c t k s l hr _ hI hstep
    exact hI.step (inv_of_reachable hr) (move_of_step hstep)

/-! ### Operations that are running -/

/-- No two threads run one operation, and an operation that is run has not returned. -/
structure Running (c : Config τ (Mem τ ι α) (Pc ι α)) : Prop where
  apart : Exclusive Pc.opId (fun _ => []) c
  lt_next : ∀ t, ∀ i ∈ (c.loc t).opId, i < c.shared.next
  not_returned : ∀ t, ∀ i ∈ (c.loc t).opId, ∀ r, .ret i r ∉ c.shared.trace

theorem Running.step (h : Running c) (hinv : Inv c) {t : τ}
    (hm : Move t c.shared (c.loc t) s l) : Running (c.put t s l) := by
  have hold : ∀ i ∈ l.opId, i ∈ (c.loc t).opId ∨ i = c.shared.next ∧ s.next = i + 1 := by
    intro i hi
    have hmem := hm.opId.subset (mem_append_left _ hi)
    rw [append_nil] at hmem
    rcases mem_append.mp hmem with hmem | hmem
    · split at hmem
      · cases hmem
      · obtain rfl := mem_singleton.mp hmem
        refine .inr ⟨rfl, ?_⟩
        cases hm.grows <;> omega
    · exact .inl hmem
  have hle : c.shared.next ≤ s.next := by
    cases hm.grows <;> omega
  have hlt : ∀ u, ∀ i ∈ ((c.put t s l).loc u).opId, i < s.next := by
    intro u i hi
    by_cases hu : u = t
    · subst hu
      rw [put_loc_self] at hi
      rcases hold i hi with hi | ⟨-, hnext⟩
      · have := h.lt_next u i hi
        omega
      · omega
    · rw [put_loc_of_ne hu] at hi
      have := h.lt_next u i hi
      omega
  refine ⟨h.apart.put (if s.next = c.shared.next then [] else [c.shared.next]) ?_ ?_ hm.opId,
    hlt, fun u i hi r hret => ?_⟩
  · split <;> simp
  · intro x hx
    obtain rfl : x = c.shared.next := by
      split at hx
      · cases hx
      · exact mem_singleton.mp hx
    exact ⟨by simp, fun u hmem => lt_irrefl _ (h.lt_next u _ hmem)⟩
  · rw [put_shared] at hret
    by_cases hu : u = t
    · subst hu
      rw [put_loc_self] at hi
      rcases hm.returned hret with hret | ⟨-, hl⟩
      · rcases hold i hi with hi | ⟨rfl, -⟩
        · exact h.not_returned u i hi r hret
        · obtain ⟨op, hop⟩ := hinv.wf.completed hret
          exact lt_irrefl _ (hinv.invoked _ _ (hinv.wf.invoked _ hop))
      · rw [hl] at hi
        cases hi
    · rw [put_loc_of_ne hu] at hi
      rcases hm.returned hret with hret | ⟨hmem, -⟩
      · exact h.not_returned u i hi r hret
      · exact h.apart.apart u t hu hi hmem

theorem running_of_reachable (h : (cellProcess τ ι α).ReachableWhile C (Initial value) c) :
    Running c := by
  refine h.invariant (I := Running) ?_ ?_
  · intro c hc
    refine ⟨⟨nodup_nil, fun t => ?_, fun t u _ => ?_⟩, fun t => ?_, fun t => ?_⟩
    all_goals simp [hc.2, Pc.opId]
  · intro c t k s l hr _ hI hstep
    exact hI.step (inv_of_reachable hr) (move_of_step hstep)

/-! ### Places -/

/-- The operation has not taken effect, and it is nowhere any more. -/
def Lost (c : Config τ (Mem τ ι α) (Pc ι α)) (id : ℕ) : Prop :=
  id < c.shared.next ∧ (∀ d ∈ points c.shared.trace, d.id ≠ id) ∧ id ∉ c.shared.tokens ∧
    ∀ t, id ∉ (c.loc t).tokens

/-- Where the waiter `id` with transaction id `tx` is. -/
inductive Placed (c : Config τ (Mem τ ι α) (Pc ι α)) (id : ℕ) (tx : TxId ι) : Prop
  | queued (e : Entry ι α) (he : e ∈ c.shared.readQ.contents) (hid : e.rt = id) (htx : e.tx = tx)
  | hand (t : τ) (e : Entry ι α) (he : (c.loc t).hand = some e) (hid : e.rt = id) (htx : e.tx = tx)
  | served (t : τ) (x : α) (hx : (id, x) ∈ (c.loc t).rdys)
  | readied (x : α) (hx : (id, x) ∈ c.shared.readied)
  | elsewhere (n : ι) (htx : tx = .choice n) (h2 : c.shared.txid tx = 2) (hlost : Lost c id)

/-- A token that a step drops without effect is lost. -/
theorem lost_of_dropped (hinv : Inv c) {t : τ}
    (hm : Move t c.shared (c.loc t) s l) {id : ℕ} (htrace : s.trace = c.shared.trace)
    (hid : id ∈ (c.loc t).openOps.map Prod.fst ∨ id ∈ c.shared.openOps.map Prod.fst)
    (hdrop : id ∉ l.tokens ++ s.tokens) : Lost (c.put t s l) id := by
  have hmem : id ∈ (c.loc t).tokens ++ c.shared.tokens := by
    rw [Mem.tokens_eq]
    rcases hid with hid | hid
    · exact mem_append_left _ (mem_append_left _ hid)
    · exact mem_append_right _ (mem_append_left _ hid)
  have hopen : ∃ op, Open c.shared.trace (id, op) := by
    rcases hid with hid | hid
    · obtain ⟨p, hp, rfl⟩ := mem_map.mp hid
      exact ⟨p.2, hinv.held t p hp⟩
    · obtain ⟨p, hp, rfl⟩ := mem_map.mp hid
      exact ⟨p.2, hinv.queued p hp⟩
  obtain ⟨op, hinvoked, hpoints⟩ := hopen
  refine ⟨(hinv.step hm).invoked id op ?_, ?_, fun h => hdrop (mem_append_right _ h),
    fun u hu => ?_⟩
  · rwa [put_shared, htrace]
  · rwa [put_shared, htrace]
  · by_cases hut : u = t
    · subst hut
      rw [put_loc_self] at hu
      exact hdrop (mem_append_left _ hu)
    · rw [put_loc_of_ne hut] at hu
      rcases mem_append.mp hmem with hmem | hmem
      · exact hinv.tokens.apart u t hut hu hmem
      · exact (nodup_append.mp (hinv.tokens.own u)).2.2 id hu id hmem rfl

/-- What is lost stays lost. -/
theorem Lost.step {id : ℕ} (h : Lost c id) {t : τ}
    (hm : Move t c.shared (c.loc t) s l) : Lost (c.put t s l) id := by
  obtain ⟨hlt, hpoints, hpool, hheld⟩ := h
  have hgone : id ∉ l.tokens ++ s.tokens := by
    intro hmem
    rcases mem_append.mp (hm.tokens.subset hmem) with hmem | hmem
    · split at hmem
      · cases hmem
      · have := mem_singleton.mp hmem
        omega
    · rcases mem_append.mp hmem with hmem | hmem
      · exact hheld t hmem
      · exact hpool hmem
  refine ⟨?_, ?_, fun h => hgone (mem_append_right _ h), fun u hu => ?_⟩
  · rw [put_shared]
    cases hm.grows <;> omega
  · rw [put_shared]
    cases hm.grows with
    | same htrace _ | inv _ htrace _ | ret _ _ htrace _ => rwa [htrace]
    | lin p r hp htrace _ =>
      rw [htrace, points_lin]
      rintro d (_ | ⟨_, hd⟩) heq
      · exact hheld t (mem_append_left _ (mem_map.mpr ⟨p, hp, heq⟩))
      · exact hpoints d hd heq
  · by_cases hut : u = t
    · subst hut
      rw [put_loc_self] at hu
      exact hgone (mem_append_left _ hu)
    · rw [put_loc_of_ne hut] at hu
      exact hheld u hu

theorem txid_le_two (h : (cellProcess τ ι α).ReachableWhile C (Initial value) c) (tx : TxId ι) :
    c.shared.txid tx ≤ 2 := by
  refine h.invariant (I := fun c => ∀ tx, c.shared.txid tx ≤ 2) ?_ ?_ tx
  · intro c hc tx
    simp [hc.1, Mem.init]
  · intro c t k s l _ _ hI hstep
    exact (move_of_step hstep).txid_le_two hI

/-- A waiter that is dropped is one whose choice has been committed elsewhere. -/
theorem placed_of_dropped (hinv : Inv c) (hown : OwnIds c) {t : τ}
    (hm : Move t c.shared (c.loc t) s l)
    (he : (c.loc t).hand = some e ∧ c.shared.txid (.own e.rt) = 0 ∧ e.Owned ∨
      e ∈ c.shared.readQ.contents) (htx : c.shared.txid e.tx = 2) (htxid : s.txid = c.shared.txid)
    (htrace : s.trace = c.shared.trace)
    (hsub : (e.rt :: (l.tokens ++ s.tokens)).Subperm ((c.loc t).tokens ++ c.shared.tokens)) :
    Placed (c.put t s l) e.rt e.tx := by
  obtain ⟨l', hperm, hsublist⟩ := hsub
  have hnodup := hperm.nodup_iff.mp ((hinv.tokens.own t).sublist hsublist)
  have hlost : Lost (c.put t s l) e.rt := by
    refine lost_of_dropped hinv hm htrace ?_ (nodup_cons.mp hnodup).1
    rcases he with ⟨he, -, -⟩ | he
    · exact .inl (mem_map.mpr ⟨_, Pc.mem_tokens_of_hand he, rfl⟩)
    · exact .inr (mem_map.mpr ⟨_, mem_map.mpr ⟨e, he, rfl⟩, rfl⟩)
  have hchoice : ∃ n, e.tx = .choice n := by
    rcases he with ⟨-, h0, howned⟩ | he
    · exact Entry.choice_of_two howned h0 (by omega)
    · exact Entry.choice_of_two (hown.queued e he).2 (hown.queued e he).1 (by omega)
  obtain ⟨n, hn⟩ := hchoice
  exact .elsewhere n hn (by rw [put_shared, htxid, htx]) hlost

theorem Placed.step (hinv : Inv c) (hown : OwnIds c) (hle : ∀ tx, c.shared.txid tx ≤ 2) {t : τ}
    (hm : Move t c.shared (c.loc t) s l) {id : ℕ} {tx : TxId ι}
    (h : Placed c id tx) : Placed (c.put t s l) id tx := by
  cases h with
  | queued e he hid htx =>
    rcases hm.dequeued he with hs | hl | ⟨h2, htxid, htrace, hsub⟩
    · exact .queued e hs hid htx
    · exact .hand t e (by simpa using hl) hid htx
    · rw [← hid, ← htx]
      exact placed_of_dropped hinv hown hm (.inr he) h2 htxid htrace hsub
  | hand u e he hid htx =>
    by_cases hu : u = t
    · subst hu
      rcases hm.handed he with hl | ⟨x, hx⟩ | ⟨hunused, h2, htxid, htrace, hsub⟩
      · exact .hand u e (by simpa using hl) hid htx
      · exact .served u x (by simpa [hid] using hx)
      · rw [← hid, ← htx]
        have h2' : c.shared.txid e.tx = 2 := le_antisymm (hle _) h2
        exact placed_of_dropped hinv hown hm
          (.inl ⟨he, hown.held u _ hunused.1, hown.owned u e hunused.2⟩) h2' htxid htrace hsub
    · exact .hand u e (by simpa [hu] using he) hid htx
  | served u x hx =>
    by_cases hu : u = t
    · subst hu
      rcases hm.kept_served hx with hl | hs
      · exact .served u x (by simpa using hl)
      · exact .readied x hs
    · exact .served u x (by simpa [hu] using hx)
  | readied x hx => exact .readied x (hm.kept_readied hx)
  | elsewhere n htx h2 hlost => exact .elsewhere n htx (hm.txid_two h2) (hlost.step hm)

/-- A thread that waits is in the read queue, in the hands of a relaying thread, readied, or its
choice has been committed elsewhere. -/
theorem placed_of_waiting (h : (cellProcess τ ι α).ReachableWhile C (Initial value) c) {u : τ}
    {id : ℕ} {tx : TxId ι} (hu : (c.loc u).waits = some (id, tx)) : Placed c id tx := by
  refine h.invariant
    (I := fun c => ∀ u id tx, (c.loc u).waits = some (id, tx) → Placed c id tx) ?_ ?_ u id tx hu
  · intro c hc u id tx hu
    rw [hc.2 u] at hu
    cases hu
  · intro c t k s l hr _ hI hstep u id tx hu
    have hm := move_of_step hstep
    have hold : Placed c id tx → Placed (c.put t s l) id tx :=
      Placed.step (inv_of_reachable hr) (ownIds_of_reachable hr) (txid_le_two hr) hm
    by_cases hut : u = t
    · subst hut
      rw [put_loc_self] at hu
      rcases hm.waits hu with hu | ⟨e, he, hid, htx⟩
      · exact hold (hI u id tx hu)
      · exact .queued e he hid htx
    · rw [put_loc_of_ne hut] at hu
      exact hold (hI u id tx hu)

/-! ### Choices -/

theorem direct_of_reachable (h : (cellProcess τ ι α).ReachableWhile C (Initial value) c) (t : τ) :
    (c.loc t).Direct := by
  refine h.local_assertion (A := fun _ l _ => l.Direct) ?_ ?_ ?_ t
  · intro c hc t
    rw [hc.2 t]
    trivial
  · intro c t k s l _ _ _ hstep
    exact (move_of_step hstep).direct
  · intro c t k s l u _ _ _ hA _
    exact hA u

/-- A choice that is committed on the cell is committed once, and its transaction id is `2`. -/
structure Won (c : Config τ (Mem τ ι α) (Pc ι α)) : Prop where
  once : Exclusive Pc.winning Mem.won c
  two : ∀ n, n ∈ c.shared.won ∨ (∃ t, n ∈ (c.loc t).winning) → c.shared.txid (.choice n) = 2

theorem Won.step (h : Won c) {t : τ}
    (hm : Move t c.shared (c.loc t) s l) (hdirect : (c.loc t).Direct) : Won (c.put t s l) := by
  obtain ⟨new, hnew, hmoved, hsub⟩ := hm.won hdirect
  refine ⟨h.once.put new hnew (fun n hn => ?_) hsub, fun n hn => ?_⟩
  · have h0 := (hmoved n hn).1
    constructor
    · intro hmem
      rw [h.two n (.inl hmem)] at h0
      cases h0
    · intro u hmem
      rw [h.two n (.inr ⟨u, hmem⟩)] at h0
      cases h0
  · rw [put_shared]
    have hold : n ∈ c.shared.won ∨ (∃ t, n ∈ (c.loc t).winning) → s.txid (.choice n) = 2 :=
      fun hn => hm.txid_two (h.two n hn)
    have hown : n ∈ l.winning ++ s.won → s.txid (.choice n) = 2 := by
      intro hn
      rcases mem_append.mp (hsub.subset hn) with hn | hn
      · exact (hmoved n hn).2
      · rcases mem_append.mp hn with hn | hn
        · exact hold (.inr ⟨t, hn⟩)
        · exact hold (.inl hn)
    rcases hn with hn | ⟨u, hn⟩
    · exact hown (mem_append_right _ hn)
    · by_cases hu : u = t
      · subst hu
        rw [put_loc_self] at hn
        exact hown (mem_append_left _ hn)
      · rw [put_loc_of_ne hu] at hn
        exact hold (.inr ⟨u, hn⟩)

/-- Of the events of one choice at most one is committed on the cell. -/
theorem won_nodup (h : (cellProcess τ ι α).ReachableWhile C (Initial value) c) :
    c.shared.won.Nodup := by
  refine Exclusive.lying (Won.once ?_)
  refine h.invariant (I := Won) ?_ ?_
  · intro c hc
    refine ⟨⟨?_, fun t => ?_, fun t u _ => ?_⟩, fun n => ?_⟩
    all_goals simp [hc.1, hc.2, Mem.init, Mem.won, Pc.winning]
  · intro c t k s l hr _ hI hstep
    exact hI.step (move_of_step hstep) (direct_of_reachable hr t)

end Runs

end MultiMLton.SyncVar
