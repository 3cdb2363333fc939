import Mathlib.Tactic
import MultiMLton.Lib.Interleave

/-!
# The lock of `core-cml/lock.sml`

A `cmlLock` is four references: `state` (`FREE`, `LOCKED`, or `CLAIMED` while somebody works on
the queue), `lockId` (the holder, `-1` if none is recorded), `count` (nested acquisitions) and
`que` (the sleeping threads).  `getCmlLock` moves `state` from `FREE` to `LOCKED` and then records
itself; failing that it claims the queue, puts itself there and switches away.
`releaseCmlLock` claims the queue, takes one sleeper off it, frees the lock and readies the sleeper.

* `LockMem`, `Local`, `step`: the two functions, one read, write or `cas` on a reference, one
  queue operation or one scheduler operation at a time;
* `Local.owns`, `Local.claims` and `Ownership`: who holds the lock and who has claimed its queue;
* `Waiters`: every sleeper is on the queue, in the hand of the releasing thread or readied, and
  only there;
* `Reachable.mutex_and_wakeup`.

Here `que` is a FIFO list; `LockQueue` puts the `CirQueue` of the source in its place.  A thread
switched away runs again once the scheduler has it.  `maybeWaitForGC` does nothing to the lock.
-/

namespace MultiMLton.Lock

open Interleave List

/-- The lock ids of threads: any integer but the `-1` that stands for no holder. -/
abbrev LockId := {i : ℤ // i ≠ -1}

def FREE : ℤ := 0
def LOCKED : ℤ := 1
def CLAIMED : ℤ := 2

/-- The references of `RepTypes.LOCK`, and the threads that the scheduler has been given back. -/
structure LockMem where
  state : ℤ
  lockId : ℤ
  count : ℤ
  que : List LockId
  ready : List LockId
  deriving DecidableEq

/-- `initCmlLock ()`. -/
def initCmlLock : LockMem := ⟨FREE, -1, 0, [], []⟩

/-! ### The code -/

/-- The local `cas`: `loop i` has `i` more tries before the last one, `swap i` has just read the
expected value and tries the `vCas`. -/
inductive CasPc
  | loop (i : ℕ)
  | swap (i : ℕ)
  deriving DecidableEq

/-- One step of `cas (state, v1, v2)`: the new value of `state`, and where the loop goes on or
what it returns. -/
def casStep (v1 v2 state : ℤ) : CasPc → ℤ × (CasPc ⊕ ℤ)
  | .loop 0 => (if state = v1 then v2 else state, .inr state)
  | .loop (i + 1) => (state, .inl (if state = v1 then .swap i else .loop i))
  | .swap i => if state = v1 then (v2, .inr v1) else (state, .inl (.loop i))

/-- The start of `cas`. -/
def casStart : CasPc := .loop 100

/-- Program points of `getCmlLock` (with `enque` and `yieldForLock`) and `releaseCmlLock`. -/
inductive Pc
  /-- outside the lock's code -/
  | idle
  /-- `!lockId = t` -/
  | getTest
  /-- `!count + 1` -/
  | getCount
  /-- `count := v + 1` -/
  | setCount (v : ℤ)
  /-- `cas (state, FREE, LOCKED)` -/
  | getCas (k : CasPc)
  /-- `lockId := t` -/
  | getOwn
  /-- `cas (state, LOCKED, CLAIMED)` of `enque` -/
  | enqueCas (k : CasPc)
  /-- `CirQueue.enque (q, rt')` -/
  | yieldEnque
  /-- `state := LOCKED` of `yieldForLock` -/
  | yieldLocked
  /-- switched away -/
  | asleep
  /-- `!lockId = t` of `releaseCmlLock` -/
  | relTest
  /-- `!count > 0` -/
  | relCount
  /-- `!count - 1` -/
  | relGet
  /-- `count := v - 1` -/
  | relSet (v : ℤ)
  /-- `cas (state, LOCKED, CLAIMED)` of `releaseCmlLock` -/
  | relCas (k : CasPc)
  /-- the second `!lockId = t` -/
  | relOwner
  /-- `lockId := ~1` -/
  | relDisown
  /-- `CirQueue.isEmpty que`, `CirQueue.deque que` -/
  | relDeque
  /-- `state := FREE` -/
  | relFree (w : Option LockId)
  /-- `SchedulerQueues.enqueHost (w, PRI)` -/
  | relReady (w : LockId)
  /-- `raise UnlockError kind` -/
  | unlockError (kind : String)
  deriving DecidableEq

/-- A thread: its program point, its acquisitions not yet released, and whether its current call
of `getCmlLock` has slept on the queue. -/
structure Local where
  pc : Pc
  depth : ℕ
  waited : Bool
  deriving DecidableEq

/-- What a thread outside the lock's code does next. -/
inductive Client
  | get
  | release
  deriving DecidableEq

/-- One atomic step of thread `t`.  A thread calls `releaseCmlLock` only while it holds the
lock. -/
def step (t : LockId) (a : Client) (m : LockMem) (l : Local) : Option (LockMem × Local) :=
  match l.pc with
  | .idle =>
    match a with
    | .get => some (m, { l with pc := .getTest, waited := false })
    | .release => if 0 < l.depth then some (m, { l with pc := .relTest }) else none
  | .getTest =>
    some (m, { l with pc := if m.lockId = t then .getCount else .getCas casStart })
  | .getCount => some (m, { l with pc := .setCount m.count })
  | .setCount v => some ({ m with count := v + 1 }, { l with pc := .idle, depth := l.depth + 1 })
  | .getCas k =>
    let r := casStep FREE LOCKED m.state k
    some ({ m with state := r.1 }, { l with pc :=
      match r.2 with
      | .inl k => .getCas k
      | .inr v => if v = FREE then .getOwn else .enqueCas casStart })
  | .getOwn => some ({ m with lockId := t }, { l with pc := .idle, depth := l.depth + 1 })
  | .enqueCas k =>
    let r := casStep LOCKED CLAIMED m.state k
    some ({ m with state := r.1 }, { l with pc :=
      match r.2 with
      | .inl k => .enqueCas k
      | .inr v =>
        if v = LOCKED then .yieldEnque
        else if v = CLAIMED then .enqueCas casStart
        else .getTest })
  | .yieldEnque => some ({ m with que := m.que ++ [t] }, { l with pc := .yieldLocked })
  | .yieldLocked => some ({ m with state := LOCKED }, { l with pc := .asleep })
  | .asleep =>
    if t ∈ m.ready then
      some ({ m with ready := m.ready.erase t }, { l with pc := .getTest, waited := true })
    else none
  | .relTest =>
    some (m, { l with pc := if m.lockId = t then .relCount else .relCas casStart })
  | .relCount => some (m, { l with pc := if m.count > 0 then .relGet else .relCas casStart })
  | .relGet => some (m, { l with pc := .relSet m.count })
  | .relSet v => some ({ m with count := v - 1 }, { l with pc := .idle, depth := l.depth - 1 })
  | .relCas k =>
    let r := casStep LOCKED CLAIMED m.state k
    some ({ m with state := r.1 }, { l with pc :=
      match r.2 with
      | .inl k => .relCas k
      | .inr v =>
        if v = LOCKED then .relOwner
        else if v = CLAIMED then .relTest
        else .unlockError "Kind2" })
  | .relOwner =>
    some (m, { l with pc := if m.lockId = t then .relDisown else .unlockError "Kind1" })
  | .relDisown => some ({ m with lockId := -1 }, { l with pc := .relDeque })
  | .relDeque => some ({ m with que := m.que.tail }, { l with pc := .relFree m.que.head? })
  | .relFree w =>
    some ({ m with state := FREE },
      match w with
      | none => { l with pc := .idle, depth := l.depth - 1 }
      | some w => { l with pc := .relReady w })
  | .relReady w =>
    some ({ m with ready := m.ready ++ [w] }, { l with pc := .idle, depth := l.depth - 1 })
  | .unlockError _ => none

/-- The threads that share one lock. -/
def lockProcess : Process LockId Client LockMem Local := ⟨step⟩

/-- A new lock, and every thread outside its code. -/
def Init (c : Config LockId LockMem Local) : Prop :=
  c.shared = initCmlLock ∧ ∀ t, c.loc t = ⟨.idle, 0, false⟩

/-- The configurations that threads with distinct lock ids reach on one lock. -/
abbrev Reachable : Config LockId LockMem Local → Prop := lockProcess.Reachable Init

/-! ### Ownership of the lock and of its queue -/

/-- The thread holds the lock: from the `cas` of `getCmlLock` to the `state := FREE` of its last
release. -/
def Local.owns (l : Local) : Prop :=
  match l.pc with
  | .getOwn => True
  | .relReady _ => False
  | _ => 0 < l.depth

/-- The thread has claimed the queue. -/
def Local.claims (l : Local) : Prop :=
  match l.pc with
  | .yieldEnque | .yieldLocked | .relOwner | .relDisown | .relDeque | .relFree _ => True
  | _ => False

/-- The thread is recorded in `lockId`. -/
def Local.named (l : Local) : Prop :=
  match l.pc with
  | .getOwn | .relDeque | .relFree _ | .relReady _ => False
  | _ => 0 < l.depth

/-- What a thread knows of its own acquisitions and of `count`. -/
def Local.Counted (l : Local) (count : ℤ) : Prop :=
  match l.pc with
  | .idle | .getTest => 0 < l.depth → count = l.depth - 1
  | .getCount | .relTest | .relCount => 0 < l.depth ∧ count = l.depth - 1
  | .setCount v => 0 < l.depth ∧ count = l.depth - 1 ∧ v = count
  | .getCas _ | .enqueCas _ | .yieldEnque | .yieldLocked | .asleep => l.depth = 0
  | .getOwn => l.depth = 0 ∧ count = 0
  | .relGet => 1 < l.depth ∧ count = l.depth - 1
  | .relSet v => 1 < l.depth ∧ count = l.depth - 1 ∧ v = count
  | .relCas _ | .relOwner | .relDisown | .relDeque | .relFree _ => l.depth = 1 ∧ count = 0
  | .relReady _ => l.depth = 1
  | .unlockError _ => False

/-- The lock is held by `o` and its queue claimed by `k`. -/
structure Ownership (o k : Option LockId) (c : Config LockId LockMem Local) : Prop where
  holder : ∀ t, (c.loc t).owns ↔ o = some t
  claimer : ∀ t, (c.loc t).claims ↔ k = some t
  named : ∀ t : LockId, c.shared.lockId = t ↔ (c.loc t).named
  claimed_held : k.isSome → o.isSome
  state_eq : c.shared.state = if k.isSome then CLAIMED else if o.isSome then LOCKED else FREE
  count_free : o = none → c.shared.count = 0
  counted : ∀ t, (c.loc t).Counted c.shared.count

/-- One step of the local `cas`: it goes on, leaving `state` alone, or returns the value it has
seen, having replaced it if it was the expected one. -/
theorem casStep_cases (v1 v2 state : ℤ) (k : CasPc) :
    (∃ k', casStep v1 v2 state k = (state, .inl k')) ∨
      casStep v1 v2 state k = (if state = v1 then v2 else state, .inr state) := by
  rcases k with ⟨_ | i⟩ | i
  · exact .inr rfl
  · exact .inl ⟨_, rfl⟩
  · by_cases h : state = v1
    · exact .inr (by simp [casStep, h])
    · exact .inl ⟨.loop i, by simp [casStep, h]⟩

variable {l : Local}

/-- Only the holder's account mentions `count`. -/
theorem Local.Counted.of_not_owns {count count' : ℤ} (h : l.Counted count)
    (ho : ¬ l.owns) : l.Counted count' := by
  rcases l with ⟨pc, d, w⟩
  cases pc <;> simp_all [Local.Counted, Local.owns]

theorem Local.Counted.owns_of_depth {count : ℤ} (h : l.Counted count)
    (hd : 0 < l.depth) : l.owns ∨ (l.depth = 1 ∧ ∃ w, l.pc = .relReady w) := by
  rcases l with ⟨pc, d, w⟩
  cases pc
  case relReady w => exact .inr ⟨h, w, rfl⟩
  case getOwn => exact .inl trivial
  all_goals exact .inl hd

theorem Local.named.owns (h : l.named) : l.owns := by
  rcases l with ⟨pc, d, w⟩
  cases pc <;> simp_all [Local.named, Local.owns]

namespace Ownership

variable {o k o' k' : Option LockId} {c : Config LockId LockMem Local} {t : LockId}
  {s : LockMem} {l : Local}

/-- A step of `t` that passes the lock and the queue between `t` and nobody, or leaves them. -/
theorem put (h : Ownership o k c) (ho : ∀ u, u ≠ t → (o' = some u ↔ o = some u))
    (hk : ∀ u, u ≠ t → (k' = some u ↔ k = some u))
    (hid : ∀ u : LockId, u ≠ t → (s.lockId = u ↔ c.shared.lockId = u))
    (holder : l.owns ↔ o' = some t) (claimer : l.claims ↔ k' = some t)
    (named : s.lockId = t ↔ l.named) (claimed_held : k'.isSome → o'.isSome)
    (state_eq : s.state = if k'.isSome then CLAIMED else if o'.isSome then LOCKED else FREE)
    (count_free : o' = none → s.count = 0) (counted : l.Counted s.count)
    (hcount : s.count = c.shared.count ∨ o = some t) : Ownership o' k' (c.put t s l) where
  holder u := by
    by_cases hu : u = t
    · subst hu; simpa using holder
    · simpa [hu, ho u hu] using h.holder u
  claimer u := by
    by_cases hu : u = t
    · subst hu; simpa using claimer
    · simpa [hu, hk u hu] using h.claimer u
  named u := by
    by_cases hu : u = t
    · subst hu; simpa using named
    · simpa [hu, hid u hu] using h.named u
  claimed_held := claimed_held
  state_eq := state_eq
  count_free := count_free
  counted u := by
    by_cases hu : u = t
    · subst hu; simpa using counted
    · rw [Config.put_loc_of_ne hu, Config.put_shared]
      rcases hcount with hc | rfl
      · exact hc ▸ h.counted u
      · refine (h.counted u).of_not_owns fun hown => hu ?_
        exact (Option.some.inj ((h.holder u).1 hown)).symm

/-- A step of `t` that touches neither `state` nor `lockId` nor `count`, and after which `t`
has what it had. -/
theorem put_quiet (h : Ownership o k c) (hs : s.state = c.shared.state)
    (hi : s.lockId = c.shared.lockId) (hn : s.count = c.shared.count)
    (ho : l.owns ↔ (c.loc t).owns) (hk : l.claims ↔ (c.loc t).claims)
    (hm : l.named ↔ (c.loc t).named) (counted : l.Counted c.shared.count) :
    Ownership o k (c.put t s l) :=
  h.put (fun _ _ => .rfl) (fun _ _ => .rfl) (fun u _ => by rw [hi])
    (ho.trans (h.holder t)) (hk.trans (h.claimer t)) (by rw [hi, hm]; exact h.named t)
    h.claimed_held (hs.trans h.state_eq) (fun e => hn.trans (h.count_free e)) (hn ▸ counted)
    (.inl hn)

theorem eq_holder (h : Ownership o k c) (ho : o = some t) {u : LockId} (hu : (c.loc u).owns) :
    u = t :=
  Option.some.inj (((h.holder u).1 hu).symm.trans ho)

theorem eq_none_of_free (h : Ownership o k c) (hs : c.shared.state = FREE) :
    o = none ∧ k = none := by
  have hst := h.state_eq
  rw [hs] at hst
  cases k <;> cases o <;> simp_all [FREE, LOCKED, CLAIMED]

theorem state_free (h : Ownership o k c) (ho : o = none) : c.shared.state = FREE := by
  have hk := h.claimed_held
  have hst := h.state_eq
  cases k <;> simp_all

theorem eq_none_of_locked (h : Ownership o k c) (hs : c.shared.state = LOCKED) :
    o.isSome ∧ k = none := by
  have hst := h.state_eq
  rw [hs] at hst
  cases k <;> cases o <;> simp_all [FREE, LOCKED, CLAIMED]

end Ownership

variable {c : Config LockId LockMem Local} {a : Client} {t : LockId}

theorem Ownership.step {o k : Option LockId} {s : LockMem} (h : Ownership o k c)
    (hs : step t a c.shared (c.loc t) = some (s, l)) : ∃ o' k', Ownership o' k' (c.put t s l) := by
  have hown := h.holder t
  have hclaim := h.claimer t
  have hname := h.named t
  have hcnt := h.counted t
  have hst := h.state_eq
  have hquiet := h.put_quiet (t := t) (s := s) (l := l)
  rcases hl : c.loc t with ⟨pc, d, w⟩
  rw [hl] at hs hown hclaim hname hcnt hquiet
  cases pc
  case idle =>
    refine ⟨o, k, ?_⟩
    cases a
    · cases hs
      exact hquiet rfl rfl rfl .rfl .rfl .rfl hcnt
    · obtain ⟨hd, rfl, rfl⟩ : 0 < d ∧ c.shared = s ∧ _ = l := by simpa [Lock.step] using hs
      exact hquiet rfl rfl rfl .rfl .rfl .rfl ⟨hd, hcnt hd⟩
  case getTest =>
    cases hs
    refine ⟨o, k, ?_⟩
    by_cases hd : 0 < d
    · rw [if_pos (hname.2 hd)] at hquiet ⊢
      exact hquiet rfl rfl rfl .rfl .rfl .rfl ⟨hd, hcnt hd⟩
    · rw [if_neg (mt hname.1 hd)] at hquiet ⊢
      exact hquiet rfl rfl rfl .rfl .rfl .rfl (Nat.eq_zero_of_not_pos hd)
  case getCount | relGet =>
    cases hs
    exact ⟨o, k, hquiet rfl rfl rfl .rfl .rfl .rfl ⟨hcnt.1, hcnt.2, rfl⟩⟩
  case setCount v =>
    cases hs
    obtain ⟨hd, hc, rfl⟩ : 0 < d ∧ c.shared.count = d - 1 ∧ v = c.shared.count := hcnt
    have ho : o = some t := hown.1 hd
    refine ⟨o, k, h.put (fun _ _ => .rfl) (fun _ _ => .rfl) (fun _ _ => .rfl) ?_ hclaim ?_
      h.claimed_held hst (by simp [ho]) ?_ (.inr ho)⟩
    · simp [Local.owns, ho]
    · simpa [Local.named, hd] using hname
    · exact fun _ => show c.shared.count + 1 = ((d + 1 : ℕ) : ℤ) - 1 by omega
  case getCas i =>
    rcases casStep_cases FREE LOCKED c.shared.state i with ⟨i', hi⟩ | hi
    · obtain ⟨rfl, rfl⟩ : c.shared = s ∧ _ = l := by simpa [Lock.step, hi] using hs
      exact ⟨o, k, hquiet rfl rfl rfl .rfl .rfl .rfl hcnt⟩
    · obtain ⟨rfl, rfl⟩ : _ = s ∧ _ = l := by simpa [Lock.step, hi] using hs
      by_cases hf : c.shared.state = FREE
      · obtain ⟨rfl, rfl⟩ := h.eq_none_of_free hf
        have hd : d = 0 := hcnt
        rw [if_pos hf, if_pos hf]
        refine ⟨some t, none, h.put ?_ (fun _ _ => .rfl) (fun _ _ => .rfl) ?_ hclaim ?_ ?_ ?_ ?_
          ?_ (.inl rfl)⟩
        · simp +contextual [eq_comm]
        · simp [Local.owns]
        · simpa [Local.named, hd] using hname
        · simp
        · simp
        · simp
        · exact ⟨hd, h.count_free rfl⟩
      · rw [if_neg hf] at hquiet ⊢
        rw [if_neg hf] at hquiet ⊢
        exact ⟨o, k, hquiet rfl rfl rfl .rfl .rfl .rfl hcnt⟩
  case getOwn =>
    cases hs
    have ho : o = some t := hown.1 trivial
    obtain ⟨rfl, hc⟩ : d = 0 ∧ c.shared.count = 0 := hcnt
    have hnot : ∀ u : LockId, c.shared.lockId ≠ u := fun u e => by
      obtain rfl : u = t := h.eq_holder ho ((h.named u).1 e).owns
      exact hname.1 e
    refine ⟨o, k, h.put (fun _ _ => .rfl) (fun _ _ => .rfl) ?_ ?_ hclaim ?_
      h.claimed_held hst (by simp [ho]) ?_ (.inl rfl)⟩
    · intro u hu
      simp [hnot u, Subtype.coe_inj, Ne.symm hu]
    · simp [Local.owns, ho]
    · simp [Local.named]
    · intro _; push_cast; simpa using hc
  case enqueCas i =>
    rcases casStep_cases LOCKED CLAIMED c.shared.state i with ⟨i', hi⟩ | hi
    · obtain ⟨rfl, rfl⟩ : c.shared = s ∧ _ = l := by simpa [Lock.step, hi] using hs
      exact ⟨o, k, hquiet rfl rfl rfl .rfl .rfl .rfl hcnt⟩
    · obtain ⟨rfl, rfl⟩ : _ = s ∧ _ = l := by simpa [Lock.step, hi] using hs
      have hd : d = 0 := hcnt
      by_cases hf : c.shared.state = LOCKED
      · obtain ⟨ho, rfl⟩ := h.eq_none_of_locked hf
        rw [if_pos hf, if_pos hf]
        exact ⟨o, some t, h.put (fun _ _ => .rfl) (by simp +contextual [eq_comm])
          (fun _ _ => .rfl) hown (by simp [Local.claims]) hname (fun _ => ho) (by simp)
          h.count_free hcnt (.inl rfl)⟩
      · rw [if_neg hf, if_neg hf] at hquiet ⊢
        refine ⟨o, k, ?_⟩
        by_cases hc : c.shared.state = CLAIMED
        · rw [if_pos hc] at hquiet ⊢
          exact hquiet rfl rfl rfl .rfl .rfl .rfl hcnt
        · rw [if_neg hc] at hquiet ⊢
          exact hquiet rfl rfl rfl .rfl .rfl .rfl (fun hd' => absurd hd' (hd ▸ Nat.lt_irrefl 0))
  case yieldEnque | relDeque =>
    cases hs
    exact ⟨o, k, hquiet rfl rfl rfl .rfl .rfl .rfl hcnt⟩
  case yieldLocked =>
    cases hs
    have hk : k = some t := hclaim.1 trivial
    have ho := h.claimed_held (by simp [hk])
    exact ⟨o, none, h.put (fun _ _ => .rfl) (by simp +contextual [hk, eq_comm])
      (fun _ _ => .rfl) hown (by simp [Local.claims]) hname (by simp) (by simp [ho])
      h.count_free hcnt (.inl rfl)⟩
  case asleep =>
    obtain ⟨_, rfl, rfl⟩ : t ∈ c.shared.ready ∧ _ = s ∧ _ = l := by simpa [Lock.step] using hs
    have hd : d = 0 := hcnt
    exact ⟨o, k, hquiet rfl rfl rfl .rfl .rfl .rfl (fun hd' => absurd hd' (hd ▸ Nat.lt_irrefl 0))⟩
  case relTest =>
    cases hs
    rw [if_pos (hname.2 hcnt.1)] at hquiet ⊢
    exact ⟨o, k, hquiet rfl rfl rfl .rfl .rfl .rfl hcnt⟩
  case relCount =>
    cases hs
    obtain ⟨hd, hc⟩ : 0 < d ∧ c.shared.count = d - 1 := hcnt
    refine ⟨o, k, ?_⟩
    by_cases hpos : 0 < c.shared.count
    · rw [if_pos hpos] at hquiet ⊢
      exact hquiet rfl rfl rfl .rfl .rfl .rfl ⟨show 1 < d by omega, hc⟩
    · rw [if_neg hpos] at hquiet ⊢
      exact hquiet rfl rfl rfl .rfl .rfl .rfl
        ⟨show d = 1 by omega, show c.shared.count = 0 by omega⟩
  case relSet v =>
    cases hs
    obtain ⟨hd, hc, rfl⟩ : 1 < d ∧ c.shared.count = d - 1 ∧ v = c.shared.count := hcnt
    have hd' : 0 < d - 1 ↔ 0 < d := by omega
    have ho : o = some t := hown.1 (by simp [Local.owns]; omega)
    refine ⟨o, k, h.put (fun _ _ => .rfl) (fun _ _ => .rfl) (fun _ _ => .rfl) ?_ hclaim ?_
      h.claimed_held hst (by simp [ho]) ?_ (.inr ho)⟩
    · simpa [Local.owns, hd'] using hown
    · simpa [Local.named, hd'] using hname
    · exact fun _ => show c.shared.count - 1 = ((d - 1 : ℕ) : ℤ) - 1 by omega
  case relCas i =>
    rcases casStep_cases LOCKED CLAIMED c.shared.state i with ⟨i', hi⟩ | hi
    · obtain ⟨rfl, rfl⟩ : c.shared = s ∧ _ = l := by simpa [Lock.step, hi] using hs
      exact ⟨o, k, hquiet rfl rfl rfl .rfl .rfl .rfl hcnt⟩
    · obtain ⟨rfl, rfl⟩ : _ = s ∧ _ = l := by simpa [Lock.step, hi] using hs
      obtain ⟨hd, hc⟩ : d = 1 ∧ c.shared.count = 0 := hcnt
      by_cases hf : c.shared.state = LOCKED
      · obtain ⟨ho, rfl⟩ := h.eq_none_of_locked hf
        rw [if_pos hf, if_pos hf]
        exact ⟨o, some t, h.put (fun _ _ => .rfl) (by simp +contextual [eq_comm])
          (fun _ _ => .rfl) hown (by simp [Local.claims]) hname (fun _ => ho) (by simp)
          h.count_free ⟨hd, hc⟩ (.inl rfl)⟩
      · have hcl : c.shared.state = CLAIMED := by
          have ho : o = some t := hown.1 (by simp [Local.owns, hd])
          rw [hst] at hf ⊢
          cases k <;> simp_all
        rw [if_neg hf, if_neg hf, if_pos hcl] at hquiet ⊢
        exact ⟨o, k, hquiet rfl rfl rfl .rfl .rfl .rfl
          ⟨show 0 < d by omega, show c.shared.count = d - 1 by omega⟩⟩
  case relOwner =>
    have hd : d = 1 := hcnt.1
    cases hs
    rw [if_pos (hname.2 (by simp [Local.named, hd]))] at hquiet ⊢
    exact ⟨o, k, hquiet rfl rfl rfl .rfl .rfl .rfl hcnt⟩
  case relDisown =>
    have hd : d = 1 := hcnt.1
    cases hs
    have ht : c.shared.lockId = t := hname.2 (by simp [Local.named, hd])
    refine ⟨o, k, h.put (fun _ _ => .rfl) (fun _ _ => .rfl) ?_ hown hclaim ?_
      h.claimed_held hst h.count_free hcnt (.inl rfl)⟩
    · intro u hu
      simp [ht, Subtype.coe_inj, Ne.symm hu, Ne.symm u.2]
    · simp [Local.named, Ne.symm t.2]
  case relFree w =>
    obtain ⟨hd, hc⟩ : d = 1 ∧ c.shared.count = 0 := hcnt
    have ho : o = some t := hown.1 (by simp [Local.owns, hd])
    have hk : k = some t := hclaim.1 trivial
    refine ⟨none, none, ?_⟩
    cases w
    · cases hs
      exact h.put (by simp +contextual [ho, eq_comm]) (by simp +contextual [hk, eq_comm])
        (fun _ _ => .rfl) (by simp [Local.owns, hd]) (by simp [Local.claims])
        (by simpa [Local.named, hd] using hname) (by simp) (by simp) (fun _ => hc)
        (by simp [Local.Counted, hd]) (.inl rfl)
    · cases hs
      exact h.put (by simp +contextual [ho, eq_comm]) (by simp +contextual [hk, eq_comm])
        (fun _ _ => .rfl) (by simp [Local.owns]) (by simp [Local.claims])
        (by simpa [Local.named] using hname) (by simp) (by simp) (fun _ => hc)
        hd (.inl rfl)
  case relReady w =>
    cases hs
    have hd : d = 1 := hcnt
    exact ⟨o, k, hquiet rfl rfl rfl (by simp [Local.owns, hd]) .rfl (by simp [Local.named, hd])
      (by simp [Local.Counted, hd])⟩
  case unlockError kind => exact hcnt.elim

/-- A new lock is free, and nobody is inside its code. -/
theorem Init.ownership (h : Init c) : Ownership none none c where
  holder t := by simp [h.2 t, Local.owns]
  claimer t := by simp [h.2 t, Local.claims]
  named t := by simp [h.1, h.2 t, Local.named, initCmlLock, Ne.symm t.2]
  claimed_held := id
  state_eq := by simp [h.1, initCmlLock]
  count_free _ := by simp [h.1, initCmlLock]
  counted t := by simp [h.2 t, Local.Counted]

theorem Reachable.ownership (h : Reachable c) : ∃ o k, Ownership o k c :=
  h.invariant (I := fun c => ∃ o k, Ownership o k c) (fun _ h0 => ⟨_, _, h0.ownership⟩)
    fun _ _ _ _ _ _ _ ⟨_, _, ho⟩ hs => ho.step hs

/-! ### The threads that wait -/

/-- The sleeper that a releasing thread has taken off the queue and not yet readied. -/
def Local.hand (l : Local) : Option LockId :=
  match l.pc with
  | .relFree w => w
  | .relReady w => some w
  | _ => none

/-- The thread has put itself on the queue and does not run until it is readied. -/
def Local.parked (l : Local) : Prop :=
  match l.pc with
  | .yieldLocked | .asleep => True
  | _ => False

theorem Local.parked.asleep (h : l.parked) (hc : ¬ l.claims) : l.pc = .asleep := by
  rcases l with ⟨pc, d, w⟩
  cases pc <;> simp_all [Local.parked, Local.claims]

/-- The thread is about to touch the queue or to give a sleeper to the scheduler, or sleeps. -/
def Local.queues (l : Local) : Prop :=
  match l.pc with
  | .yieldEnque | .yieldLocked | .asleep | .relDeque | .relFree _ | .relReady _ => True
  | _ => False

variable {m s : LockMem} {l l' : Local}

/-- Any other step leaves the sleepers where they are. -/
theorem step_of_not_queues (h : ¬ l.queues) (hs : step t a m l = some (s, l')) :
    s.que = m.que ∧ s.ready = m.ready ∧ (l'.hand = none ∧ ∀ w, l'.pc ≠ .relFree w) ∧
      ¬ l'.parked := by
  rcases l with ⟨pc, d, w⟩
  cases pc
  case getCas i =>
    rcases casStep_cases FREE LOCKED m.state i with ⟨i', hi⟩ | hi
    all_goals
      simp only [step, hi] at hs
      cases hs
      refine ⟨rfl, rfl, ⟨?_, ?_⟩, ?_⟩ <;> (try split_ifs) <;> simp [Local.hand, Local.parked]
  case enqueCas i | relCas i =>
    rcases casStep_cases LOCKED CLAIMED m.state i with ⟨i', hi⟩ | hi
    all_goals
      simp only [step, hi] at hs
      cases hs
      refine ⟨rfl, rfl, ⟨?_, ?_⟩, ?_⟩ <;> (try split_ifs) <;> simp [Local.hand, Local.parked]
  case idle =>
    cases a
    · cases hs
      simp [Local.hand, Local.parked]
    · obtain ⟨_, rfl, rfl⟩ : 0 < d ∧ m = s ∧ _ = l' := by simpa [step] using hs
      simp [Local.hand, Local.parked]
  case yieldEnque | yieldLocked | asleep | relDeque | relFree | relReady => exact (h trivial).elim
  case unlockError => simp [step] at hs
  all_goals
    cases hs
    refine ⟨rfl, rfl, ⟨?_, ?_⟩, ?_⟩ <;> (try split_ifs) <;> simp [Local.hand, Local.parked]

/-- Where a sleeping thread is. -/
inductive Place
  | que
  | hand (u : LockId)
  | ready
  deriving DecidableEq

/-- Every sleeping thread is in the one place that `place` says. -/
structure Waiters (place : LockId → Option Place) (c : Config LockId LockMem Local) : Prop where
  que_iff : ∀ t, t ∈ c.shared.que ↔ place t = some .que
  hand_iff : ∀ t u, (c.loc u).hand = some t ↔ place t = some (.hand u)
  ready_iff : ∀ t, t ∈ c.shared.ready ↔ place t = some .ready
  parked_iff : ∀ t, (c.loc t).parked ↔ (place t).isSome
  asleep : ∀ t p, place t = some p → p ≠ .que → (c.loc t).pc = .asleep
  que_nodup : c.shared.que.Nodup
  ready_nodup : c.shared.ready.Nodup

namespace Waiters

variable {place place' : LockId → Option Place} {c : Config LockId LockMem Local} {t : LockId}
  {s : LockMem} {l : Local}

/-- A step of `t` that moves no sleeper and is not a step of one. -/
theorem put_quiet (h : Waiters place c) (hq : s.que = c.shared.que)
    (hr : s.ready = c.shared.ready) (hh : l.hand = (c.loc t).hand)
    (hp : l.parked ↔ (c.loc t).parked) (ha : (c.loc t).pc = .asleep → l.pc = .asleep) :
    Waiters place (c.put t s l) where
  que_iff := by simpa [hq] using h.que_iff
  hand_iff w u := by
    by_cases hu : u = t
    · subst hu; simpa [hh] using h.hand_iff w u
    · simpa [hu] using h.hand_iff w u
  ready_iff := by simpa [hr] using h.ready_iff
  parked_iff u := by
    by_cases hu : u = t
    · subst hu; simpa [hp] using h.parked_iff u
    · simpa [hu] using h.parked_iff u
  asleep u p hup hne := by
    by_cases hu : u = t
    · subst hu; simpa using ha (h.asleep u p hup hne)
    · simpa [hu] using h.asleep u p hup hne
  que_nodup := hq ▸ h.que_nodup
  ready_nodup := hr ▸ h.ready_nodup

/-- A step of `t` that moves the sleeper `w` to `p`. -/
theorem put (h : Waiters place c) {w : LockId} {p : Option Place}
    (que_iff : ∀ u, u ∈ s.que ↔ Function.update place w p u = some .que)
    (ready_iff : ∀ u, u ∈ s.ready ↔ Function.update place w p u = some .ready)
    (hand_iff : ∀ u, l.hand = some u ↔ Function.update place w p u = some (.hand t))
    (hand_ne : ∀ u, u ≠ t → (place w = some (.hand u) ↔ p = some (.hand u)))
    (parked_self : l.parked ↔ (Function.update place w p t).isSome)
    (parked_ne : w ≠ t → ((place w).isSome ↔ p.isSome))
    (asleep_self : ∀ q, Function.update place w p t = some q → q ≠ .que → l.pc = .asleep)
    (asleep_ne : w ≠ t → ∀ q, p = some q → q ≠ .que → (c.loc w).pc = .asleep)
    (que_nodup : s.que.Nodup) (ready_nodup : s.ready.Nodup) :
    Waiters (Function.update place w p) (c.put t s l) where
  que_iff := que_iff
  ready_iff := ready_iff
  hand_iff v u := by
    by_cases hu : u = t
    · subst hu; simpa using hand_iff v
    · by_cases hv : v = w
      · subst hv; simpa [hu, ← hand_ne u hu] using h.hand_iff v u
      · simpa [hu, hv] using h.hand_iff v u
  parked_iff u := by
    by_cases hu : u = t
    · subst hu; simpa using parked_self
    · by_cases huw : u = w
      · subst huw; simpa [hu, ← parked_ne hu] using h.parked_iff u
      · simpa [hu, huw] using h.parked_iff u
  asleep u q hq hne := by
    by_cases hu : u = t
    · subst hu; simpa using asleep_self q hq hne
    · rw [Config.put_loc_of_ne hu]
      by_cases huw : u = w
      · subst huw; exact asleep_ne hu q (by simpa using hq) hne
      · exact h.asleep u q (by simpa [huw] using hq) hne
  que_nodup := que_nodup
  ready_nodup := ready_nodup

end Waiters

theorem Waiters.step {place : LockId → Option Place} {o k : Option LockId} {s : LockMem}
    (h : Waiters place c) (ho : Ownership o k c) (hs : step t a c.shared (c.loc t) = some (s, l)) :
    ∃ place', Waiters place' (c.put t s l) := by
  have hclaim := ho.claimer t
  have hquiet := h.put_quiet (t := t) (s := s) (l := l)
  rcases hl : c.loc t with ⟨pc, d, w⟩
  rw [hl] at hs hclaim hquiet
  cases pc
  case yieldEnque =>
    cases hs
    have hp : place t = none := by
      have := h.parked_iff t
      rw [hl] at this
      simpa [Local.parked] using this
    have hq : t ∉ c.shared.que := by simp [h.que_iff, hp]
    refine ⟨_, h.put (w := t) (p := some .que) ?_ ?_ ?_ ?_ ?_ ?_ ?_ ?_ ?_ h.ready_nodup⟩
    · intro u
      by_cases hu : u = t <;> simp [hu, h.que_iff]
    · intro u
      by_cases hu : u = t <;> simp [hu, h.ready_iff, hp]
    · intro u
      have := h.hand_iff u t
      rw [hl] at this
      by_cases hu : u = t <;> simp_all [Local.hand]
    · simp [hp]
    · simp [Local.parked]
    · simp
    · simp +contextual
    · simp
    · exact nodup_append.2 ⟨h.que_nodup, nodup_singleton t, by
        rintro u hu v hv rfl
        exact hq (mem_singleton.1 hv ▸ hu)⟩
  case yieldLocked =>
    cases hs
    exact ⟨place, hquiet rfl rfl rfl .rfl nofun⟩
  case asleep =>
    obtain ⟨hr, rfl, rfl⟩ : t ∈ c.shared.ready ∧ _ = s ∧ _ = l := by simpa [Lock.step] using hs
    have hp : place t = some .ready := (h.ready_iff t).1 hr
    refine ⟨_, h.put (w := t) (p := none) ?_ ?_ ?_ ?_ ?_ ?_ ?_ ?_ h.que_nodup
      (h.ready_nodup.erase t)⟩
    · intro u
      by_cases hu : u = t <;> simp [hu, h.que_iff, hp]
    · intro u
      by_cases hu : u = t <;> simp [hu, h.ready_nodup.mem_erase_iff, h.ready_iff]
    · intro u
      have := h.hand_iff u t
      rw [hl] at this
      by_cases hu : u = t <;> simp_all [Local.hand]
    · simp [hp]
    · simp [Local.parked]
    · simp
    · simp
    · simp
  case relDeque =>
    cases hs
    have hnodup := h.que_nodup
    have hself := h.parked_iff t
    have hhand := (h.hand_iff · t)
    rw [hl] at hself hhand
    rcases hq : c.shared.que with _ | ⟨w, ws⟩
    · exact ⟨place, hq ▸ hquiet (by simp [hq]) rfl (by simp [hq, Local.hand]) .rfl nofun⟩
    · rw [hq, nodup_cons] at hnodup
      have hw : place w = some .que := (h.que_iff w).1 (by simp [hq])
      have hwt : w ≠ t := by rintro rfl; simp [hw, Local.parked] at hself
      refine ⟨_, h.put (w := w) (p := some (.hand t)) ?_ ?_ ?_ ?_ ?_ ?_ ?_ ?_ ?_ h.ready_nodup⟩
      · intro u
        have := h.que_iff u
        by_cases hu : u = w <;> simp_all
      · intro u
        by_cases hu : u = w <;> simp [hu, h.ready_iff, hw]
      · intro u
        by_cases hu : u = w
        · simp [hu, Local.hand]
        · simp [hu, Ne.symm hu, ← hhand u, Local.hand]
      · exact fun u hu => by simp [hw, Ne.symm hu]
      · simpa [Ne.symm hwt, Local.parked] using hself
      · simp [hw]
      · have ht : place t = none := by simpa [Local.parked] using hself
        simp [Ne.symm hwt, ht]
      · have hpw : (c.loc w).parked := (h.parked_iff w).2 (by simp [hw])
        have hcw : ¬ (c.loc w).claims := fun hc =>
          hwt (Option.some.inj (((ho.claimer w).1 hc).symm.trans (hclaim.1 trivial)))
        exact fun _ _ _ _ => hpw.asleep hcw
      · simpa [hq] using hnodup.2
  case relFree w =>
    cases w
    · cases hs
      exact ⟨place, hquiet rfl rfl rfl .rfl nofun⟩
    · cases hs
      exact ⟨place, hquiet rfl rfl rfl .rfl nofun⟩
  case relReady w =>
    cases hs
    have hself := h.parked_iff t
    have hhand := (h.hand_iff · t)
    rw [hl] at hself hhand
    have hw : place w = some (.hand t) := (hhand w).1 rfl
    have hwt : w ≠ t := by rintro rfl; simp [hw, Local.parked] at hself
    have hr : w ∉ c.shared.ready := by simp [h.ready_iff, hw]
    refine ⟨_, h.put (w := w) (p := some .ready) ?_ ?_ ?_ ?_ ?_ ?_ ?_ ?_ h.que_nodup ?_⟩
    · intro u
      by_cases hu : u = w <;> simp [hu, h.que_iff, hw]
    · intro u
      by_cases hu : u = w <;> simp [hu, h.ready_iff]
    · intro u
      by_cases hu : u = w
      · simp [hu, Local.hand]
      · simp [hu, Ne.symm hu, ← hhand u, Local.hand]
    · exact fun u hu => by simp [hw, Ne.symm hu]
    · simpa [Ne.symm hwt, Local.parked] using hself
    · simp [hw]
    · have ht : place t = none := by simpa [Local.parked] using hself
      simp [Ne.symm hwt, ht]
    · exact fun _ _ _ _ => h.asleep w _ hw nofun
    · exact nodup_append.2 ⟨h.ready_nodup, nodup_singleton w, by
        rintro u hu v hv rfl
        exact hr (mem_singleton.1 hv ▸ hu)⟩
  all_goals
    obtain ⟨hq, hr, ⟨hh, _⟩, hp⟩ := step_of_not_queues (by simp [Local.queues]) hs
    exact ⟨place, hquiet hq hr hh (by simpa [Local.parked] using hp) nofun⟩

/-- Nobody has slept on a new lock. -/
theorem Init.waiters (h : Init c) : Waiters (fun _ => none) c where
  que_iff t := by simp [h.1, initCmlLock]
  hand_iff t u := by simp [h.2 u, Local.hand]
  ready_iff t := by simp [h.1, initCmlLock]
  parked_iff t := by simp [h.2 t, Local.parked]
  asleep := by simp
  que_nodup := by simp [h.1, initCmlLock]
  ready_nodup := by simp [h.1, initCmlLock]

theorem Reachable.waiters (h : Reachable c) : ∃ place, Waiters place c :=
  h.invariant (I := fun c => ∃ place, Waiters place c) (fun _ h0 => ⟨_, h0.waiters⟩)
    fun _ _ _ _ _ hr _ ⟨_, hw⟩ hs => by
      obtain ⟨o, k, ho⟩ := Reachable.ownership hr
      exact hw.step ho hs

/-! ### No lost wake-up -/

/-- The thread is on its way from a failed `cas` of `getCmlLock` to the next one. -/
def Local.retries (l : Local) : Prop :=
  match l.pc with
  | .getTest | .getCas _ | .enqueCas _ => True
  | _ => False

/-- `w` has waited on the queue and is about to try for the lock: it is readied or in the hand
of a thread whose next step readies it, or it runs again and has not got the lock yet. -/
def Woken (c : Config LockId LockMem Local) (w : LockId) : Prop :=
  ((c.loc w).pc = .asleep ∧ (w ∈ c.shared.ready ∨ ∃ u, (c.loc u).pc = .relReady w)) ∨
    ((c.loc w).waited = true ∧ (c.loc w).retries)

/-- Only the two operations on the queue change it. -/
theorem step_que (hs : step t a m l = some (s, l')) :
    s.que = m.que ∨ l.pc = .yieldEnque ∨ l.pc = .relDeque := by
  by_cases h : l.queues
  · rcases l with ⟨pc, d, w⟩
    cases pc
    case asleep =>
      obtain ⟨_, rfl, rfl⟩ : t ∈ m.ready ∧ _ = s ∧ _ = l' := by simpa [step] using hs
      exact .inl rfl
    case yieldLocked | relFree | relReady =>
      cases hs
      exact .inl rfl
    case yieldEnque => exact .inr (.inl rfl)
    case relDeque => exact .inr (.inr rfl)
    all_goals exact h.elim
  · exact .inl (step_of_not_queues h hs).1

/-- Only the thread that has claimed the queue changes it. -/
theorem step_que_claims (hs : step t a m l = some (s, l')) : s.que = m.que ∨ l.claims :=
  (step_que hs).imp_right fun h => by rcases h with h | h <;> simp [Local.claims, h]

/-- The hand is filled from the queue. -/
theorem step_relFree {w : Option LockId}
    (hs : step t a m l = some (s, l')) (hl : l'.pc = .relFree w) :
    w = m.que.head? ∧ s.que = m.que.tail := by
  by_cases h : l.queues
  · rcases l with ⟨pc, d, v⟩
    cases pc
    case relDeque =>
      cases hs
      exact ⟨by simpa [eq_comm] using hl, rfl⟩
    case relFree v =>
      cases v <;> (cases hs) <;> simp at hl
    all_goals first | exact h.elim | (simp only [step] at hs; grind)
  · exact absurd hl ((step_of_not_queues h hs).2.2.1.2 w)

/-- A releasing thread that has nobody in its hand leaves an empty queue. -/
theorem Reachable.que_eq_nil (h : Reachable c)
    (ht : (c.loc t).pc = .relFree none) : c.shared.que = [] := by
  refine h.local_assertion (A := fun _ l m => l.pc = .relFree none → m.que = [])
    (fun c hc t e => by simp [hc.1, initCmlLock]) ?_ ?_ t ht
  · intro c t a s l hr _ _ hs e
    obtain ⟨hw, hq⟩ := step_relFree hs e
    rw [hq, head?_eq_none_iff.1 hw.symm, tail_nil]
  · intro c t a s l u hr _ hu hA hs e
    obtain ⟨o, k, ho⟩ := Reachable.ownership hr
    rcases step_que_claims hs with hq | hc
    · rw [hq, hA u e]
    · have huk : k = some u := (ho.claimer u).1 (by simp [Local.claims, e])
      exact (hu (Option.some.inj (huk.symm.trans ((ho.claimer t).1 hc)))).elim

/-- Only the end of a release frees the lock. -/
theorem step_frees (hs : step t a m l = some (s, l')) (hm : m.state ≠ FREE) (hf : s.state = FREE) :
    ∃ w, l.pc = .relFree w := by
  rcases l with ⟨pc, d, v⟩
  cases pc
  case relFree w => exact ⟨w, rfl⟩
  case getCas i =>
    rcases casStep_cases FREE LOCKED m.state i with ⟨i', hi⟩ | hi
    all_goals
      simp only [step, hi, Option.some.injEq, Prod.mk.injEq, if_neg hm] at hs
      obtain ⟨rfl, rfl⟩ := hs
      exact (hm hf).elim
  case enqueCas i | relCas i =>
    rcases casStep_cases LOCKED CLAIMED m.state i with ⟨i', hi⟩ | hi
    all_goals
      simp only [step, hi] at hs
      cases hs
      grind [FREE, CLAIMED]
  case idle => cases a <;> simp only [step] at hs <;> grind
  all_goals simp only [step] at hs; grind [FREE, LOCKED]

/-- A readied thread stays so until it runs. -/
theorem step_ready {t w : LockId}
    (hs : step t a m l = some (s, l')) (hw : w ∈ m.ready) (hwt : w ≠ t) : w ∈ s.ready := by
  by_cases h : l.queues
  · rcases l with ⟨pc, d, v⟩
    cases pc
    case asleep =>
      obtain ⟨_, rfl, rfl⟩ : t ∈ m.ready ∧ _ = s ∧ _ = l' := by simpa [step] using hs
      exact (mem_erase_of_ne hwt).2 hw
    case relReady =>
      cases hs
      exact mem_append_left _ hw
    all_goals first | exact h.elim | (simp only [step] at hs; grind)
  · rwa [(step_of_not_queues h hs).2.1]

/-- A thread that retries while the lock is free goes on or takes it. -/
theorem step_retries (hs : step t a m l = some (s, l')) (hl : l.retries) (hm : m.state = FREE)
    (hf : s.state = FREE) (hid : m.lockId ≠ t) : l'.waited = l.waited ∧ l'.retries := by
  rcases l with ⟨pc, d, v⟩
  cases pc
  case getTest =>
    obtain ⟨rfl, rfl⟩ : m = s ∧ _ = l' := by simpa [step, hid] using hs
    exact ⟨rfl, trivial⟩
  case getCas i =>
    rcases casStep_cases FREE LOCKED m.state i with ⟨i', hi⟩ | hi
    · simp only [step, hi] at hs
      cases hs
      exact ⟨rfl, trivial⟩
    · simp only [step, hi, Option.some.injEq, Prod.mk.injEq, if_pos hm] at hs
      obtain ⟨rfl, rfl⟩ := hs
      simp [FREE, LOCKED] at hf
  case enqueCas i =>
    rcases casStep_cases LOCKED CLAIMED m.state i with ⟨i', hi⟩ | hi
    · simp only [step, hi] at hs
      cases hs
      exact ⟨rfl, trivial⟩
    · rw [hm] at hi
      simp only [step, hm, hi] at hs
      cases hs
      exact ⟨rfl, trivial⟩
  all_goals exact hl.elim

/-- While the lock stays free, a woken thread is woken until it has the lock. -/
theorem Woken.step {w t : LockId} {s : LockMem} (h : Woken c w) (ho : Ownership none none c)
    (hs : step t a c.shared (c.loc t) = some (s, l)) (hf : s.state = FREE) :
    Woken (c.put t s l) w := by
  have hid : ∀ u : LockId, c.shared.lockId ≠ u := fun u e => by
    simpa using (ho.holder u).1 ((ho.named u).1 e).owns
  by_cases hwt : w = t
  · subst hwt
    rcases h with ⟨hpc, -⟩ | ⟨hwait, hretry⟩
    · rcases hl : c.loc w with ⟨pc, d, v⟩
      rw [hl] at hs hpc
      obtain rfl : pc = .asleep := hpc
      obtain ⟨_, rfl, rfl⟩ : w ∈ c.shared.ready ∧ _ = s ∧ _ = l := by
        simpa [Lock.step] using hs
      exact .inr (by simp [Local.retries])
    · obtain ⟨hv, hr⟩ := step_retries hs hretry (ho.state_free rfl) hf (hid w)
      exact .inr (by simpa [hv] using ⟨hwait, hr⟩)
  · rcases h with ⟨hpc, hr | ⟨u, hu⟩⟩ | hretry
    · exact .inl (by simpa [hwt, hpc] using .inl (step_ready hs hr hwt))
    · refine .inl ⟨by simpa [hwt] using hpc, ?_⟩
      by_cases hut : u = t
      · subst hut
        rcases hl : c.loc u with ⟨pc, d, v⟩
        rw [hl] at hs hu
        obtain rfl : pc = .relReady w := hu
        cases hs
        exact .inl (by simp)
      · exact .inr ⟨u, by simpa [hut] using hu⟩
    · exact .inr (by simpa [hwt] using hretry)

theorem Reachable.woken (h : Reachable c) :
    c.shared.state = FREE → c.shared.que ≠ [] → ∃ w, Woken c w := by
  refine h.invariant (I := fun c => c.shared.state = FREE → c.shared.que ≠ [] → ∃ w, Woken c w)
    (fun c hc _ hq => (hq (by simp [hc.1, initCmlLock])).elim) ?_
  intro c t a s l hr _ ih hs hfree hque
  obtain ⟨o, k, ho⟩ := Reachable.ownership hr
  obtain ⟨place, hw⟩ := Reachable.waiters hr
  by_cases hc : c.shared.state = FREE
  · obtain ⟨rfl, rfl⟩ := ho.eq_none_of_free hc
    have hq : s.que = c.shared.que := (step_que_claims hs).resolve_right (by simp [ho.claimer t])
    obtain ⟨w, hwk⟩ := ih hc (hq ▸ hque)
    exact ⟨w, hwk.step ho hs hfree⟩
  · obtain ⟨v, hv⟩ := step_frees hs hc hfree
    rcases hl : c.loc t with ⟨pc, d, b⟩
    rw [hl] at hs hv
    obtain rfl : pc = .relFree v := hv
    rcases v with _ | w
    · -- nobody was taken off the queue, so it was empty
      obtain ⟨rfl, rfl⟩ : _ = s ∧ _ = l := by
        simpa [lockProcess, step] using hs
      have hnil : c.shared.que = [] := Reachable.que_eq_nil hr (t := t) (by rw [hl])
      exact (hque hnil).elim
    · obtain ⟨rfl, rfl⟩ : _ = s ∧ _ = l := by
        simpa [lockProcess, step] using hs
      have hplace : place w = some (.hand t) := (hw.hand_iff w t).1 (by rw [hl]; rfl)
      have hasleep := hw.asleep w _ hplace nofun
      have hwt : w ≠ t := by rintro rfl; simp [hl] at hasleep
      exact ⟨w, .inl ⟨by simpa [hwt] using hasleep, .inr ⟨t, by simp⟩⟩⟩

/-! ### Mutual exclusion and wake-ups together -/

/-- A thread stops owning the lock with the write that frees it, at its last release. -/
theorem step_disowns
    (hs : step t a m l = some (s, l')) (hc : l.Counted m.count) (ho : l.owns) (ho' : ¬ l'.owns) :
    l.depth = 1 ∧ ∃ w, l.pc = .relFree w := by
  rcases l with ⟨pc, d, v⟩
  cases pc
  case relFree w => exact ⟨hc.1, w, rfl⟩
  case idle => cases a <;> simp only [step] at hs <;> grind [Local.owns]
  case getCas i =>
    rcases casStep_cases FREE LOCKED m.state i with ⟨i', hi⟩ | hi <;>
      simp only [step, hi] at hs <;> grind [Local.owns]
  case enqueCas i | relCas i =>
    rcases casStep_cases LOCKED CLAIMED m.state i with ⟨i', hi⟩ | hi <;>
      simp only [step, hi] at hs <;> grind [Local.owns]
  case relSet v =>
    have hd : 1 < d := hc.1
    simp only [step] at hs
    grind [Local.owns]
  all_goals simp only [step] at hs; grind [Local.owns]

/-- On a FIFO queue the lock is a re-entrant mutex that loses no wake-up, in every configuration
that threads reach: at most one of them owns it; `UnlockError` is not raised; a thread owns the lock as
long as it has acquisitions left to release, up to the write that frees the lock in the last of
these releases, and until then the lock is not free; and while the lock is free with a thread on
its queue, some thread that has waited is about to try for it. -/
theorem Reachable.mutex_and_wakeup {c : Config LockId LockMem Local} (h : Reachable c) :
    (∀ t u, (c.loc t).owns → (c.loc u).owns → t = u) ∧
      (∀ t kind, (c.loc t).pc ≠ .unlockError kind) ∧
      (∀ t, 0 < (c.loc t).depth →
        (c.loc t).owns ∨ ((c.loc t).depth = 1 ∧ ∃ w, (c.loc t).pc = .relReady w)) ∧
      (∀ t a s l, step t a c.shared (c.loc t) = some (s, l) → (c.loc t).owns → ¬ l.owns →
        (c.loc t).depth = 1 ∧ ∃ w, (c.loc t).pc = .relFree w) ∧
      (∀ t, (c.loc t).owns → c.shared.state ≠ FREE) ∧
      (c.shared.state = FREE → c.shared.que ≠ [] → ∃ w, Woken c w) := by
  obtain ⟨o, k, ho⟩ := h.ownership
  refine ⟨fun t u ht hu => ?_, fun t kind e => ?_, fun t ht => ?_, fun t a s l hs ht hl => ?_,
    fun t ht e => ?_, h.woken⟩
  · exact ho.eq_holder ((ho.holder u).1 hu) ht
  · have hcnt := ho.counted t
    simp [Local.Counted, e] at hcnt
  · exact (ho.counted t).owns_of_depth ht
  · exact step_disowns hs (ho.counted t) ht hl
  · have hnone := (ho.eq_none_of_free e).1
    simp [(ho.holder t).1 ht] at hnone

end MultiMLton.Lock
