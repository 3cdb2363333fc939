import Mathlib.Data.Fintype.Card
import Mathlib.Tactic
import MultiMLton.Lib.Interleave

/-!
# Stop-the-world sections

`Proc_beginCriticalSection` and `Proc_endCriticalSection` of `gc/processor.c`, on processors that
have been initialized: a barrier on `Proc_criticalCount`, and turns on `Proc_criticalTicket`.  The
wake-ups and the timing of the first and the last processor touch neither.

* `PC`, `Local`, `Shared`, `step`: the atomic accesses to the two counters; outside and in its
  section a processor changes the heap in any way; how often it has begun and ended, and the log of
  the sections, are recorded beside them;
* `Gathering`, `Serving`, `Closing`: a round;
* `sections_exclusive`.
-/

namespace MultiMLton.Processor

open Interleave List Finset Nat
open Config

universe u

/-- Where a processor is; `p` is what `__sync_add_and_fetch` has returned. -/
inductive PC (H : Type u)
  | outside
  | counted (p : ℤ)
  | waitTurn
  | inSection (seen : H)
  | ticked (p : ℤ)
  | resetTicket
  | waitEnd

structure Local (H : Type u) where
  pc : PC H
  begun : ℕ
  done : ℕ

/-- A section that has ended: the heap that its processor has seen, and the one that it has left. -/
structure Section (n : ℕ) (H : Type u) where
  proc : Fin n
  seen : H
  left : H

/-- The newest section comes first in `log`. -/
structure Shared (n : ℕ) (H : Type u) where
  criticalCount : ℤ
  criticalTicket : ℤ
  heap : H
  log : List (Section n H)

/-- `work` is what a processor does with the heap as mutator, or in its section. -/
inductive Act (H : Type u)
  | go
  | work (f : H → H)

variable {n : ℕ} {H : Type u}

def step (myNumber : Fin n) : Act H → Shared n H → Local H → Option (Shared n H × Local H)
  | .work f, s, l => match l.pc with
    | .outside | .inSection _ => some ({ s with heap := f s.heap }, l)
    | _ => none
  | .go, s, l => match l.pc with
    -- Proc_beginCriticalSection
    | .outside => some ({ s with criticalCount := s.criticalCount + 1 },
        { l with pc := .counted (s.criticalCount + 1), begun := l.begun + 1 })
    | .counted p =>
      -- We are the last to synchronize.
      if p = n then some ({ s with criticalTicket := 0 }, { l with pc := .waitTurn })
      else some (s, { l with pc := .waitTurn })
    | .waitTurn =>
      if s.criticalTicket ≠ (myNumber : ℕ) then some (s, l)
      else some (s, { l with pc := .inSection s.heap })
    -- Proc_endCriticalSection
    | .inSection seen => some ({ s with
        criticalTicket := s.criticalTicket + 1
        log := ⟨myNumber, seen, s.heap⟩ :: s.log },
        { l with pc := .ticked (s.criticalTicket + 1), done := l.done + 1 })
    | .ticked p =>
      -- We are the last to finish.
      if p = n then some ({ s with criticalCount := 0 }, { l with pc := .resetTicket })
      else some (s, { l with pc := .waitEnd })
    | .resetTicket => some ({ s with criticalTicket := -1 }, { l with pc := .waitEnd })
    | .waitEnd =>
      if 0 ≤ s.criticalTicket then some (s, l) else some (s, { l with pc := .outside })

def process (n : ℕ) (H : Type u) : Process (Fin n) (Act H) (Shared n H) (Local H) := ⟨step⟩

/-- After `Proc_signalInitialization`. -/
def Start (heap : H) (c : Config (Fin n) (Shared n H) (Local H)) : Prop :=
  c.shared = ⟨0, -1, heap, []⟩ ∧ ∀ p, c.loc p = ⟨.outside, 0, 0⟩

/-! ### The log -/

/-- The heap that the newest section has left. -/
def lastHeap (log : List (Section n H)) : Option H :=
  log.head?.map Section.left

/-- The sections follow one another in the order of the processors, round by round, and each but the
first of a round has seen the heap that the one before has left. -/
def Ordered : List (Section n H) → Prop
  | [] => True
  | e :: log => (e.proc : ℕ) = log.length % n ∧
      (0 < (e.proc : ℕ) → lastHeap log = some e.seen) ∧ Ordered log

/-! ### A round -/

section

variable (R : ℕ) (c : Config (Fin n) (Shared n H) (Local H))

/-- Some have begun round `R + 1`, the others may still be leaving round `R`. -/
structure Gathering : Prop where
  ticket : c.shared.criticalTicket = -1
  count : c.shared.criticalCount = (Finset.univ.filter fun p => (c.loc p).begun = R + 1).card
  done : ∀ p, (c.loc p).done = R
  place : ∀ p,
    ((c.loc p).begun = R ∧ ((c.loc p).pc = .outside ∨ (c.loc p).pc = .waitEnd ∨
        ∃ v ≠ (n : ℤ), (c.loc p).pc = .ticked v)) ∨
      ((c.loc p).begun = R + 1 ∧ ((c.loc p).pc = .waitTurn ∨
        ∃ v ≤ c.shared.criticalCount, (c.loc p).pc = .counted v))
  distinct : ∀ p q v, (c.loc p).pc = .counted v → (c.loc q).pc = .counted v → p = q
  length : c.shared.log.length = R * n

/-- It is the turn of processor `i`. -/
structure Serving (i : ℕ) : Prop where
  lt : i < n
  ticket : c.shared.criticalTicket = i
  begun : ∀ p, (c.loc p).begun = R + 1
  before : ∀ p : Fin n, (p : ℕ) < i → (c.loc p).done = R + 1 ∧
    ((c.loc p).pc = .waitEnd ∨ ∃ v ≠ (n : ℤ), (c.loc p).pc = .ticked v)
  after : ∀ p : Fin n, i ≤ (p : ℕ) → (c.loc p).done = R ∧
    ((c.loc p).pc = .waitTurn ∨ (∃ v ≠ (n : ℤ), (c.loc p).pc = .counted v) ∨
      ((p : ℕ) = i ∧ ∃ h, (c.loc p).pc = .inSection h))
  length : c.shared.log.length = R * n + i
  seen : 0 < i → ∀ p h, (c.loc p).pc = .inSection h → lastHeap c.shared.log = some h
  heap : 0 < i → (∀ p h, (c.loc p).pc ≠ .inSection h) →
    lastHeap c.shared.log = some c.shared.heap

/-- All sections of the round have ended, and the last processor resets the counters. -/
structure Closing : Prop where
  ticket : c.shared.criticalTicket = n
  begun : ∀ p, (c.loc p).begun = R + 1
  done : ∀ p, (c.loc p).done = R + 1
  place : ∀ p : Fin n, ((c.loc p).pc = .waitEnd ∨ ∃ v ≠ (n : ℤ), (c.loc p).pc = .ticked v) ∨
    ((p : ℕ) + 1 = n ∧ ((c.loc p).pc = .ticked n ∨
      ((c.loc p).pc = .resetTicket ∧ c.shared.criticalCount = 0)))
  length : c.shared.log.length = (R + 1) * n

end

inductive Round (c : Config (Fin n) (Shared n H) (Local H)) : Prop
  | gathering (R : ℕ) (round : Gathering R c)
  | serving (R i : ℕ) (round : Serving R c i)
  | closing (R : ℕ) (round : Closing R c)

/-- The rounds that a processor has left. -/
def left (l : Local H) : ℕ :=
  match l.pc with
  | .outside => l.begun
  | _ => l.begun - 1

/-- What keeps the rounds apart. -/
structure Separate (c : Config (Fin n) (Shared n H) (Local H)) : Prop where
  /-- A section runs after everybody has begun its round. -/
  together : ∀ p g, (c.loc p).pc = .inSection g → ∀ q, (c.loc q).begun = (c.loc p).begun
  alone : ∀ p q g g', (c.loc p).pc = .inSection g → (c.loc q).pc = .inSection g' → p = q
  turn : ∀ p g, (c.loc p).pc = .inSection g → ∀ q,
    (c.loc q).done = if q < p then (c.loc q).begun else (c.loc q).begun - 1
  /-- Nobody leaves a round before everybody has ended its section of it. -/
  leave : ∀ p q, left (c.loc p) ≤ (c.loc q).done
  /-- Between two rounds the ticket is `-1`, and the count that of those who have begun the next. -/
  between : ∀ p, (c.loc p).pc = .outside → c.shared.criticalTicket = -1 ∧
    c.shared.criticalCount = (Finset.univ.filter fun q => (c.loc q).done < (c.loc q).begun).card
  /-- One section a round. -/
  sections : ∀ p, (c.shared.log.map Section.proc).count p = (c.loc p).done ∧
    ((c.loc p).begun = (c.loc p).done ∨
      ((c.loc p).begun = (c.loc p).done + 1 ∧ (c.loc p).pc ≠ .outside))
  ordered : Ordered c.shared.log
  /-- Whoever is not the first of a round sees the heap as the one before has left it. -/
  seen : ∀ p g, (c.loc p).pc = .inSection g → 0 < (p : ℕ) → lastHeap c.shared.log = some g

structure Inv (c : Config (Fin n) (Shared n H) (Local H)) : Prop where
  round : Round c
  ordered : Ordered c.shared.log
  sections : ∀ p, (c.shared.log.map Section.proc).count p = (c.loc p).done

variable {R i : ℕ} {c : Config (Fin n) (Shared n H) (Local H)} {p : Fin n}

/-! ### Gathering -/

theorem Gathering.move (h : Gathering R c) {l : Local H} (hbegun : l.begun = (c.loc p).begun)
    (hdone : l.done = (c.loc p).done)
    (hpc : ((c.loc p).begun = R ∧ (l.pc = .outside ∨ l.pc = .waitEnd)) ∨
      ((c.loc p).begun = R + 1 ∧ l.pc = .waitTurn)) (heap : H) :
    Gathering R (c.put p { c.shared with heap := heap } l) where
  ticket := h.ticket
  count := by
    refine h.count.trans ?_
    congr 3
    funext q
    rw [put_loc]
    split_ifs with hq
    · rw [hq, hbegun]
    · rfl
  done := forall_put (Q := fun l : Local H => l.done = R) (hdone.trans (h.done p)) h.done
  place q := by
    rw [put_loc, put_shared]
    split_ifs with hq
    · rw [hbegun]
      rcases hpc with ⟨hR, hout | hwait⟩ | ⟨hR, hturn⟩
      · exact Or.inl ⟨hR, Or.inl hout⟩
      · exact Or.inl ⟨hR, Or.inr (Or.inl hwait)⟩
      · exact Or.inr ⟨hR, Or.inl hturn⟩
    · exact h.place q
  distinct q q' v hv hv' := by
    have hne : ∀ w, l.pc ≠ .counted w := by
      rcases hpc with ⟨-, hl | hl⟩ | ⟨-, hl⟩ <;> simp [hl]
    rw [put_loc] at hv hv'
    split_ifs at hv hv' with hq hq'
    · exact absurd hv (hne v)
    · exact absurd hv (hne v)
    · exact absurd hv' (hne v)
    · exact h.distinct q q' v hv hv'
  length := h.length

theorem Gathering.counted_le (h : Gathering R c) {v : ℤ} (hpc : (c.loc p).pc = .counted v) :
    v ≤ c.shared.criticalCount := by
  have hplace := h.place p
  simp only [hpc, reduceCtorEq, and_false, exists_false, or_false, false_or] at hplace
  obtain ⟨-, w, hw, hvw⟩ := hplace
  cases hvw
  exact hw

/-- `__sync_add_and_fetch (&Proc_criticalCount, 1)` -/
theorem Gathering.enter (h : Gathering R c) (hpc : (c.loc p).pc = .outside) :
    Gathering R (c.put p { c.shared with criticalCount := c.shared.criticalCount + 1 }
      ⟨.counted (c.shared.criticalCount + 1), (c.loc p).begun + 1, (c.loc p).done⟩) := by
  have hbegun : (c.loc p).begun = R := by
    have hplace := h.place p
    simpa [hpc] using hplace
  constructor
  · exact h.ticket
  · -- `p` joins those who have begun
    have hset : (Finset.univ.filter fun q => ((c.put p
          { c.shared with criticalCount := c.shared.criticalCount + 1 }
          ⟨.counted (c.shared.criticalCount + 1), (c.loc p).begun + 1, (c.loc p).done⟩).loc q).begun
            = R + 1) =
        insert p (Finset.univ.filter fun q => (c.loc q).begun = R + 1) := by
      ext q
      rw [Finset.mem_filter, Finset.mem_insert, Finset.mem_filter, put_loc]
      by_cases hq : q = p
      · simp [hq, hbegun]
      · simp [hq]
    rw [hset, card_insert_of_notMem (by simp [hbegun])]
    have hcount := h.count
    simp only [put_shared]
    push_cast
    omega
  · exact forall_put (Q := fun l : Local H => l.done = R) (h.done p) h.done
  · intro q
    rw [put_loc, put_shared]
    split_ifs with hq
    · exact Or.inr ⟨congrArg (· + 1) hbegun, Or.inr ⟨_, le_refl _, rfl⟩⟩
    · rcases h.place q with hleft | ⟨hR, hturn | ⟨v, hle, hv⟩⟩
      · exact Or.inl hleft
      · exact Or.inr ⟨hR, Or.inl hturn⟩
      · exact Or.inr ⟨hR, Or.inr ⟨v, hle.trans (by simp), hv⟩⟩
  · intro q q' v hv hv'
    rw [put_loc] at hv hv'
    split_ifs at hv hv' with hq hq' hq'
    · rw [hq, hq']
    · cases hv
      exact absurd (h.counted_le hv') (by simp)
    · cases hv'
      exact absurd (h.counted_le hv) (by simp)
    · exact h.distinct q q' v hv hv'
  · exact h.length

/-- The processor that has made the count `n` opens the turns. -/
theorem Gathering.last (h : Gathering R c) (hpc : (c.loc p).pc = .counted n) :
    Serving R (c.put p { c.shared with criticalTicket := 0 }
      { c.loc p with pc := .waitTurn }) 0 := by
  have hle : (n : ℤ) ≤ c.shared.criticalCount := h.counted_le hpc
  have hall : (Finset.univ.filter fun q => (c.loc q).begun = R + 1) = Finset.univ := by
    refine eq_univ_of_card _ (le_antisymm (card_le_univ _) ?_)
    rw [Fintype.card_fin]
    exact_mod_cast h.count ▸ hle
  have hbegun : ∀ q, (c.loc q).begun = R + 1 := by
    intro q
    have hq : q ∈ Finset.univ.filter fun q => (c.loc q).begun = R + 1 := by
      rw [hall]
      exact Finset.mem_univ q
    exact (Finset.mem_filter.mp hq).2
  constructor
  · exact p.pos
  · rfl
  · exact forall_put (Q := fun l : Local H => l.begun = R + 1) (hbegun p) hbegun
  · intro q hq
    exact absurd hq (not_lt_zero _)
  · intro q _
    rw [put_loc]
    split_ifs with hq
    · exact ⟨h.done p, Or.inl rfl⟩
    · refine ⟨h.done q, ?_⟩
      rcases h.place q with ⟨hR, -⟩ | ⟨-, hturn | ⟨v, -, hv⟩⟩
      · exact absurd (hbegun q) (by omega)
      · exact Or.inl hturn
      · refine Or.inr (Or.inl ⟨v, ?_, hv⟩)
        intro hvn
        exact hq (h.distinct q p n (hvn ▸ hv) hpc)
  · exact h.length
  · intro h0
    exact absurd h0 (lt_irrefl 0)
  · intro h0
    exact absurd h0 (lt_irrefl 0)

/-! ### Serving -/

/-- Whatever the processors do that do not have the turn. -/
theorem Serving.move (h : Serving R c i) {l : Local H} (hbegun : l.begun = (c.loc p).begun)
    (hdone : l.done = (c.loc p).done) (hl : ∀ h, l.pc ≠ .inSection h)
    (hout : ∀ h, (c.loc p).pc ≠ .inSection h)
    (hpc : ((p : ℕ) < i ∧ l.pc = .waitEnd) ∨ (i ≤ (p : ℕ) ∧ l.pc = .waitTurn)) :
    Serving R (c.put p c.shared l) i := by
  have hin : ∀ q g, ((c.put p c.shared l).loc q).pc = .inSection g ↔
      (c.loc q).pc = .inSection g := by
    intro q g
    rw [put_loc]
    split_ifs with hq
    · rw [hq]
      exact ⟨fun hg => absurd hg (hl g), fun hg => absurd hg (hout g)⟩
    · exact Iff.rfl
  constructor
  · exact h.lt
  · exact h.ticket
  · exact forall_put (Q := fun l : Local H => l.begun = R + 1) (hbegun.trans (h.begun p)) h.begun
  · intro q hlt
    rw [put_loc]
    split_ifs with hq
    · subst hq
      rcases hpc with ⟨-, hwait⟩ | ⟨hge, -⟩
      · exact ⟨hdone.trans (h.before q hlt).1, Or.inl hwait⟩
      · exact absurd hlt (not_lt.mpr hge)
    · exact h.before q hlt
  · intro q hge
    rw [put_loc]
    split_ifs with hq
    · subst hq
      rcases hpc with ⟨hlt, -⟩ | ⟨-, hturn⟩
      · exact absurd hlt (not_lt.mpr hge)
      · exact ⟨hdone.trans (h.after q hge).1, Or.inl hturn⟩
    · exact h.after q hge
  · exact h.length
  · intro h0 q g hg
    exact h.seen h0 q g ((hin q g).mp hg)
  · intro h0 hnone
    exact h.heap h0 fun q g hg => hnone q g ((hin q g).mpr hg)

/-- `p` has waited for its turn. -/
theorem Serving.begin (h : Serving R c i) (hi : (p : ℕ) = i)
    (hpc : (c.loc p).pc = .waitTurn) :
    Serving R (c.put p c.shared { c.loc p with pc := .inSection c.shared.heap }) i := by
  -- nobody has been in its section
  have hnone : ∀ q g, (c.loc q).pc ≠ .inSection g := by
    intro q g hg
    rcases lt_or_ge (q : ℕ) i with hlt | hge
    · rcases (h.before q hlt).2 with hw | ⟨v, -, hw⟩ <;> · rw [hg] at hw; cases hw
    · rcases (h.after q hge).2 with hw | ⟨v, -, hw⟩ | ⟨hq, -⟩
      · rw [hg] at hw
        cases hw
      · rw [hg] at hw
        cases hw
      · rw [Fin.ext (hq.trans hi.symm), hpc] at hg
        cases hg
  constructor
  · exact h.lt
  · exact h.ticket
  · exact forall_put (Q := fun l : Local H => l.begun = R + 1) (h.begun p) h.begun
  · intro q hlt
    rw [put_loc_of_ne (by rintro rfl; omega)]
    exact h.before q hlt
  · intro q hge
    rw [put_loc]
    split_ifs with hq
    · exact ⟨(h.after p hi.ge).1, Or.inr (Or.inr ⟨hq ▸ hi, _, rfl⟩)⟩
    · exact h.after q hge
  · exact h.length
  · intro h0 q g hg
    rw [put_loc] at hg
    split_ifs at hg with hq
    · cases hg
      exact h.heap h0 hnone
    · exact absurd hg (hnone q g)
  · intro _ hno
    exact absurd (congrArg Local.pc (put_loc_self c p c.shared _)) (hno p c.shared.heap)

theorem Serving.work (h : Serving R c i) {g : H} (hpc : (c.loc p).pc = .inSection g) (heap : H) :
    Serving R (c.put p { c.shared with heap := heap } (c.loc p)) i := by
  rw [put_self]
  exact ⟨h.lt, h.ticket, h.begun, h.before, h.after, h.length, h.seen, fun _ hno =>
    absurd hpc (hno p g)⟩

/-- Only the processor that has the turn is in its section. -/
theorem Serving.eq_of_inSection (h : Serving R c i) {g : H}
    (hpc : (c.loc p).pc = .inSection g) : (p : ℕ) = i := by
  rcases lt_or_ge (p : ℕ) i with hlt | hge
  · have hbefore := (h.before p hlt).2
    simp [hpc] at hbefore
  · have hafter := (h.after p hge).2
    simpa [hpc] using hafter

/-- `__sync_add_and_fetch (&Proc_criticalTicket, 1)` of all but the last processor. -/
theorem Serving.next (h : Serving R c i) {g : H} (hpc : (c.loc p).pc = .inSection g)
    (hlt : i + 1 < n) :
    Serving R (c.put p { c.shared with
        criticalTicket := c.shared.criticalTicket + 1
        log := ⟨p, g, c.shared.heap⟩ :: c.shared.log }
      ⟨.ticked (c.shared.criticalTicket + 1), (c.loc p).begun, (c.loc p).done + 1⟩) (i + 1) := by
  have hi := h.eq_of_inSection hpc
  have hticket := h.ticket
  constructor
  · exact hlt
  · rw [put_shared]
    push_cast
    omega
  · exact forall_put (Q := fun l : Local H => l.begun = R + 1) (h.begun p) h.begun
  · intro q hq
    by_cases hqp : q = p
    · rw [hqp, put_loc_self]
      refine ⟨congrArg (· + 1) (h.after p hi.ge).1, Or.inr ⟨_, ?_, rfl⟩⟩
      omega
    · rw [put_loc_of_ne hqp]
      have hne : (q : ℕ) ≠ p := fun heq => hqp (Fin.ext heq)
      exact h.before q (by omega)
  · intro q hq
    have hqp : q ≠ p := by
      rintro rfl
      omega
    rw [put_loc_of_ne hqp]
    obtain ⟨hdone, hturn | hcounted | ⟨hqi, -⟩⟩ := h.after q (by omega)
    · exact ⟨hdone, Or.inl hturn⟩
    · exact ⟨hdone, Or.inr (Or.inl hcounted)⟩
    · omega
  · rw [put_shared, length_cons, h.length]
    omega
  · intro _ q g' hg'
    rw [put_loc] at hg'
    split_ifs at hg' with hq
    exact absurd (Fin.ext ((h.eq_of_inSection hg').trans hi.symm)) hq
  · intro _ _
    rfl

/-- `__sync_add_and_fetch (&Proc_criticalTicket, 1)` of the last processor. -/
theorem Serving.close (h : Serving R c i) {g : H} (hpc : (c.loc p).pc = .inSection g)
    (hlast : i + 1 = n) :
    Closing R (c.put p { c.shared with
        criticalTicket := c.shared.criticalTicket + 1
        log := ⟨p, g, c.shared.heap⟩ :: c.shared.log }
      ⟨.ticked (c.shared.criticalTicket + 1), (c.loc p).begun, (c.loc p).done + 1⟩) := by
  have hi := h.eq_of_inSection hpc
  have hticket : c.shared.criticalTicket + 1 = (n : ℤ) := by
    rw [h.ticket]
    exact_mod_cast hlast
  have hother : ∀ q, q ≠ p → (q : ℕ) < i := by
    intro q hq
    have hne : (q : ℕ) ≠ p := fun heq => hq (Fin.ext heq)
    have hqn := q.isLt
    omega
  constructor
  · exact hticket
  · exact forall_put (Q := fun l : Local H => l.begun = R + 1) (h.begun p) h.begun
  · intro q
    rw [put_loc]
    split_ifs with hq
    · exact congrArg (· + 1) (h.after p hi.ge).1
    · exact (h.before q (hother q hq)).1
  · intro q
    rw [put_loc]
    split_ifs with hq
    · refine Or.inr ⟨?_, Or.inl ?_⟩
      · rw [hq, hi, hlast]
      · exact congrArg PC.ticked hticket
    · exact Or.inl (h.before q (hother q hq)).2
  · rw [put_shared, length_cons, h.length, ← hlast]
    ring

/-! ### Closing -/

theorem Closing.move (h : Closing R c) {l : Local H} (hbegun : l.begun = (c.loc p).begun)
    (hdone : l.done = (c.loc p).done) (s : Shared n H)
    (hticket : s.criticalTicket = c.shared.criticalTicket) (hlog : s.log = c.shared.log)
    (hcount : c.shared.criticalCount = 0 → s.criticalCount = 0)
    (hpc : l.pc = .waitEnd ∨ (p : ℕ) + 1 = n ∧ l.pc = .resetTicket ∧ s.criticalCount = 0) :
    Closing R (c.put p s l) := by
  constructor
  · exact hticket.trans h.ticket
  · exact forall_put (Q := fun l : Local H => l.begun = R + 1) (hbegun.trans (h.begun p)) h.begun
  · intro q
    rw [put_loc]
    split_ifs with hq
    · exact hdone.trans (h.done p)
    · exact h.done q
  · intro q
    rw [put_loc]
    split_ifs with hq
    · rcases hpc with hwait | ⟨hlast, hreset⟩
      · exact Or.inl (Or.inl hwait)
      · exact Or.inr ⟨hq ▸ hlast, Or.inr hreset⟩
    · rcases h.place q with hwait | ⟨hlast, hticked | ⟨hreset, hzero⟩⟩
      · exact Or.inl hwait
      · exact Or.inr ⟨hlast, Or.inl hticked⟩
      · exact Or.inr ⟨hlast, Or.inr ⟨hreset, hcount hzero⟩⟩
  · exact (congrArg List.length hlog).trans h.length

/-- `Proc_criticalTicket = -1` comes last, so that nobody has left before. -/
theorem Closing.reset (h : Closing R c) (hpc : (c.loc p).pc = .resetTicket) :
    Gathering (R + 1) (c.put p { c.shared with criticalTicket := -1 }
      { c.loc p with pc := .waitEnd }) := by
  have hplace := h.place p
  simp only [hpc, reduceCtorEq, and_false, exists_false, or_false, false_or, true_and]
    at hplace
  obtain ⟨hp, hzero⟩ := hplace
  have hother : ∀ q, q ≠ p → (c.loc q).pc = .waitEnd ∨ ∃ v ≠ (n : ℤ), (c.loc q).pc = .ticked v := by
    intro q hq
    rcases h.place q with hwait | ⟨hlast, -⟩
    · exact hwait
    · exact absurd (Fin.ext (by omega)) hq
  constructor
  · rfl
  · refine hzero.trans ?_
    rw [eq_comm, Nat.cast_eq_zero, Finset.card_eq_zero]
    refine Finset.filter_false_of_mem fun q _ => ?_
    rw [put_loc]
    split_ifs with hq
    · rw [h.begun p]
      omega
    · rw [h.begun q]
      omega
  · exact forall_put (Q := fun l : Local H => l.done = R + 1) (h.done p) h.done
  · intro q
    rw [put_loc]
    split_ifs with hq
    · exact Or.inl ⟨h.begun p, Or.inr (Or.inl rfl)⟩
    · exact Or.inl ⟨h.begun q, Or.inr (hother q hq)⟩
  · intro q q' v hv _
    rw [put_loc] at hv
    split_ifs at hv with hq
    rcases hother q hq with hwait | ⟨w, -, hw⟩
    · rw [hv] at hwait
      cases hwait
    · rw [hv] at hw
      cases hw
  · exact h.length

/-! ### Rounds -/

variable {a : Act H} {s : Shared n H} {l : Local H}

theorem Gathering.step (h : Gathering R c)
    (hstep : step p a c.shared (c.loc p) = some (s, l)) : Round (c.put p s l) := by
  have hplace := h.place p
  have hticket := h.ticket
  cases a with
  | work f =>
    cases hpc : (c.loc p).pc with
    | outside =>
      simp only [Processor.step, hpc] at hstep
      cases hstep
      have hbegun : (c.loc p).begun = R := by simpa [hpc] using hplace
      exact .gathering R (h.move rfl rfl (Or.inl ⟨hbegun, Or.inl hpc⟩) _)
    | inSection g => simp [hpc] at hplace
    | _ => simp [Processor.step, hpc] at hstep
  | go =>
    cases hpc : (c.loc p).pc with
    | outside =>
      simp only [Processor.step, hpc] at hstep
      cases hstep
      exact .gathering R (h.enter hpc)
    | counted v =>
      simp only [Processor.step, hpc] at hstep
      split_ifs at hstep with hv
      · cases hstep
        exact .serving R 0 (h.last (hv ▸ hpc))
      · cases hstep
        simp only [hpc, reduceCtorEq, false_or, and_false, exists_false] at hplace
        exact .gathering R (h.move (l := { c.loc p with pc := .waitTurn }) rfl rfl
          (Or.inr ⟨hplace.1, rfl⟩) c.shared.heap)
    | waitTurn =>
      have hne : c.shared.criticalTicket ≠ (p : ℕ) := by omega
      simp only [Processor.step, hpc, if_pos hne] at hstep
      cases hstep
      rw [put_self]
      exact .gathering R h
    | inSection g | resetTicket => simp [hpc] at hplace
    | ticked v =>
      simp only [hpc, reduceCtorEq, false_or, and_false, exists_false, or_false] at hplace
      obtain ⟨hbegun, w, hw, hvw⟩ := hplace
      cases hvw
      simp only [Processor.step, hpc, if_neg hw] at hstep
      cases hstep
      exact .gathering R (h.move (l := { c.loc p with pc := .waitEnd }) rfl rfl
        (Or.inl ⟨hbegun, Or.inr rfl⟩) c.shared.heap)
    | waitEnd =>
      have hneg : ¬ 0 ≤ c.shared.criticalTicket := by omega
      simp only [Processor.step, hpc, if_neg hneg] at hstep
      cases hstep
      have hbegun : (c.loc p).begun = R := by simpa [hpc] using hplace
      exact .gathering R (h.move (l := { c.loc p with pc := .outside }) rfl rfl
        (Or.inl ⟨hbegun, Or.inl rfl⟩) c.shared.heap)

theorem Serving.step (h : Serving R c i)
    (hstep : step p a c.shared (c.loc p) = some (s, l)) : Round (c.put p s l) := by
  have hticket := h.ticket
  -- those before `i` have ended, the others have not
  have hplace : ((p : ℕ) < i ∧
        ((c.loc p).pc = .waitEnd ∨ ∃ v ≠ (n : ℤ), (c.loc p).pc = .ticked v)) ∨
      (i ≤ (p : ℕ) ∧ ((c.loc p).pc = .waitTurn ∨ (∃ v ≠ (n : ℤ), (c.loc p).pc = .counted v) ∨
        ((p : ℕ) = i ∧ ∃ h, (c.loc p).pc = .inSection h))) := by
    rcases lt_or_ge (p : ℕ) i with hlt | hge
    · exact Or.inl ⟨hlt, (h.before p hlt).2⟩
    · exact Or.inr ⟨hge, (h.after p hge).2⟩
  rcases hplace with ⟨hlt, hpc | ⟨v, hv, hpc⟩⟩ | ⟨hge, hpc | ⟨v, hv, hpc⟩ | ⟨hi, g, hpc⟩⟩
  · cases a with
    | work f => simp [Processor.step, hpc] at hstep
    | go =>
      have hpos : 0 ≤ c.shared.criticalTicket := by omega
      simp only [Processor.step, hpc, if_pos hpos] at hstep
      cases hstep
      rw [put_self]
      exact .serving R i h
  · cases a with
    | work f => simp [Processor.step, hpc] at hstep
    | go =>
      simp only [Processor.step, hpc, if_neg hv] at hstep
      cases hstep
      exact .serving R i (h.move rfl rfl (by simp) (by simp [hpc]) (Or.inl ⟨hlt, rfl⟩))
  · cases a with
    | work f => simp [Processor.step, hpc] at hstep
    | go =>
      simp only [Processor.step, hpc] at hstep
      split_ifs at hstep with hturn
      · cases hstep
        rw [put_self]
        exact .serving R i h
      · cases hstep
        exact .serving R i (h.begin (by omega) hpc)
  · cases a with
    | work f => simp [Processor.step, hpc] at hstep
    | go =>
      simp only [Processor.step, hpc, if_neg hv] at hstep
      cases hstep
      exact .serving R i (h.move rfl rfl (by simp) (by simp [hpc]) (Or.inr ⟨hge, rfl⟩))
  · cases a with
    | work f =>
      simp only [Processor.step, hpc] at hstep
      cases hstep
      exact .serving R i (h.work hpc _)
    | go =>
      simp only [Processor.step, hpc] at hstep
      cases hstep
      rcases lt_or_eq_of_le (succ_le_of_lt h.lt) with hlt | hlast
      · exact .serving R (i + 1) (h.next hpc hlt)
      · exact .closing R (h.close hpc hlast)

theorem Closing.step (h : Closing R c)
    (hstep : step p a c.shared (c.loc p) = some (s, l)) : Round (c.put p s l) := by
  have hticket := h.ticket
  cases a with
  | work f =>
    rcases h.place p with (hpc | ⟨v, -, hpc⟩) | ⟨-, hpc | ⟨hpc, -⟩⟩ <;>
      simp [Processor.step, hpc] at hstep
  | go =>
    rcases h.place p with (hpc | ⟨v, hv, hpc⟩) | ⟨hlast, hpc | ⟨hpc, -⟩⟩
    · have hpos : 0 ≤ c.shared.criticalTicket := by omega
      simp only [Processor.step, hpc, if_pos hpos] at hstep
      cases hstep
      rw [put_self]
      exact .closing R h
    · simp only [Processor.step, hpc, if_neg hv] at hstep
      cases hstep
      exact .closing R (h.move (l := { c.loc p with pc := .waitEnd }) rfl rfl _ rfl rfl id
        (Or.inl rfl))
    · simp only [Processor.step, hpc, if_true] at hstep
      cases hstep
      exact .closing R (h.move (l := { c.loc p with pc := .resetTicket }) rfl rfl _ rfl rfl
        (fun _ => rfl) (Or.inr ⟨hlast, rfl, rfl⟩))
    · simp only [Processor.step, hpc] at hstep
      cases hstep
      exact .gathering (R + 1) (h.reset hpc)

theorem Round.step (h : Round c) (hstep : step p a c.shared (c.loc p) = some (s, l)) :
    Round (c.put p s l) := by
  cases h with
  | gathering R round | serving R i round | closing R round => exact round.step hstep

/-- A section that ends is that of the processor whose turn it is. -/
theorem Round.inSection (h : Round c) {g : H} (hpc : (c.loc p).pc = .inSection g) :
    ∃ R, Serving R c p := by
  cases h with
  | gathering R round | closing R round =>
    have hplace := round.place p
    simp [hpc] at hplace
  | serving R i round =>
    rw [round.eq_of_inSection hpc]
    exact ⟨R, round⟩

/-- The log grows at the end of a section only. -/
theorem step_log (hstep : step p a c.shared (c.loc p) = some (s, l)) :
    (s.log = c.shared.log ∧ l.done = (c.loc p).done) ∨
      ∃ g, (c.loc p).pc = .inSection g ∧ s.log = ⟨p, g, c.shared.heap⟩ :: c.shared.log ∧
        l.done = (c.loc p).done + 1 := by
  unfold step at hstep
  split at hstep <;> split at hstep <;> (try split_ifs at hstep) <;>
    first
    | cases hstep
      exact Or.inl ⟨rfl, rfl⟩
    | cases hstep
      exact Or.inr ⟨_, ‹_›, rfl, rfl⟩
    | cases hstep

theorem Inv.step (h : Inv c) (hstep : step p a c.shared (c.loc p) = some (s, l)) :
    Inv (c.put p s l) := by
  refine ⟨h.round.step hstep, ?_, ?_⟩
  · rcases step_log hstep with ⟨hlog, -⟩ | ⟨g, hpc, hlog, -⟩
    · rw [put_shared, hlog]
      exact h.ordered
    · obtain ⟨R, hturn⟩ := h.round.inSection hpc
      rw [put_shared, hlog]
      refine ⟨?_, fun h0 => hturn.seen h0 p g hpc, h.ordered⟩
      rw [hturn.length, mul_add_mod_of_lt p.isLt]
  · intro q
    rcases step_log hstep with ⟨hlog, hdone⟩ | ⟨g, hpc, hlog, hdone⟩
    · rw [put_shared, hlog, h.sections q, put_loc]
      split_ifs with hq
      · rw [hq, hdone]
      · rfl
    · rw [put_shared, hlog, List.map_cons, List.count_cons, h.sections q, put_loc]
      split_ifs with hpq hq hq
      · rw [hq, hdone]
      · exact absurd (eq_of_beq hpq).symm hq
      · exact absurd (by simp [hq]) hpq
      · rfl

theorem Start.inv {heap : H} (h : Start heap c) : Inv c := by
  obtain ⟨hshared, hloc⟩ := h
  refine ⟨.gathering 0 ?_, ?_, ?_⟩
  · constructor
    · rw [hshared]
    · simp [hshared, hloc]
    · simp [hloc]
    · simp [hloc]
    · simp [hloc]
    · simp [hshared]
  · rw [hshared]
    trivial
  · simp [hshared, hloc]

theorem Round.done (h : Round c) (p : Fin n) : (c.loc p).begun = (c.loc p).done ∨
    ((c.loc p).begun = (c.loc p).done + 1 ∧ (c.loc p).pc ≠ .outside) := by
  cases h with
  | gathering R round =>
    rw [round.done p]
    rcases round.place p with ⟨hbegun, -⟩ | ⟨hbegun, hturn | ⟨v, -, hv⟩⟩
    · exact Or.inl hbegun
    · exact Or.inr ⟨hbegun, by simp [hturn]⟩
    · exact Or.inr ⟨hbegun, by simp [hv]⟩
  | serving R i round =>
    rw [round.begun p]
    rcases lt_or_ge (p : ℕ) i with hlt | hge
    · exact Or.inl (round.before p hlt).1.symm
    · obtain ⟨hdone, hturn | ⟨v, -, hv⟩ | ⟨-, g, hg⟩⟩ := round.after p hge
      · exact Or.inr ⟨by rw [hdone], by simp [hturn]⟩
      · exact Or.inr ⟨by rw [hdone], by simp [hv]⟩
      · exact Or.inr ⟨by rw [hdone], by simp [hg]⟩
  | closing R round => exact Or.inl ((round.begun p).trans (round.done p).symm)

/-- A processor is outside only before the turns are given out. -/
theorem Round.outside (h : Round c) (hpc : (c.loc p).pc = .outside) : ∃ R, Gathering R c := by
  cases h with
  | gathering R round => exact ⟨R, round⟩
  | serving R i round =>
    rcases lt_or_ge (p : ℕ) i with hlt | hge
    · have hbefore := (round.before p hlt).2
      simp [hpc] at hbefore
    · have hafter := (round.after p hge).2
      simp [hpc] at hafter
  | closing R round =>
    have hplace := round.place p
    simp [hpc] at hplace

theorem Gathering.left_le (h : Gathering R c) (p q : Fin n) : left (c.loc p) ≤ (c.loc q).done := by
  rw [h.done q]
  unfold left
  rcases h.place p with ⟨hbegun, -⟩ | ⟨hbegun, hpc | ⟨v, -, hpc⟩⟩
  · split <;> omega
  · rw [hpc]
    exact Nat.sub_le_iff_le_add.mpr hbegun.le
  · rw [hpc]
    exact Nat.sub_le_iff_le_add.mpr hbegun.le

theorem left_of_ne (hpc : (c.loc p).pc ≠ .outside) : left (c.loc p) = (c.loc p).begun - 1 := by
  unfold left
  split
  · exact absurd ‹_› hpc
  · rfl

theorem Round.left_le (h : Round c) (p q : Fin n) : left (c.loc p) ≤ (c.loc q).done := by
  by_cases hpc : (c.loc p).pc = .outside
  · obtain ⟨R, round⟩ := h.outside hpc
    exact round.left_le p q
  · cases h with
    | gathering R round => exact round.left_le p q
    | serving R i round =>
      rw [left_of_ne hpc, round.begun p]
      rcases lt_or_ge (q : ℕ) i with hlt | hge
      · rw [(round.before q hlt).1]
        omega
      · rw [(round.after q hge).1]
        omega
    | closing R round =>
      rw [left_of_ne hpc, round.begun p, round.done q]
      omega

theorem Inv.separate (h : Inv c) : Separate c where
  together p g hpc q := by
    obtain ⟨R, hturn⟩ := h.round.inSection hpc
    rw [hturn.begun q, hturn.begun p]
  alone p q g g' hp hq := by
    obtain ⟨R, hturn⟩ := h.round.inSection hp
    exact (Fin.ext (hturn.eq_of_inSection hq)).symm
  turn p g hpc q := by
    obtain ⟨R, hturn⟩ := h.round.inSection hpc
    rw [hturn.begun q]
    split_ifs with hlt
    · exact (hturn.before q hlt).1
    · exact (hturn.after q (not_lt.mp hlt)).1
  leave := h.round.left_le
  between p hpc := by
    obtain ⟨R, round⟩ := h.round.outside hpc
    refine ⟨round.ticket, round.count.trans ?_⟩
    congr 3
    funext q
    rw [round.done q]
    rcases round.place q with ⟨hbegun, -⟩ | ⟨hbegun, -⟩
    · rw [hbegun]
      simp
    · rw [hbegun]
      simp
  sections p := ⟨h.sections p, h.round.done p⟩
  ordered := h.ordered
  seen p g hpc h0 := by
    obtain ⟨R, hturn⟩ := h.round.inSection hpc
    exact hturn.seen h0 p g hpc

/-- The sections of any number of processors, over any number of rounds. -/
theorem sections_exclusive (heap : H) (c : Config (Fin n) (Shared n H) (Local H))
    (h : (process n H).Reachable (Start heap) c) : Separate c := by
  refine (Process.ReachableWhile.invariant (I := Inv) ?_ ?_ h).separate
  · intro c hc
    exact hc.inv
  · intro c p a s l _ _ hc hstep
    exact hc.step hstep

/-- The second of two processors is in its section, after the first one has changed the heap. -/
theorem sections_exclusive_two : ∃ c : Config (Fin 2) (Shared 2 ℕ) (Local ℕ),
    (c.loc 1).pc = .inSection 7 ∧ Separate c := by
  have hrun : ∃ c, (process 2 ℕ).run [(0, .go), (1, .go), (1, .go), (0, .go), (0, .go),
      (0, .work fun _ => 7), (0, .go), (1, .go)] ⟨⟨0, -1, 5, []⟩, fun _ => ⟨.outside, 0, 0⟩⟩ =
        some c ∧
      (c.loc 1).pc = .inSection 7 :=
    ⟨_, rfl, rfl⟩
  obtain ⟨c, hrun, hpc⟩ := hrun
  refine ⟨c, hpc, sections_exclusive 5 c ?_⟩
  exact Process.reachable_of_run (.start ⟨rfl, fun _ => rfl⟩) hrun

end MultiMLton.Processor
