import Mathlib.Data.List.Basic

/-!
# Systems that step and emit

A system starts in one state and steps from state to state; a step may emit events, and a state may
be an outcome. What can be seen of it:

* `Finishes`: it emits some events and comes to an outcome;
* `GetsStuck`: it emits some events, and then can neither step nor is at an outcome.

Where one system takes several steps for one of the other, the steps cannot be compared one by one,
but what the systems emit and how they end can (`SameObservable`, `Follows.sameObservable`).
-/

namespace MultiMLton.Lib

open Option Nat

/-- A system that emits events of type `ε` and ends in outcomes of type `ο`. -/
structure StepSystem (ε ο : Type) where
  State : Type
  start : State
  step : State → Option (List ε × State)
  outcome : State → Option ο

namespace StepSystem

variable {ε ο : Type}

/-- What `n` steps from a state emit, and where they lead. -/
def run (S : StepSystem ε ο) : ℕ → S.State → Option (List ε × S.State)
  | 0, s => some ([], s)
  | n + 1, s => do
    let (e, t) ← S.step s
    let (es, u) ← S.run n t
    some (e ++ es, u)

def Finishes (S : StepSystem ε ο) (es : List ε) (o : ο) : Prop :=
  ∃ n t, S.run n S.start = some (es, t) ∧ S.outcome t = some o

def GetsStuck (S : StepSystem ε ο) (es : List ε) : Prop :=
  ∃ n t, S.run n S.start = some (es, t) ∧ S.outcome t = none ∧ S.step t = none

variable {S S' : StepSystem ε ο} {R : S.State → S'.State → Prop}

/-! ### Runs to an end -/

theorem run_add (m n : ℕ) (s : S.State) :
    S.run (m + n) s = (S.run m s).bind fun a => (S.run n a.2).map fun b => (a.1 ++ b.1, b.2) := by
  induction m generalizing s with
  | zero => simp [run]
  | succ m ih =>
    rw [succ_add]
    simp only [run, bind_eq_bind]
    cases S.step s with
    | none => rfl
    | some a =>
      simp only [Option.bind_some, ih]
      cases S.run m a.2 with
      | none => rfl
      | some b =>
        simp only [Option.bind_some]
        cases S.run n b.2 with
        | none => rfl
        | some c => simp [List.append_assoc]

theorem run_append {m n : ℕ} {s t u : S.State} {es es' : List ε} (h : S.run m s = some (es, t))
    (h' : S.run n t = some (es', u)) : S.run (m + n) s = some (es ++ es', u) := by
  rw [run_add, h, Option.bind_some, h', map_some]

theorem run_one (s : S.State) : S.run 1 s = S.step s := by
  cases h : S.step s <;> simp [run, h]

theorem run_of_step_none {s : S.State} (h : S.step s = none) {n : ℕ} {a}
    (hn : S.run n s = some a) : n = 0 ∧ a = ([], s) := by
  cases n with
  | zero => exact ⟨rfl, by simpa [run] using hn.symm⟩
  | succ n => simp [run, h] at hn

/-- No run is longer than one that has stopped. -/
theorem le_of_run_stop {s t : S.State} {m n : ℕ} {es : List ε} {a} (h : S.run m s = some (es, t))
    (hstop : S.step t = none) (h' : S.run n s = some a) : n ≤ m := by
  by_contra hlt
  obtain ⟨k, rfl⟩ := Nat.exists_eq_add_of_le (Nat.le_of_not_le hlt)
  rw [run_add, h, Option.bind_some, Option.map_eq_some_iff] at h'
  obtain ⟨b, hb, -⟩ := h'
  have := (run_of_step_none hstop hb).1
  omega

theorem run_stop_unique {s t t' : S.State} {m n : ℕ} {es es' : List ε}
    (h : S.run m s = some (es, t)) (hstop : S.step t = none) (h' : S.run n s = some (es', t'))
    (hstop' : S.step t' = none) : es = es' ∧ t = t' := by
  have heq : m = n := Nat.le_antisymm (le_of_run_stop h' hstop' h) (le_of_run_stop h hstop h')
  subst heq
  rw [h] at h'
  cases h'
  exact ⟨rfl, rfl⟩

/-- A run that is too long has stopped before. -/
theorem exists_last {n : ℕ} (h : S.run n S.start = none) :
    ∃ m es u, m < n ∧ S.run m S.start = some (es, u) ∧ S.step u = none := by
  induction n with
  | zero => cases h
  | succ n ih =>
    by_cases hn : S.run n S.start = none
    · obtain ⟨m, es, u, hm, hrest⟩ := ih hn
      exact ⟨m, es, u, by omega, hrest⟩
    · obtain ⟨⟨es, u⟩, hu⟩ := ne_none_iff_exists'.1 hn
      refine ⟨n, es, u, lt_succ_self n, hu, ?_⟩
      rw [run_add, hu, Option.bind_some, map_eq_none_iff] at h
      cases hstep : S.step u with
      | none => rfl
      | some a => simp [run, hstep] at h

/-! ### Systems that take more steps -/

/-- The system never ends. -/
def GoesOnForever (S : StepSystem ε ο) : Prop := ∀ n, S.run n S.start ≠ none

/-- The system emits these events first. -/
def Emits (S : StepSystem ε ο) (es : List ε) : Prop :=
  ∃ n es' t, S.run n S.start = some (es', t) ∧ es <+: es'

/-- Two systems emit the same events and end in the same way, in whatever number of steps. -/
structure SameObservable (S S' : StepSystem ε ο) : Prop where
  finishes : ∀ es o, S.Finishes es o ↔ S'.Finishes es o
  getsStuck : ∀ es, S.GetsStuck es ↔ S'.GetsStuck es
  goesOnForever : S.GoesOnForever ↔ S'.GoesOnForever
  emits : ∀ es, S.Emits es ↔ S'.Emits es

/-- A step of the first system is one or more of the other one, with the same events. -/
structure Follows (S S' : StepSystem ε ο) (R : S.State → S'.State → Prop) : Prop where
  start : R S.start S'.start
  step : ∀ s s', R s s' → ∀ e t, S.step s = some (e, t) →
    ∃ n t', S'.run (n + 1) s' = some (e, t') ∧ R t t'
  stop : ∀ s s', R s s' → S.step s = none → ∃ n t', S'.run n s' = some ([], t') ∧
    S'.step t' = none ∧ S'.outcome t' = S.outcome s

theorem SameObservable.trans {S'' : StepSystem ε ο} (h : SameObservable S S')
    (h' : SameObservable S' S'') : SameObservable S S'' where
  finishes es o := (h.finishes es o).trans (h'.finishes es o)
  getsStuck es := (h.getsStuck es).trans (h'.getsStuck es)
  goesOnForever := h.goesOnForever.trans h'.goesOnForever
  emits es := (h.emits es).trans (h'.emits es)

/-- A run that goes on comes to all its beginnings. -/
theorem run_le {m n : ℕ} (hle : m ≤ n) {s : S.State} {es t} (h : S.run n s = some (es, t)) :
    ∃ es' t', S.run m s = some (es', t') ∧ es' <+: es := by
  obtain ⟨k, rfl⟩ := Nat.exists_eq_add_of_le hle
  rw [run_add, Option.bind_eq_some_iff] at h
  obtain ⟨a, ha, h⟩ := h
  obtain ⟨b, -, heq⟩ := Option.map_eq_some_iff.1 h
  cases heq
  exact ⟨a.1, a.2, ha, List.prefix_append a.1 b.1⟩

namespace Follows

/-- `n` steps of the first system are so many or more of the other one. -/
theorem run (h : Follows S S' R) {n : ℕ} {s s'} (hs : R s s') {es t}
    (ht : S.run n s = some (es, t)) : ∃ n' t', n ≤ n' ∧ S'.run n' s' = some (es, t') ∧ R t t' := by
  induction n generalizing s s' es with
  | zero =>
    cases ht
    exact ⟨0, s', Nat.le_refl 0, rfl, hs⟩
  | succ n ih =>
    simp only [StepSystem.run, bind_eq_bind, Option.bind_eq_some_iff, Prod.exists] at ht
    obtain ⟨e, u, hu, es', v, hv, heq⟩ := ht
    cases heq
    obtain ⟨k, u', hu', hR⟩ := h.step s s' hs e u hu
    obtain ⟨n', v', hle, hv', hR'⟩ := ih hR hv
    exact ⟨k + 1 + n', v', by omega, run_append hu' hv', hR'⟩

/-- The other system stops too. -/
theorem run_stop (h : Follows S S' R) {n : ℕ} {es t} (ht : S.run n S.start = some (es, t))
    (hstop : S.step t = none) : ∃ n' t', S'.run n' S'.start = some (es, t') ∧ S'.step t' = none ∧
      S'.outcome t' = S.outcome t := by
  obtain ⟨n', t', -, ht', hR⟩ := h.run h.start ht
  obtain ⟨k, u, hu, hustop, hout⟩ := h.stop t t' hR hstop
  exact ⟨n' + k, u, by simpa using run_append ht' hu, hustop, hout⟩

/-- A run of the first system that cannot go on from where the other one has stopped. -/
theorem exists_stop (h : Follows S S' R) {n : ℕ} {es t} (ht : S'.run n S'.start = some (es, t))
    (hstop : S'.step t = none) : ∃ m u, S.run m S.start = some (es, u) ∧ S.step u = none ∧
      S.outcome u = S'.outcome t := by
  -- the first system cannot take more steps than the other one
  have hnone : S.run (n + 1) S.start = none := by
    by_contra hne
    obtain ⟨⟨es', u⟩, hu⟩ := ne_none_iff_exists'.1 hne
    obtain ⟨n', u', hle, hu', -⟩ := h.run h.start hu
    have := le_of_run_stop ht hstop hu'
    omega
  obtain ⟨m, es', u, -, hu, hustop⟩ := exists_last hnone
  obtain ⟨n', u', hu', hstop', hout⟩ := h.run_stop hu hustop
  obtain ⟨rfl, rfl⟩ := run_stop_unique hu' hstop' ht hstop
  exact ⟨m, u, hu, hustop, hout.symm⟩

theorem goesOnForever_iff (h : Follows S S' R) : S.GoesOnForever ↔ S'.GoesOnForever := by
  constructor
  · intro hall n hn
    obtain ⟨⟨es, t⟩, ht⟩ := ne_none_iff_exists'.1 (hall n)
    obtain ⟨n', t', hle, ht', -⟩ := h.run h.start ht
    obtain ⟨es', u, hu, -⟩ := run_le hle ht'
    rw [hn] at hu
    cases hu
  · intro hall n hn
    obtain ⟨m, es, u, -, hu, hstop⟩ := exists_last hn
    obtain ⟨n', u', hu', hstop', -⟩ := h.run_stop hu hstop
    obtain ⟨a, ha⟩ := ne_none_iff_exists'.1 (hall (n' + 1))
    have := le_of_run_stop hu' hstop' ha
    omega

/-- Where the other system has come to, the first one goes as far or has ended. -/
theorem emits_of_run (h : Follows S S' R) {n : ℕ} {es t} (ht : S'.run n S'.start = some (es, t)) :
    S.Emits es := by
  have hprefix {m n' : ℕ} {es' : List ε} {u : S.State} {u' : S'.State}
      (hu : S.run m S.start = some (es', u)) (hle : n ≤ n')
      (hu' : S'.run n' S'.start = some (es', u')) : S.Emits es := by
    obtain ⟨es₁, t₁, hrun, hprefix⟩ := run_le hle hu'
    rw [ht] at hrun
    cases hrun
    exact ⟨m, es', u, hu, hprefix⟩
  by_cases hn : S.run n S.start = none
  · obtain ⟨m, es', u, -, hu, hustop⟩ := exists_last hn
    obtain ⟨n', u', hu', hstop', -⟩ := h.run_stop hu hustop
    exact hprefix hu (le_of_run_stop hu' hstop' ht) hu'
  · obtain ⟨⟨es', u⟩, hu⟩ := ne_none_iff_exists'.1 hn
    obtain ⟨n', u', hle, hu', -⟩ := h.run h.start hu
    exact hprefix hu hle hu'

/-- A system that follows another one has the same observable behaviour, if both stop at outcomes. -/
theorem sameObservable (h : Follows S S' R) (hend : ∀ s, (S.outcome s).isSome → S.step s = none)
    (hend' : ∀ s, (S'.outcome s).isSome → S'.step s = none) : SameObservable S S' where
  finishes es o := by
    constructor
    · rintro ⟨n, t, ht, ho⟩
      obtain ⟨n', t', ht', -, hout⟩ := h.run_stop ht (hend t (by simp [ho]))
      exact ⟨n', t', ht', hout.trans ho⟩
    · rintro ⟨n, t, ht, ho⟩
      obtain ⟨m, u, hu, -, hout⟩ := h.exists_stop ht (hend' t (by simp [ho]))
      exact ⟨m, u, hu, hout.trans ho⟩
  getsStuck es := by
    constructor
    · rintro ⟨n, t, ht, ho, hstep⟩
      obtain ⟨n', t', ht', hstop, hout⟩ := h.run_stop ht hstep
      exact ⟨n', t', ht', hout.trans ho, hstop⟩
    · rintro ⟨n, t, ht, ho, hstep⟩
      obtain ⟨m, u, hu, hstop, hout⟩ := h.exists_stop ht hstep
      exact ⟨m, u, hu, hout.trans ho, hstop⟩
  goesOnForever := h.goesOnForever_iff
  emits es := by
    constructor
    · rintro ⟨n, es', t, ht, hprefix⟩
      obtain ⟨n', t', -, ht', -⟩ := h.run h.start ht
      exact ⟨n', es', t', ht', hprefix⟩
    · rintro ⟨n, es', t, ht, hprefix⟩
      obtain ⟨m, es₁, u, hu, hprefix'⟩ := h.emits_of_run ht
      exact ⟨m, es₁, u, hu, hprefix.trans hprefix'⟩

end Follows

end StepSystem

end MultiMLton.Lib
