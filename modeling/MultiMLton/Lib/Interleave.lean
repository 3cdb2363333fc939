import Mathlib.Data.List.Perm.Subperm
import Mathlib.Logic.Function.Basic

/-!
# Interleaved processes over a shared store

A `Process` is the code that every thread runs: `step t k s l` is the next atomic step of
thread `t` at local state `l` on the shared store `s`, with `k` resolving whatever choice the
code leaves open; `none` means that the thread cannot move.  A configuration is the store and
the local state of every thread, and a step of the system is a step of one thread, so a
thread's local state is changed by that thread only.

* `Config`, `Process.fire`, `Process.run`, `Process.runWhile`;
* `ReachableWhile C init`: reachable from `init` by steps that meet the condition `C`, and
  `Reachable`;
* `ReachableWhile.invariant`, the induction over a run, and `ReachableWhile.local_assertion`,
  its form for assertions attached to the threads (own step, and non-interference), and
  `ReachableWhile.simulation`, by which a run is a run of a more abstract process;
* `Exclusive`: every token is held by one thread or lies in the store, and `Exclusive.put`: steps
  that only move, drop and create tokens keep it so.
-/

namespace Interleave

open List Option Function

universe u v w x

/-- The store and the local state of every thread. -/
@[ext] structure Config (τ : Type u) (σ : Type v) (Λ : Type w) where
  shared : σ
  loc : τ → Λ

/-- The code of the threads, one atomic step at a time. -/
structure Process (τ : Type u) (κ : Type x) (σ : Type v) (Λ : Type w) where
  step : τ → κ → σ → Λ → Option (σ × Λ)

variable {τ : Type u} {κ : Type x} {σ : Type v} {Λ : Type w} [DecidableEq τ]

/-- The configuration after thread `t` has moved to `l` and the store to `s`. -/
def Config.put (c : Config τ σ Λ) (t : τ) (s : σ) (l : Λ) : Config τ σ Λ :=
  ⟨s, Function.update c.loc t l⟩

@[simp] theorem Config.put_shared (c : Config τ σ Λ) (t : τ) (s : σ) (l : Λ) :
    (c.put t s l).shared = s := rfl

@[simp] theorem Config.put_loc_self (c : Config τ σ Λ) (t : τ) (s : σ) (l : Λ) :
    (c.put t s l).loc t = l := by
  simp [Config.put]

@[simp] theorem Config.put_loc_of_ne {t u : τ} (h : u ≠ t) (c : Config τ σ Λ) (s : σ) (l : Λ) :
    (c.put t s l).loc u = c.loc u := by
  simp [Config.put, h]

theorem Config.put_loc (c : Config τ σ Λ) (t u : τ) (s : σ) (l : Λ) :
    (c.put t s l).loc u = if u = t then l else c.loc u := by
  by_cases h : u = t
  · subst h; simp
  · simp [h]

/-- What holds of every thread still holds when it holds of the one that has moved. -/
theorem Config.forall_put {c : Config τ σ Λ} {t : τ} {s : σ} {l : Λ} {Q : Λ → Prop} (hl : Q l)
    (h : ∀ u, Q (c.loc u)) (u : τ) : Q ((c.put t s l).loc u) := by
  rw [Config.put_loc]
  split_ifs
  · exact hl
  · exact h u

theorem Config.put_self (c : Config τ σ Λ) (t : τ) (s : σ) : c.put t s (c.loc t) = ⟨s, c.loc⟩ :=
  congrArg (Config.mk s) (update_eq_self t c.loc)

/-- What is read off from the local states changes for one thread. -/
theorem Config.put_map {β : Type*} (f : τ → Λ → β) (c : Config τ σ Λ) (t : τ) (s : σ) (l : Λ) :
    (fun u => f u ((c.put t s l).loc u)) = Function.update (fun u => f u (c.loc u)) t (f t l) := by
  funext u
  rw [Config.put_loc]
  by_cases h : u = t
  · rw [if_pos h, h, update_self]
  · rw [if_neg h, update_of_ne h]

/-- The configuration seen through a view of the store and of the local states. -/
def Config.map {σ' Λ' : Type*} (f : σ → σ') (g : Λ → Λ') (c : Config τ σ Λ) : Config τ σ' Λ' :=
  ⟨f c.shared, fun t => g (c.loc t)⟩

theorem Config.map_put {σ' Λ' : Type*} (f : σ → σ') (g : Λ → Λ') (c : Config τ σ Λ) (t : τ) (s : σ)
    (l : Λ) : (c.put t s l).map f g = (c.map f g).put t (f s) (g l) :=
  congrArg (Config.mk (f s)) (Config.put_map (fun _ => g) c t s l)

/-! ### Tokens -/

/-- No token is held by two threads, or by a thread while it lies in the pool of the store. -/
structure Exclusive {ι : Type*} (tok : Λ → List ι) (pool : σ → List ι) (c : Config τ σ Λ) :
    Prop where
  lying : (pool c.shared).Nodup
  own : ∀ t, (tok (c.loc t) ++ pool c.shared).Nodup
  apart : ∀ t u, t ≠ u → (tok (c.loc t)).Disjoint (tok (c.loc u))

/-- A step of a thread that moves its tokens and those of the pool, drops some of them and creates
`new` ones. -/
theorem Exclusive.put {ι : Type*} {tok : Λ → List ι} {pool : σ → List ι} {c : Config τ σ Λ}
    (h : Exclusive tok pool c) {t : τ} {s : σ} {l : Λ} (new : List ι) (hnew : new.Nodup)
    (hfresh : ∀ x ∈ new, x ∉ pool c.shared ∧ ∀ u, x ∉ tok (c.loc u))
    (hsub : (tok l ++ pool s).Subperm (new ++ (tok (c.loc t) ++ pool c.shared))) :
    Exclusive tok pool (c.put t s l) := by
  have hall : (new ++ (tok (c.loc t) ++ pool c.shared)).Nodup := by
    refine nodup_append.mpr ⟨hnew, h.own t, ?_⟩
    rintro x hx y hy rfl
    rcases mem_append.mp hy with hy | hy
    · exact (hfresh x hx).2 t hy
    · exact (hfresh x hx).1 hy
  have hnodup : (tok l ++ pool s).Nodup := by
    obtain ⟨l', hperm, hsublist⟩ := hsub
    exact hperm.nodup_iff.mp (hall.sublist hsublist)
  -- another thread holds neither the new tokens nor those of the pool or of `t`
  have hother : ∀ u, u ≠ t → ∀ x ∈ tok (c.loc u), x ∉ tok l ++ pool s := by
    intro u hu x hx hmem
    rcases mem_append.mp (hsub.subset hmem) with hm | hm
    · exact (hfresh x hm).2 u hx
    rcases mem_append.mp hm with hm | hm
    · exact h.apart u t hu hx hm
    · exact (nodup_append.mp (h.own u)).2.2 x hx x hm rfl
  refine ⟨(nodup_append.mp hnodup).2.1, fun u => ?_, fun u v huv => ?_⟩
  · by_cases hu : u = t
    · subst hu
      simpa using hnodup
    · rw [Config.put_loc_of_ne hu, Config.put_shared]
      refine nodup_append.mpr ⟨(nodup_append.mp (h.own u)).1,
        (nodup_append.mp hnodup).2.1, ?_⟩
      rintro x hx y hy rfl
      exact hother u hu x hx (mem_append_right _ hy)
  · by_cases hu : u = t
    · subst hu
      rw [Config.put_loc_self, Config.put_loc_of_ne huv.symm]
      exact fun x hx hy => hother v huv.symm x hy (mem_append_left _ hx)
    · by_cases hv : v = t
      · subst hv
        rw [Config.put_loc_self, Config.put_loc_of_ne hu]
        exact fun x hx hy => hother u hu x hx (mem_append_left _ hy)
      · rw [Config.put_loc_of_ne hu, Config.put_loc_of_ne hv]
        exact h.apart u v huv

namespace Process

variable (P : Process τ κ σ Λ)

/-- One step of the system: thread `a.1` moves, with choice `a.2`. -/
def fire (a : τ × κ) (c : Config τ σ Λ) : Option (Config τ σ Λ) :=
  (P.step a.1 a.2 c.shared (c.loc a.1)).map fun r => c.put a.1 r.1 r.2

/-- Run a schedule. -/
def run : List (τ × κ) → Config τ σ Λ → Option (Config τ σ Λ)
  | [], c => some c
  | a :: as, c => (P.fire a c).bind (run as)

/-- Reachable from `init` by steps that meet the condition `C`. -/
inductive ReachableWhile (C : Config τ σ Λ → τ × κ → Prop) (init : Config τ σ Λ → Prop) :
    Config τ σ Λ → Prop
  | start {c} : init c → ReachableWhile C init c
  | step {c c' a} : ReachableWhile C init c → C c a → P.fire a c = some c' →
      ReachableWhile C init c'

/-- Reachable by any steps. -/
abbrev Reachable (init : Config τ σ Λ → Prop) : Config τ σ Λ → Prop :=
  P.ReachableWhile (fun _ _ => True) init

variable {P} {C : Config τ σ Λ → τ × κ → Prop} {init : Config τ σ Λ → Prop}

variable {c c' : Config τ σ Λ}

theorem fire_eq_some_iff {a : τ × κ} : P.fire a c = some c' ↔
      ∃ s l, P.step a.1 a.2 c.shared (c.loc a.1) = some (s, l) ∧ c' = c.put a.1 s l := by
  simp only [fire, map_eq_some_iff, Prod.exists]
  exact ⟨fun ⟨s, l, h, e⟩ => ⟨s, l, h, e.symm⟩, fun ⟨s, l, h, e⟩ => ⟨s, l, h, e.symm⟩⟩

/-- The induction over a run: what holds at the start and is kept by every step that meets
the condition holds of every configuration reached. -/
theorem ReachableWhile.invariant {I : Config τ σ Λ → Prop} (h0 : ∀ c, init c → I c)
    (hs : ∀ c t k s l, P.ReachableWhile C init c → C c (t, k) → I c →
      P.step t k c.shared (c.loc t) = some (s, l) → I (c.put t s l))
    {c : Config τ σ Λ} (h : P.ReachableWhile C init c) : I c := by
  induction h with
  | start hc => exact h0 _ hc
  | step hr hc hf ih =>
    obtain ⟨s, l, hstep, rfl⟩ := fire_eq_some_iff.1 hf
    exact hs _ _ _ _ _ hr hc ih hstep

/-- Assertions attached to the threads: an assertion `A t l s` of thread `t` at `l` holds
throughout if the thread's own steps keep it and no step of another thread disturbs it. -/
theorem ReachableWhile.local_assertion {A : τ → Λ → σ → Prop}
    (h0 : ∀ c, init c → ∀ t, A t (c.loc t) c.shared)
    (own : ∀ c t k s l, P.ReachableWhile C init c → C c (t, k) →
      (∀ u, A u (c.loc u) c.shared) →
      P.step t k c.shared (c.loc t) = some (s, l) → A t l s)
    (other : ∀ c t k s l u, P.ReachableWhile C init c → C c (t, k) → u ≠ t →
      (∀ u, A u (c.loc u) c.shared) →
      P.step t k c.shared (c.loc t) = some (s, l) → A u (c.loc u) s)
    {c : Config τ σ Λ} (h : P.ReachableWhile C init c) (t : τ) : A t (c.loc t) c.shared := by
  refine ReachableWhile.invariant (I := fun c => ∀ t, A t (c.loc t) c.shared) h0 ?_ h t
  intro c t k s l hr hc hA hstep u
  by_cases hu : u = t
  · subst hu
    simpa using own c u k s l hr hc hA hstep
  · simpa [hu] using other c t k s l u hr hc hu hA hstep

/-- A run under a condition is a run. -/
theorem ReachableWhile.reachable {c : Config τ σ Λ} (h : P.ReachableWhile C init c) :
    P.Reachable init c := by
  induction h with
  | start hc => exact .start hc
  | step _ _ hf ih => exact .step ih trivial hf

/-- A run under a condition that implies another one is a run under that. -/
theorem ReachableWhile.weaken {C' : Config τ σ Λ → τ × κ → Prop} {c : Config τ σ Λ}
    (hC : ∀ c a, P.ReachableWhile C init c → C c a → C' c a) (h : P.ReachableWhile C init c) :
    P.ReachableWhile C' init c := by
  induction h with
  | start hc => exact .start hc
  | step hr hc hf ih => exact .step ih (hC _ _ hr hc) hf

/-- Forward simulation along a view: when every step under `C` keeps `I` and is seen as a step of
`Q` under `D`, a run under `C` is seen as a run of `Q` under `D`. -/
theorem ReachableWhile.simulation {σ' Λ' : Type*} {f : σ → σ'} {g : Λ → Λ'} {Q : Process τ κ σ' Λ'}
    {D : Config τ σ' Λ' → τ × κ → Prop} {init' : Config τ σ' Λ' → Prop}
    {I : Config τ σ Λ → Prop} (h0 : ∀ c, init c → I c ∧ init' (c.map f g))
    (hs : ∀ c t k s l, C c (t, k) → I c → P.step t k c.shared (c.loc t) = some (s, l) →
      I (c.put t s l) ∧ D (c.map f g) (t, k) ∧
        Q.step t k (f c.shared) (g (c.loc t)) = some (f s, g l))
    {c : Config τ σ Λ} (h : P.ReachableWhile C init c) :
    I c ∧ Q.ReachableWhile D init' (c.map f g) := by
  induction h with
  | start hc => exact ⟨(h0 _ hc).1, .start (h0 _ hc).2⟩
  | step hr hc hf ih =>
    obtain ⟨s, l, hstep, rfl⟩ := fire_eq_some_iff.1 hf
    obtain ⟨hI, hD, hQ⟩ := hs _ _ _ _ _ hc ih.1 hstep
    refine ⟨hI, .step ih.2 hD (fire_eq_some_iff.2 ⟨_, _, hQ, ?_⟩)⟩
    exact Config.map_put f g _ _ s l

/-- A thread that is not scheduled stays where it is. -/
theorem run_loc_of_notMem {as : List (τ × κ)} (h : P.run as c = some c')
    {u : τ} (hu : u ∉ as.map Prod.fst) : c'.loc u = c.loc u := by
  induction as generalizing c with
  | nil => cases h; rfl
  | cons a as ih =>
    obtain ⟨d, hd, hr⟩ := bind_eq_some_iff.1 h
    obtain ⟨s, l, -, rfl⟩ := fire_eq_some_iff.1 hd
    rw [map_cons, mem_cons, not_or] at hu
    rw [ih hr hu.2, Config.put_loc_of_ne hu.1]

/-- A schedule that runs through reaches its final configuration. -/
theorem reachable_of_run {as : List (τ × κ)} (hc : P.Reachable init c)
    (h : P.run as c = some c') : P.Reachable init c' := by
  induction as generalizing c with
  | nil => cases h; exact hc
  | cons a as ih =>
    obtain ⟨d, hd, hr⟩ := bind_eq_some_iff.1 h
    exact ih (.step hc trivial hd) hr

/-- Run a schedule, as long as its steps meet the condition. -/
def runWhile (P : Process τ κ σ Λ) (C : Config τ σ Λ → τ × κ → Prop)
    [∀ c a, Decidable (C c a)] : List (τ × κ) → Config τ σ Λ → Option (Config τ σ Λ)
  | [], c => some c
  | a :: as, c => if C c a then (P.fire a c).bind (runWhile P C as) else none

/-- Such a schedule runs through. -/
theorem run_of_runWhile [∀ c a, Decidable (C c a)] {as : List (τ × κ)}
    (h : P.runWhile C as c = some c') : P.run as c = some c' := by
  induction as generalizing c with
  | nil => exact h
  | cons a as ih =>
    rw [runWhile] at h
    split at h
    · obtain ⟨d, hd, hr⟩ := bind_eq_some_iff.1 h
      rw [run, hd]
      exact ih hr
    · cases h

theorem reachableWhile_of_runWhile [∀ c a, Decidable (C c a)] {as : List (τ × κ)}
    (hc : P.ReachableWhile C init c) (h : P.runWhile C as c = some c') :
    P.ReachableWhile C init c' := by
  induction as generalizing c with
  | nil => cases h; exact hc
  | cons a as ih =>
    rw [runWhile] at h
    split at h
    · obtain ⟨d, hd, hr⟩ := bind_eq_some_iff.1 h
      exact ih (.step hc ‹_› hd) hr
    · cases h

end Process

end Interleave
