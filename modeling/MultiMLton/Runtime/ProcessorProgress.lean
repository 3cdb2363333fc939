import Mathlib.Algebra.Order.BigOperators.Group.Finset
import MultiMLton.Runtime.Processor

/-!
# Stop-the-world sections come to an end

Wherever the processors are, one of them does not spin: the one that has counted to `n` opens the
turns, the one whose turn it is runs its section, and the one that has made the ticket `n` resets the
counters. So there is always a way out for all of them.

* `Alive`: the first and the last of these exist;
* `toGo`: the steps that a processor has to make;
* `exists_outside`.
-/

namespace MultiMLton.Processor

open Interleave
open Config

universe u

variable {n : ℕ} {H : Type u} {c : Config (Fin n) (Shared n H) (Local H)} {p q : Fin n} {a : Act H}
  {s : Shared n H} {l : Local H} {M : ℕ}

structure Alive (c : Config (Fin n) (Shared n H) (Local H)) : Prop where
  last : c.shared.criticalTicket = -1 → c.shared.criticalCount = n →
    ∃ p, (c.loc p).pc = .counted n
  ended : c.shared.criticalTicket = n →
    ∃ p, (c.loc p).pc = .ticked n ∨ (c.loc p).pc = .resetTicket

/-- Another processor than `p` that closes the round still does. -/
theorem Alive.ended_put (h : Alive c) (hticket : c.shared.criticalTicket = n)
    (hne : (c.loc p).pc ≠ .ticked n) (hne' : (c.loc p).pc ≠ .resetTicket) :
    ∃ q, ((c.put p s l).loc q).pc = .ticked n ∨ ((c.put p s l).loc q).pc = .resetTicket := by
  obtain ⟨q, hq⟩ := h.ended hticket
  refine ⟨q, ?_⟩
  rwa [put_loc_of_ne]
  rintro rfl
  exact hq.elim hne hne'

/-- A step that leaves the counters, of a processor that has nothing to open or to close. -/
theorem Alive.move (h : Alive c) (hticket : s.criticalTicket = c.shared.criticalTicket)
    (hcount : s.criticalCount = c.shared.criticalCount) (hne : (c.loc p).pc ≠ .counted n)
    (hne' : (c.loc p).pc ≠ .ticked n) (hne'' : (c.loc p).pc ≠ .resetTicket) :
    Alive (c.put p s l) where
  last ht hc := by
    obtain ⟨q, hq⟩ := h.last (hticket ▸ ht) (hcount ▸ hc)
    refine ⟨q, ?_⟩
    rwa [put_loc_of_ne]
    rintro rfl
    exact hne hq
  ended ht := h.ended_put (hticket ▸ ht) hne' hne''

theorem Round.resetTicket (h : Round c) (hpc : (c.loc p).pc = .resetTicket) :
    c.shared.criticalCount = 0 := by
  cases h with
  | gathering R round =>
    have hplace := round.place p
    simp [hpc] at hplace
  | serving R i round =>
    rcases lt_or_ge (p : ℕ) i with hlt | hge
    · have hbefore := (round.before p hlt).2
      simp [hpc] at hbefore
    · have hafter := (round.after p hge).2
      simp [hpc] at hafter
  | closing R round =>
    have hplace := round.place p
    simp only [hpc, reduceCtorEq, and_false, exists_false, or_false, false_or, true_and] at hplace
    exact hplace.2

theorem Alive.step (h : Alive c) (hround : Round c)
    (hstep : step p a c.shared (c.loc p) = some (s, l)) : Alive (c.put p s l) := by
  have hpos : (0 : ℤ) < n := by exact_mod_cast p.pos
  cases a with
  | work f =>
    cases hpc : (c.loc p).pc <;> simp only [Processor.step, hpc] at hstep <;> cases hstep
    all_goals exact h.move rfl rfl (by simp [hpc]) (by simp [hpc]) (by simp [hpc])
  | go =>
    cases hpc : (c.loc p).pc <;> simp only [Processor.step, hpc] at hstep
    case outside =>
      cases hstep
      refine ⟨fun _ hc => ⟨p, ?_⟩, fun ht => h.ended_put ht (by simp [hpc]) (by simp [hpc])⟩
      rw [put_loc_self]
      exact congrArg PC.counted hc
    case counted v =>
      split_ifs at hstep with hv <;> cases hstep
      · exact ⟨fun ht => by simp at ht, fun ht => absurd ht hpos.ne⟩
      · exact h.move rfl rfl (by simp [hpc, hv]) (by simp [hpc]) (by simp [hpc])
    case inSection g =>
      cases hstep
      obtain ⟨R, hturn⟩ := hround.inSection hpc
      refine ⟨fun ht => ?_, fun ht => ⟨p, .inl ?_⟩⟩
      · have hticket := hturn.ticket
        rw [put_shared] at ht
        dsimp only at ht
        omega
      · rw [put_loc_self]
        exact congrArg PC.ticked ht
    case ticked v =>
      split_ifs at hstep with hv <;> cases hstep
      · exact ⟨fun _ hc => absurd hc hpos.ne, fun _ => ⟨p, .inr (by rw [put_loc_self])⟩⟩
      · exact h.move rfl rfl (by simp [hpc]) (by simp [hpc, hv]) (by simp [hpc])
    case resetTicket =>
      cases hstep
      refine ⟨fun _ hc => absurd ((hround.resetTicket hpc).symm.trans hc) hpos.ne, fun ht => ?_⟩
      rw [put_shared] at ht
      dsimp only at ht
      omega
    case waitTurn | waitEnd =>
      split_ifs at hstep <;> cases hstep <;>
        exact h.move rfl rfl (by simp [hpc]) (by simp [hpc]) (by simp [hpc])

/-! ### The way out -/

def remaining : PC H → ℕ
  | .outside => 0
  | .waitEnd => 1
  | .resetTicket => 2
  | .ticked _ => 3
  | .inSection _ => 4
  | .waitTurn => 5
  | .counted _ => 6

/-- The steps, spinning apart, until the processor is outside after `M` rounds. -/
def toGo (M : ℕ) (l : Local H) : ℕ := 7 * (M - l.begun) + remaining l.pc

/-- The processor does not spin, and begins no round after the `M`th. -/
def Goes (c : Config (Fin n) (Shared n H) (Local H)) (M : ℕ) (p : Fin n) : Prop :=
  ∃ s l, step p .go c.shared (c.loc p) = some (s, l) ∧ l.begun ≤ M ∧ toGo M l < toGo M (c.loc p)

theorem goes_of_remaining (hM : (c.loc p).begun ≤ M)
    (hstep : (step p .go c.shared (c.loc p)).map Prod.snd = some l)
    (hbegun : l.begun = (c.loc p).begun) (hlt : remaining l.pc < remaining (c.loc p).pc) :
    Goes c M p := by
  obtain ⟨⟨s, l⟩, hs, rfl⟩ := Option.map_eq_some_iff.1 hstep
  refine ⟨s, l, hs, hbegun ▸ hM, ?_⟩
  dsimp only at hbegun hlt
  rw [toGo, toGo, hbegun]
  omega

/-- After the reset of the ticket everybody leaves. -/
theorem goes_of_ticked (hM : (c.loc p).begun ≤ M) (hticket : c.shared.criticalTicket = -1)
    (hpc : (c.loc p).pc = .waitEnd ∨ ∃ v ≠ (n : ℤ), (c.loc p).pc = .ticked v) : Goes c M p := by
  rcases hpc with hpc | ⟨v, hv, hpc⟩
  · exact goes_of_remaining (l := { c.loc p with pc := .outside }) hM
      (by simp [step, hpc, hticket]) rfl (by simp [hpc, remaining])
  · exact goes_of_remaining (l := { c.loc p with pc := .waitEnd }) hM
      (by simp [step, hpc, hv]) rfl (by simp [hpc, remaining])

theorem Gathering.exists_goes {R : ℕ} (h : Gathering R c) (halive : Alive c)
    (hM : ∀ q, (c.loc q).begun ≤ M) (hp : (c.loc p).pc ≠ .outside) : ∃ q, Goes c M q := by
  rcases h.place p with ⟨-, hpc⟩ | ⟨hbegun, -⟩
  · exact ⟨p, goes_of_ticked (hM p) h.ticket (hpc.resolve_left hp)⟩
  · by_cases hall : ∀ q, (c.loc q).begun = R + 1
    · -- everybody has begun, and the last one has not gone on
      obtain ⟨q, hq⟩ := halive.last h.ticket (by simp [h.count, hall])
      exact ⟨q, goes_of_remaining (l := { c.loc q with pc := .waitTurn }) (hM q)
        (by simp [Processor.step, hq]) rfl (by simp [hq, remaining])⟩
    · push Not at hall
      obtain ⟨q, hq⟩ := hall
      obtain ⟨hbegun', hpc⟩ := (h.place q).resolve_right fun hq' => hq hq'.1
      rcases hpc with hpc | hpc
      · have hle := hM p
        refine ⟨q, { c.shared with criticalCount := c.shared.criticalCount + 1 },
          ⟨.counted (c.shared.criticalCount + 1), (c.loc q).begun + 1, (c.loc q).done⟩, ?_, ?_, ?_⟩
        · simp only [Processor.step, hpc]
        · dsimp only
          omega
        · simp only [toGo, remaining, hpc]
          omega
      · exact ⟨q, goes_of_ticked (hM q) h.ticket hpc⟩

theorem exists_goes (h : Round c) (halive : Alive c) (hM : ∀ q, (c.loc q).begun ≤ M)
    (hp : (c.loc p).pc ≠ .outside) : ∃ q, Goes c M q := by
  cases h with
  | gathering R round => exact round.exists_goes halive hM hp
  | serving R i round =>
    refine ⟨⟨i, round.lt⟩, ?_⟩
    have hticket := round.ticket
    obtain ⟨-, hpc | ⟨v, hv, hpc⟩ | ⟨-, g, hpc⟩⟩ := round.after ⟨i, round.lt⟩ le_rfl
    · exact goes_of_remaining (l := { c.loc ⟨i, round.lt⟩ with pc := .inSection c.shared.heap })
        (hM _) (by simp [step, hpc, hticket]) rfl (by simp [hpc, remaining])
    · exact goes_of_remaining (l := { c.loc ⟨i, round.lt⟩ with pc := .waitTurn })
        (hM _) (by simp [step, hpc, hv]) rfl (by simp [hpc, remaining])
    · exact goes_of_remaining (l := ⟨.ticked (i + 1), R + 1, _⟩) (hM _)
        (by simp [step, hpc, hticket, round.begun]; rfl) (round.begun _).symm
        (by simp [hpc, remaining])
  | closing R round =>
    obtain ⟨q, hpc | hpc⟩ := halive.ended round.ticket
    · exact ⟨q, goes_of_remaining (l := { c.loc q with pc := .resetTicket }) (hM q)
        (by simp [step, hpc]) rfl (by simp [hpc, remaining])⟩
    · exact ⟨q, goes_of_remaining (l := { c.loc q with pc := .waitEnd }) (hM q)
        (by simp [step, hpc]) rfl (by simp [hpc, remaining])⟩

/-- **No interleaving locks up**: wherever it has led, some further steps bring all processors out of
their sections. -/
theorem exists_outside {heap : H} (h : (process n H).Reachable (Start heap) c) :
    ∃ (ps : List (Fin n)) (c' : Config (Fin n) (Shared n H) (Local H)),
      (process n H).run (ps.map fun p => (p, .go)) c = some c' ∧
        ∀ p, (c'.loc p).pc = .outside := by
  rcases Nat.eq_zero_or_pos n with rfl | hn
  · exact ⟨[], c, rfl, fun p => p.elim0⟩
  obtain ⟨M, hM⟩ : ∃ M, ∀ q, (c.loc q).begun ≤ M :=
    ⟨_, fun q => Finset.le_sup (f := fun q => (c.loc q).begun) (Finset.mem_univ q)⟩
  obtain ⟨hround, halive⟩ : Round c ∧ Alive c := by
    refine Process.ReachableWhile.invariant (I := fun c => Round c ∧ Alive c) ?_ ?_ h
    · rintro c hc
      refine ⟨hc.inv.round, fun _ hcount => ?_, fun hticket => ?_⟩
      · rw [hc.1] at hcount
        dsimp only at hcount
        omega
      · rw [hc.1] at hticket
        dsimp only at hticket
        omega
    · exact fun c p a s l _ _ hc hstep => ⟨hc.1.step hstep, hc.2.step hc.1 hstep⟩
  clear h
  -- by induction on the steps to go
  induction hk : ∑ q, toGo M (c.loc q) using Nat.strong_induction_on generalizing c with
  | _ k ih =>
    by_cases hall : ∀ p, (c.loc p).pc = .outside
    · exact ⟨[], c, rfl, hall⟩
    · push Not at hall
      obtain ⟨p, hp⟩ := hall
      obtain ⟨q, s, l, hstep, hbegun, hlt⟩ := exists_goes hround halive hM hp
      have hM' : ∀ r, ((c.put q s l).loc r).begun ≤ M :=
        forall_put (Q := fun l : Local H => l.begun ≤ M) hbegun hM
      have hsum : ∑ r, toGo M ((c.put q s l).loc r) < k := by
        rw [← hk]
        refine Finset.sum_lt_sum (fun r _ => ?_) ⟨q, Finset.mem_univ q, by rwa [put_loc_self]⟩
        rw [put_loc]
        split_ifs with hr
        · rw [hr]
          exact hlt.le
        · exact le_rfl
      obtain ⟨ps, c', hrun, hout⟩ :=
        ih _ hsum hM' (hround.step hstep) (halive.step hround hstep) rfl
      refine ⟨q :: ps, c', ?_, hout⟩
      rw [List.map_cons, Process.run, Process.fire_eq_some_iff.2 ⟨s, l, hstep, rfl⟩]
      exact hrun

/-- The first of two processors waits for the second one, which has not begun. -/
theorem exists_outside_two : ∃ c : Config (Fin 2) (Shared 2 ℕ) (Local ℕ),
    (c.loc 0).pc = .waitTurn ∧ ∃ (ps : List (Fin 2)) (c' : Config (Fin 2) (Shared 2 ℕ) (Local ℕ)),
      (process 2 ℕ).run (ps.map fun p => (p, .go)) c = some c' ∧
        ∀ p, (c'.loc p).pc = .outside := by
  have hrun : ∃ c, (process 2 ℕ).run [(0, .go), (0, .go)]
      ⟨⟨0, -1, 5, []⟩, fun _ => ⟨.outside, 0, 0⟩⟩ = some c ∧ (c.loc 0).pc = .waitTurn :=
    ⟨_, rfl, rfl⟩
  obtain ⟨c, hrun, hpc⟩ := hrun
  exact ⟨c, hpc, exists_outside (Process.reachable_of_run (.start ⟨rfl, fun _ => rfl⟩) hrun)⟩

end MultiMLton.Processor
