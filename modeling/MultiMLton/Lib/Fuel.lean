import Mathlib.Order.Filter.AtTopBot.Basic
import Mathlib.Tactic

/-!
# Loops with fuel

A loop that need not end is a function of the turns it may take, its fuel, and returns nothing
without enough of it. `Yields` is what it returns with enough.
-/

namespace MultiMLton.Lib

open Filter

/-- With enough fuel `f` returns `r`. -/
def Yields {ρ : Type} (f : ℕ → Option ρ) (r : ρ) : Prop := ∀ᶠ fuel in atTop, f fuel = some r

section Yields

variable {ρ τ : Type} {f g : ℕ → Option ρ} {r r' : ρ}

theorem Yields.of_forall (h : ∀ fuel, f fuel = some r) : Yields f r := Eventually.of_forall h

theorem Yields.congr (h : Yields f r) (heq : ∀ fuel, g fuel = f fuel) : Yields g r :=
  h.mono fun fuel hfuel => (heq fuel).trans hfuel

theorem Yields.unique (h : Yields f r) (h' : Yields f r') : r = r' := by
  obtain ⟨fuel, h1, h2⟩ := (h.and h').exists
  exact Option.some.inj (h1.symm.trans h2)

/-- One more turn. -/
theorem Yields.succ (h : Yields f r) (hg : ∀ fuel, g (fuel + 1) = f fuel) : Yields g r := by
  obtain ⟨k, hk⟩ := eventually_atTop.1 h
  refine eventually_atTop.2 ⟨k + 1, fun fuel hfuel => ?_⟩
  obtain ⟨fuel, rfl⟩ := Nat.exists_eq_add_of_le' (Nat.le_trans (Nat.le_add_left 1 k) hfuel)
  rw [hg]
  exact hk fuel (Nat.le_of_succ_le_succ hfuel)

theorem Yields.of_succ (h : ∀ fuel, g (fuel + 1) = some r) : Yields g r :=
  (Yields.of_forall (f := fun _ => some r) fun _ => rfl).succ h

theorem Yields.bind {t : τ} {k : ρ → ℕ → Option τ} (h : Yields f r) (hk : Yields (k r) t) :
    Yields (fun fuel => (f fuel).bind fun a => k a fuel) t := by
  filter_upwards [h, hk] with fuel h1 h2
  rw [h1, Option.bind_some, h2]

theorem Yields.map (h : Yields f r) (k : ρ → τ) : Yields (fun fuel => (f fuel).map k) (k r) := by
  filter_upwards [h] with fuel h1
  rw [h1, Option.map_some]

end Yields

end MultiMLton.Lib
