import Mathlib.Data.List.Basic
import Mathlib.Data.List.Forall2

/-!
# Folds that may fail

Folds in `Option`: what their steps preserve, and when they succeed.
-/

namespace MultiMLton.Lib

open List Option

variable {σ α : Type}

/-- What a successful fold in `Option` preserves. -/
theorem foldlM_preserves {f : σ → α → Option σ} (P : σ → Prop) {l : List α}
    (hstep : ∀ a ∈ l, ∀ s s', P s → f s a = some s' → P s') {s s' : σ} (hs : P s)
    (h : l.foldlM f s = some s') : P s' := by
  induction l generalizing s with
  | nil =>
    cases h
    exact hs
  | cons a l ih =>
    rw [foldlM_cons, bind_eq_bind, bind_eq_some_iff] at h
    obtain ⟨s1, hs1, h⟩ := h
    exact ih (fun b hb => hstep b (mem_cons_of_mem _ hb))
      (hstep a mem_cons_self s s1 hs hs1) h

/-- A fold in `Option` succeeds if its steps do. -/
theorem foldlM_total {f : σ → α → Option σ} (P : σ → Prop) {l : List α}
    (hstep : ∀ a ∈ l, ∀ s, P s → ∃ s', f s a = some s' ∧ P s') {s : σ} (hs : P s) :
    ∃ s', l.foldlM f s = some s' ∧ P s' := by
  induction l generalizing s with
  | nil => exact ⟨s, rfl, hs⟩
  | cons a l ih =>
    obtain ⟨s1, hs1, h1⟩ := hstep a mem_cons_self s hs
    obtain ⟨s2, hs2, h2⟩ := ih (fun b hb => hstep b (mem_cons_of_mem _ hb)) h1
    exact ⟨s2, by simp [foldlM_cons, hs1, hs2], h2⟩

/-- What the step at one element establishes, and later steps keep, holds at the end. -/
theorem foldlM_establishes {f : σ → α → Option σ} (Q : α → σ → Prop) {l : List α}
    (hnew : ∀ a ∈ l, ∀ s s', f s a = some s' → Q a s')
    (hkeep : ∀ a, ∀ b ∈ l, ∀ s s', Q a s → f s b = some s' → Q a s') {s s' : σ}
    (h : l.foldlM f s = some s') : ∀ a ∈ l, Q a s' := by
  induction l generalizing s with
  | nil => exact fun a ha => absurd ha not_mem_nil
  | cons b l ih =>
    rw [foldlM_cons, bind_eq_bind, bind_eq_some_iff] at h
    obtain ⟨s1, hs1, h⟩ := h
    intro a ha
    rcases mem_cons.1 ha with rfl | ha
    · exact foldlM_preserves (Q a) (fun c hc s s' => hkeep a c (mem_cons_of_mem _ hc) s s')
        (hnew a mem_cons_self s s1 hs1) h
    · exact ih (fun c hc => hnew c (mem_cons_of_mem _ hc))
        (fun c d hd => hkeep c d (mem_cons_of_mem _ hd)) h a ha

/-- A fold that succeeds does so with steps that succeed more often. -/
theorem foldlM_mono {f g : σ → α → Option σ} {l : List α}
    (hstep : ∀ a ∈ l, ∀ s s', f s a = some s' → g s a = some s') {s s' : σ}
    (h : l.foldlM f s = some s') : l.foldlM g s = some s' := by
  induction l generalizing s with
  | nil => exact h
  | cons a l ih =>
    rw [foldlM_cons, bind_eq_bind, bind_eq_some_iff] at h
    obtain ⟨s1, hs1, h⟩ := h
    rw [foldlM_cons, hstep a mem_cons_self s s1 hs1]
    exact ih (fun b hb => hstep b (mem_cons_of_mem _ hb)) h

theorem mapM_eq_some {β : Type} {f : α → Option β} {g : α → β} {as : List α}
    (h : ∀ a ∈ as, f a = some (g a)) : as.mapM f = some (as.map g) := by
  induction as with
  | nil => rfl
  | cons a as ih =>
    rw [forall_mem_cons] at h
    simp [h.1, ih h.2]

end MultiMLton.Lib
