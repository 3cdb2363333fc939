import MultiMLton.Ssa.Multi

/-!
# What forcing a mark leaves behind

While a mark is made top, what follows from it is not there yet. `Grows` says what a call of `force`
leaves behind: more marks are top, and what follows from the new ones has been done, with exceptions
that the caller makes good.

* `Grows.foldlM`: forcing one after the other;
* `force_forces`: `force`, whatever its handlers force;
* `visitBlock_grows`: the search of a control-flow graph.
-/

namespace MultiMLton.Ssa.Multi

open MultiMLton.Lib List
open Option (bind_eq_bind bind_eq_some_iff)

/-- The marks of the copying of threads, which are done with before functions are visited. -/
def Mark.isCopy : Mark → Bool
  | threadCopyCurrentFunc _ | threadCopyCurrentLabel _ => true
  | _ => false

/-- What has been done once a task has been run. -/
def Task.Done (s : Info) : Task → Prop
  | forceThreadCopyCurrent l f =>
    s.top (.threadCopyCurrentLabel l) = true ∧ s.top (.threadCopyCurrentFunc f) = true
  | forceMultiThreadedFunc f => (∀ x ∈ f.args.map Prod.fst, s.top (.multiUsedVar x) = true) ∧
      ∀ b ∈ f.blocks, s.top (.multiThreadedLabel b.label) = true
  | forceMultiUsedFunc f => (∀ x ∈ f.args.map Prod.fst, s.top (.multiUsedVar x) = true) ∧
      ∀ b ∈ f.blocks, s.top (.multiUsedLabel b.label) = true

variable (P : Program)

/-- What follows from a mark. -/
def Follows (s : Info) : Mark → Prop
  | .multiThreadedFunc f => s.top (.multiUsedFunc f) = true
  | .multiThreadedLabel l => ∀ b ∈ P.blocks, b.label = l → s.top (.multiUsedLabel l) = true ∧
      ∀ f ∈ b.transfer.funcs, s.top (.multiThreadedFunc f) = true
  | .multiUsedLabel l => ∀ b ∈ P.blocks, b.label = l →
      (∀ x ∈ b.formals ++ b.binds, s.top (.multiUsedVar x) = true) ∧
        ∀ f ∈ b.transfer.funcs, s.top (.multiUsedFunc f) = true
  | _ => True

/-- The labels behind one that threads share are shared. -/
def Spreads (s : Info) : Mark → Prop
  | .multiThreadedLabel l => ∀ b ∈ P.blocks, b.label = l →
      ∀ l' ∈ b.transfer.labels, s.top (.multiThreadedLabel l') = true
  | _ => True

/-- The task may be run by the mark. -/
def Task.Of (m : Mark) : Task → Prop
  | forceThreadCopyCurrent _ _ => m.isCopy = true
  | forceMultiThreadedFunc f | forceMultiUsedFunc f => m.isCopy = false ∧ f ∈ P.functions

def Proper (handlers : Mark → List Task) : Prop := ∀ m, ∀ t ∈ handlers m, t.Of P m

/-- More marks are top, all of one kind, and what follows from them has been done, apart from what
follows from those in `E` and what spreads from those in `X`. -/
structure Grows (copy : Bool) (E X : Set Mark) (s s' : Info) : Prop where
  calls : s'.calls = s.calls
  handlers : s'.handlers = s.handlers
  top : ∀ m, s.top m = true → s'.top m = true
  new : ∀ m, s'.top m = true → s.top m = true ∨ (m.isCopy = copy ∧
    (∀ t ∈ s.handlers m, t.Done s') ∧ (m ∈ E ∨ Follows P s' m) ∧ (m ∈ X ∨ Spreads P s' m))

section Grows

variable {P} {s s₁ s₂ s' : Info} {copy : Bool} {E X E' X' : Set Mark} {m : Mark}

theorem Task.Done.mono (htop : ∀ m, s.top m = true → s'.top m = true) {t : Task} (h : t.Done s) :
    t.Done s' := by
  cases t with
  | forceThreadCopyCurrent l f => exact ⟨htop _ h.1, htop _ h.2⟩
  | forceMultiThreadedFunc f | forceMultiUsedFunc f =>
    exact ⟨fun x hx => htop _ (h.1 x hx), fun b hb => htop _ (h.2 b hb)⟩

theorem Follows.mono (htop : ∀ m, s.top m = true → s'.top m = true) (h : Follows P s m) :
    Follows P s' m := by
  cases m with
  | multiThreadedFunc f => exact htop _ h
  | multiThreadedLabel l =>
    exact fun b hb hl => ⟨htop _ (h b hb hl).1, fun f hf => htop _ ((h b hb hl).2 f hf)⟩
  | multiUsedLabel l =>
    exact fun b hb hl => ⟨fun x hx => htop _ ((h b hb hl).1 x hx),
      fun f hf => htop _ ((h b hb hl).2 f hf)⟩
  | _ => trivial

theorem Spreads.mono (htop : ∀ m, s.top m = true → s'.top m = true) (h : Spreads P s m) :
    Spreads P s' m := by
  cases m with
  | multiThreadedLabel l => exact fun b hb hl l' hl' => htop _ (h b hb hl l' hl')
  | _ => trivial

namespace Grows

theorem refl (s : Info) : Grows P copy E X s s := ⟨rfl, rfl, fun _ h => h, fun _ h => .inl h⟩

theorem trans (h : Grows P copy E X s s₁) (h' : Grows P copy E X s₁ s₂) :
    Grows P copy E X s s₂ where
  calls := h'.calls.trans h.calls
  handlers := h'.handlers.trans h.handlers
  top m hm := h'.top m (h.top m hm)
  new m hm := by
    rcases h'.new m hm with hm | ⟨hcopy, hdone, hE, hX⟩
    · rcases h.new m hm with hm | ⟨hcopy, hdone, hE, hX⟩
      · exact .inl hm
      · exact .inr ⟨hcopy, fun t ht => (hdone t ht).mono h'.top, hE.imp_right (Follows.mono h'.top),
          hX.imp_right (Spreads.mono h'.top)⟩
    · exact .inr ⟨hcopy, h.handlers ▸ hdone, hE, hX⟩

theorem weaken (h : Grows P copy E X s s') (hE : E ⊆ E') (hX : X ⊆ X') :
    Grows P copy E' X' s s' where
  calls := h.calls
  handlers := h.handlers
  top := h.top
  new m hm := (h.new m hm).imp_right fun ⟨hcopy, hdone, hfollows, hspreads⟩ =>
    ⟨hcopy, hdone, hfollows.imp_left fun hm => hE hm, hspreads.imp_left fun hm => hX hm⟩

/-- What the caller has made good. -/
theorem settle (h : Grows P copy E X s s') (hE : ∀ m ∈ E, m ∈ E' ∨ Follows P s' m)
    (hX : ∀ m ∈ X, m ∈ X' ∨ Spreads P s' m) : Grows P copy E' X' s s' where
  calls := h.calls
  handlers := h.handlers
  top := h.top
  new m hm := (h.new m hm).imp_right fun ⟨hcopy, hdone, hfollows, hspreads⟩ =>
    ⟨hcopy, hdone, hfollows.elim (hE m) .inr, hspreads.elim (hX m) .inr⟩

theorem proper (h : Grows P copy E X s s') (hp : Proper P s.handlers) : Proper P s'.handlers :=
  h.handlers ▸ hp

/-- Steps one after the other, each of which does something that stays done. -/
theorem foldlM {α : Type} {step : Info → α → Option Info} {Q : α → Info → Prop} {l : List α}
    (hQ : ∀ a s s', (∀ m, s.top m = true → s'.top m = true) → Q a s → Q a s')
    (hstep : ∀ a ∈ l, ∀ s s', Proper P s.handlers → step s a = some s' →
      Grows P copy E X s s' ∧ Q a s')
    (hp : Proper P s.handlers) (h : l.foldlM step s = some s') :
    Grows P copy E X s s' ∧ ∀ a ∈ l, Q a s' := by
  induction l generalizing s with
  | nil =>
    cases h
    exact ⟨.refl _, nofun⟩
  | cons a l ih =>
    rw [foldlM_cons, bind_eq_bind, bind_eq_some_iff] at h
    obtain ⟨s₁, hs₁, h⟩ := h
    obtain ⟨hgrows, ha⟩ := hstep a mem_cons_self s s₁ hp hs₁
    obtain ⟨hgrows', hall⟩ := ih (fun b hb => hstep b (mem_cons_of_mem a hb))
      (hgrows.proper hp) h
    refine ⟨hgrows.trans hgrows', forall_mem_cons.2 ⟨hQ a s₁ s' hgrows'.top ha, hall⟩⟩

end Grows

end Grows

/-! ### Forcing -/

/-- What is asked of `force`: what follows from the mark itself is up to the caller. -/
def Forces (force : Mark → Info → Option Info) : Prop :=
  ∀ m s s', Proper P s.handlers → force m s = some s' →
    Grows P m.isCopy {m} {m} s s' ∧ s'.top m = true

section Force

variable {P} {Γ : Var → Ty} {force : Mark → Info → Option Info} (hforce : Forces P force)
  {s s' : Info} (hp : Proper P s.handlers)

include hforce hp

theorem force_multiUsedVar {x : Var} (h : force (.multiUsedVar x) s = some s') :
    Grows P false ∅ ∅ s s' ∧ s'.top (.multiUsedVar x) = true := by
  obtain ⟨hgrows, htop⟩ := hforce _ s s' hp h
  refine ⟨hgrows.settle ?_ ?_, htop⟩ <;> rintro m rfl <;> exact .inr trivial

theorem forceMultiThreadedVar_grows {x : Var} (h : forceMultiThreadedVar force s x = some s') :
    Grows P false ∅ ∅ s s' ∧ s'.top (.multiUsedVar x) = true := by
  rw [forceMultiThreadedVar, bind_eq_bind, bind_eq_some_iff] at h
  obtain ⟨s₁, hs₁, h⟩ := h
  obtain ⟨hgrows, -⟩ := hforce _ s s₁ hp hs₁
  obtain ⟨hgrows', htop⟩ := force_multiUsedVar hforce (hgrows.proper hp) h
  refine ⟨.trans (hgrows.settle ?_ ?_) hgrows', htop⟩ <;> rintro m rfl <;> exact .inr trivial

theorem forceMultiUsedName_grows {f : Func} (h : forceMultiUsedName force s f = some s') :
    Grows P false ∅ ∅ s s' ∧ s'.top (.multiUsedFunc f) = true := by
  obtain ⟨hgrows, htop⟩ := hforce _ s s' hp h
  refine ⟨hgrows.settle ?_ ?_, htop⟩ <;> rintro m rfl <;> exact .inr trivial

theorem forceMultiThreadedName_grows {f : Func} (h : forceMultiThreadedName force s f = some s') :
    Grows P false ∅ ∅ s s' ∧
      s'.top (.multiThreadedFunc f) = true ∧ s'.top (.multiUsedFunc f) = true := by
  rw [forceMultiThreadedName, bind_eq_bind, bind_eq_some_iff] at h
  obtain ⟨s₁, hs₁, h⟩ := h
  obtain ⟨hgrows, htop⟩ := hforce _ s s₁ hp hs₁
  obtain ⟨hgrows', htop'⟩ := forceMultiUsedName_grows hforce (hgrows.proper hp) h
  refine ⟨(hgrows.trans (hgrows'.weaken (Set.empty_subset _) (Set.empty_subset _))).settle ?_ ?_,
    hgrows'.top _ htop, htop'⟩
  · rintro m rfl
    exact .inr htop'
  · rintro m rfl
    exact .inr trivial

variable (hP : P.WellTyped Γ)

include hP

theorem forceMultiUsedBlock_grows {b : Block} (hb : b ∈ P.blocks)
    (h : forceMultiUsedBlock force s b = some s') :
    Grows P false ∅ ∅ s s' ∧ s'.top (.multiUsedLabel b.label) = true := by
  rw [forceMultiUsedBlock] at h
  split_ifs at h with htop
  · cases h
    exact ⟨.refl s, htop⟩
  simp only [bind_eq_bind, bind_eq_some_iff] at h
  obtain ⟨s₁, hs₁, s₂, hs₂, s₃, hs₃, h⟩ := h
  obtain ⟨h₁, htop₁⟩ := hforce _ s s₁ hp hs₁
  have hp₁ := h₁.proper hp
  obtain ⟨h₂, hformals⟩ := Grows.foldlM (Q := fun x s => s.top (.multiUsedVar x) = true)
    (fun x s s' htop => htop _) (fun x _ s s' hp h => force_multiUsedVar hforce hp h) hp₁ hs₂
  obtain ⟨h₃, hbinds⟩ := Grows.foldlM (Q := fun x s => s.top (.multiUsedVar x) = true)
    (fun x s s' htop => htop _) (fun x _ s s' hp h => force_multiUsedVar hforce hp h)
    (h₂.proper hp₁) hs₃
  obtain ⟨h₄, hfuncs⟩ := Grows.foldlM (Q := fun f s => s.top (.multiUsedFunc f) = true)
    (fun f s s' htop => htop _) (fun f _ s s' hp h => forceMultiUsedName_grows hforce hp h)
    (h₃.proper (h₂.proper hp₁)) h
  have hrest := h₂.trans (h₃.trans h₄)
  refine ⟨(h₁.trans (hrest.weaken (Set.empty_subset _) (Set.empty_subset _))).settle ?_ ?_,
    hrest.top _ htop₁⟩
  · rintro m rfl
    refine .inr fun b' hb' hl => ?_
    obtain rfl := hP.block_unique hb' hb hl
    refine ⟨fun x hx => ?_, hfuncs⟩
    rcases mem_append.1 hx with hx | hx
    · exact h₄.top _ (h₃.top _ (hformals x hx))
    · exact h₄.top _ (hbinds x hx)
  · rintro m rfl
    exact .inr trivial

/-- The successors of the block are up to the caller. -/
theorem forceMultiThreadedBlock_grows {b : Block} (hb : b ∈ P.blocks)
    (h : forceMultiThreadedBlock force s b = some s') :
    Grows P false ∅ {.multiThreadedLabel b.label} s s' ∧
      s'.top (.multiThreadedLabel b.label) = true := by
  rw [forceMultiThreadedBlock] at h
  split_ifs at h with htop
  · cases h
    exact ⟨.refl s, htop⟩
  simp only [bind_eq_bind, bind_eq_some_iff] at h
  obtain ⟨s₁, hs₁, s₂, hs₂, s₃, hs₃, s₄, hs₄, h⟩ := h
  obtain ⟨h₁, htop₁⟩ := hforce _ s s₁ hp hs₁
  have hp₁ := h₁.proper hp
  obtain ⟨h₂, htop₂⟩ := hforce _ s₁ s₂ hp₁ hs₂
  have hp₂ := h₂.proper hp₁
  obtain ⟨h₃, hformals⟩ := Grows.foldlM (Q := fun x s => s.top (.multiUsedVar x) = true)
    (fun x s s' htop => htop _) (fun x _ s s' hp h => forceMultiThreadedVar_grows hforce hp h) hp₂ hs₃
  obtain ⟨h₄, hbinds⟩ := Grows.foldlM (Q := fun x s => s.top (.multiUsedVar x) = true)
    (fun x s s' htop => htop _) (fun x _ s s' hp h => forceMultiThreadedVar_grows hforce hp h)
    (h₃.proper hp₂) hs₄
  obtain ⟨h₅, hfuncs⟩ := Grows.foldlM
    (Q := fun f s => s.top (.multiThreadedFunc f) = true ∧ s.top (.multiUsedFunc f) = true)
    (fun f s s' htop hf => ⟨htop _ hf.1, htop _ hf.2⟩)
    (fun f _ s s' hp h => forceMultiThreadedName_grows hforce hp h)
    (h₄.proper (h₃.proper hp₂)) h
  have hrest := h₃.trans (h₄.trans h₅)
  have hused := hrest.top _ htop₂
  have hall : Grows P false {.multiThreadedLabel b.label, .multiUsedLabel b.label}
      {.multiThreadedLabel b.label, .multiUsedLabel b.label} s s' :=
    (h₁.weaken (by simp) (by simp)).trans ((h₂.weaken (by simp) (by simp)).trans
      (hrest.weaken (Set.empty_subset _) (Set.empty_subset _)))
  refine ⟨hall.settle ?_ ?_, hrest.top _ (h₂.top _ htop₁)⟩
  · rintro m (rfl | rfl)
    · refine .inr fun b' hb' hl => ⟨hused, fun f hf => ?_⟩
      obtain rfl := hP.block_unique hb' hb hl
      exact (hfuncs f hf).1
    · refine .inr fun b' hb' hl => ⟨fun x hx => ?_, fun f hf => ?_⟩
      · obtain rfl := hP.block_unique hb' hb hl
        rcases mem_append.1 hx with hx | hx
        · exact h₅.top _ (h₄.top _ (hformals x hx))
        · exact h₅.top _ (hbinds x hx)
      · obtain rfl := hP.block_unique hb' hb hl
        exact (hfuncs f hf).2
  · rintro m (rfl | rfl)
    · exact .inl rfl
    · exact .inr trivial

theorem forceMultiUsedFunc_grows {f : Function} (hf : f ∈ P.functions)
    (h : forceMultiUsedFunc force f s = some s') :
    Grows P false ∅ ∅ s s' ∧ (Task.forceMultiUsedFunc f).Done s' := by
  rw [forceMultiUsedFunc, bind_eq_bind, bind_eq_some_iff] at h
  obtain ⟨s₁, hs₁, h⟩ := h
  obtain ⟨h₁, hargs⟩ := Grows.foldlM (Q := fun x s => s.top (.multiUsedVar x) = true)
    (fun x s s' htop => htop _) (fun x _ s s' hp h => force_multiUsedVar hforce hp h) hp hs₁
  obtain ⟨h₂, hblocks⟩ := Grows.foldlM
    (Q := fun (b : Block) s => s.top (.multiUsedLabel b.label) = true)
    (fun b s s' htop => htop _)
    (fun b hb s s' hp h => forceMultiUsedBlock_grows hforce hp hP
      (Program.mem_blocks.2 ⟨f, hf, hb⟩) h) (h₁.proper hp) h
  exact ⟨h₁.trans h₂, fun x hx => h₂.top _ (hargs x hx), hblocks⟩

theorem forceMultiThreadedFunc_grows {f : Function} (hf : f ∈ P.functions)
    (h : forceMultiThreadedFunc force f s = some s') :
    Grows P false ∅ ∅ s s' ∧ (Task.forceMultiThreadedFunc f).Done s' := by
  rw [forceMultiThreadedFunc, bind_eq_bind, bind_eq_some_iff] at h
  obtain ⟨s₁, hs₁, h⟩ := h
  obtain ⟨h₁, hargs⟩ := Grows.foldlM (Q := fun x s => s.top (.multiUsedVar x) = true)
    (fun x s s' htop => htop _) (fun x _ s s' hp h => forceMultiThreadedVar_grows hforce hp h) hp hs₁
  obtain ⟨h₂, hblocks⟩ := Grows.foldlM (X := {m | ∃ b ∈ f.blocks, m = .multiThreadedLabel b.label})
    (Q := fun (b : Block) s => s.top (.multiThreadedLabel b.label) = true)
    (fun b s s' htop => htop _)
    (fun b hb s s' hp h => by
      obtain ⟨hgrows, htop⟩ := forceMultiThreadedBlock_grows hforce hp hP
        (Program.mem_blocks.2 ⟨f, hf, hb⟩) h
      exact ⟨hgrows.weaken (Set.Subset.refl _) (by rintro m rfl; exact ⟨b, hb, rfl⟩), htop⟩)
    (h₁.proper hp) h
  -- the labels behind a block of the function are those of its blocks
  refine ⟨h₁.trans (h₂.settle (fun m hm => .inl hm) ?_), fun x hx => h₂.top _ (hargs x hx), hblocks⟩
  rintro m ⟨b, hb, rfl⟩
  refine .inr fun b' hb' hl l hl' => ?_
  obtain rfl := hP.block_unique hb' (Program.mem_blocks.2 ⟨f, hf, hb⟩) hl
  obtain ⟨c, hc, rfl⟩ := hP.exists_block hf hb hl'
  exact hblocks c hc

omit hP in
theorem forceThreadCopyCurrent_grows {l : Label} {f : Func}
    (h : forceThreadCopyCurrent force l f s = some s') :
    Grows P true ∅ ∅ s s' ∧ (Task.forceThreadCopyCurrent l f).Done s' := by
  rw [forceThreadCopyCurrent, bind_eq_bind, bind_eq_some_iff] at h
  obtain ⟨s₁, hs₁, h⟩ := h
  obtain ⟨h₁, htop₁⟩ := hforce _ s s₁ hp hs₁
  obtain ⟨h₂, htop₂⟩ := hforce _ s₁ s' (h₁.proper hp) h
  refine ⟨.trans (h₁.settle ?_ ?_) (h₂.settle ?_ ?_), h₂.top _ htop₁, htop₂⟩ <;> rintro m rfl <;>
    exact .inr trivial

theorem run_grows {m : Mark} {t : Task} (ht : t.Of P m) (h : run force s t = some s') :
    Grows P m.isCopy ∅ ∅ s s' ∧ t.Done s' := by
  cases t with
  | forceThreadCopyCurrent l f =>
    rw [show m.isCopy = true from ht]
    exact forceThreadCopyCurrent_grows hforce hp h
  | forceMultiThreadedFunc f =>
    rw [ht.1]
    exact forceMultiThreadedFunc_grows hforce hp hP ht.2 h
  | forceMultiUsedFunc f =>
    rw [ht.1]
    exact forceMultiUsedFunc_grows hforce hp hP ht.2 h

end Force

variable {P} {Γ : Var → Ty} {s s' : Info}

theorem Grows.raise (m : Mark) (s : Info) (hdone : ∀ t ∈ s.handlers m, t.Done s')
    (h : Grows P m.isCopy ∅ ∅ (s.raise m) s') : Grows P m.isCopy {m} {m} s s' where
  calls := h.calls
  handlers := h.handlers
  top m' hm' := h.top m' (Info.top_raise.2 (.inr hm'))
  new m' hm' := by
    rcases h.new m' hm' with hm' | ⟨hcopy, hdone', hE, hX⟩
    · rcases Info.top_raise.1 hm' with rfl | hm'
      · exact .inr ⟨rfl, hdone, .inl rfl, .inl rfl⟩
      · exact .inl hm'
    · exact .inr ⟨hcopy, hdone', hE.imp_left fun h => absurd h (Set.notMem_empty m'),
        hX.imp_left fun h => absurd h (Set.notMem_empty m')⟩

theorem force_forces (hP : P.WellTyped Γ) (fuel : ℕ) : Forces P (force fuel) := by
  induction fuel with
  | zero => exact fun m s s' _ h => by cases h
  | succ fuel ih =>
    intro m s s' hp h
    rw [force] at h
    split_ifs at h with htop
    · cases h
      exact ⟨.refl s, htop⟩
    obtain ⟨hgrows, hdone⟩ := Grows.foldlM (Q := fun t s => t.Done s)
      (fun t s s' htop => Task.Done.mono htop)
      (fun t ht s s' hp' h => run_grows ih hp' hP (hp m t ht) h)
      (show Proper P (s.raise m).handlers from hp) h
    exact ⟨hgrows.raise m s hdone, hgrows.top m (Info.top_raise.2 (.inl rfl))⟩

/-! ### The search of a control-flow graph -/

theorem withBlock_eq_some {f : Function} {k : Info → Block → Option Info} {l : Label}
    (h : withBlock f k s l = some s') : ∃ b ∈ f.blocks, b.label = l ∧ k s b = some s' := by
  obtain ⟨b, hb, h⟩ := bind_eq_some_iff.1 h
  exact ⟨b, mem_of_find?_eq_some hb, by simpa using find?_some hb, h⟩

theorem forceMultiThreadedBlockDFS_grows (hP : P.WellTyped Γ) (n fuel : ℕ) {f : Function}
    (hf : f ∈ P.functions) {b : Block} (hb : b ∈ f.blocks) (hp : Proper P s.handlers)
    (h : forceMultiThreadedBlockDFS (force n) f fuel s b = some s') :
    Grows P false ∅ ∅ s s' ∧ s'.top (.multiThreadedLabel b.label) = true := by
  induction fuel generalizing b s s' with
  | zero => cases h
  | succ fuel ih =>
    rw [forceMultiThreadedBlockDFS] at h
    split_ifs at h with htop
    · cases h
      exact ⟨.refl s, htop⟩
    rw [bind_eq_bind, bind_eq_some_iff] at h
    obtain ⟨s₁, hs₁, h⟩ := h
    have hbP := Program.mem_blocks.2 ⟨f, hf, hb⟩
    obtain ⟨h₁, htop₁⟩ := forceMultiThreadedBlock_grows (force_forces hP n) hp hP hbP hs₁
    obtain ⟨h₂, hlabels⟩ := Grows.foldlM (Q := fun l s => s.top (.multiThreadedLabel l) = true)
      (fun l s s' htop => htop _)
      (fun l _ s s' hp h => by
        obtain ⟨b', hb', rfl, hvisit⟩ := withBlock_eq_some h
        exact ih hb' hp hvisit) (h₁.proper hp) h
    refine ⟨(h₁.trans (h₂.weaken (Set.empty_subset _) (Set.empty_subset _))).settle
      (fun m hm => .inl hm) ?_, h₂.top _ htop₁⟩
    rintro m rfl
    refine .inr fun b' hb' hl l hl' => ?_
    obtain rfl := hP.block_unique hb' hbP hl
    exact hlabels l hl'

/-- The labels behind a block that copies threads are shared. -/
theorem visitBlock_grows (hP : P.WellTyped Γ) {fuel : ℕ} {f : Function} (hf : f ∈ P.functions)
    {b : Block} (hp : Proper P s.handlers) (h : visitBlock fuel f s b = some s') :
    Grows P false ∅ ∅ s s' ∧ (s.top (.threadCopyCurrentLabel b.label) = true →
      ∀ l ∈ b.transfer.labels, s'.top (.multiThreadedLabel l) = true) := by
  rw [visitBlock] at h
  split_ifs at h with htop
  · obtain ⟨hgrows, hlabels⟩ := Grows.foldlM (Q := fun l s => s.top (.multiThreadedLabel l) = true)
      (fun l s s' htop => htop _)
      (fun l _ s s' hp h => by
        obtain ⟨b', hb', rfl, hvisit⟩ := withBlock_eq_some h
        exact forceMultiThreadedBlockDFS_grows hP fuel fuel hf hb' hp hvisit) hp h
    exact ⟨hgrows, fun _ => hlabels⟩
  · cases h
    exact ⟨.refl s, fun htop' => absurd htop' htop⟩

end MultiMLton.Ssa.Multi
