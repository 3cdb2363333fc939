import MultiMLton.Backend.ImplementHandlers

/-!
# What is known of handlers

The inequalities of `flow` have a solution that `solve` finds: what is known before a block is
passed on by every transfer that leads there.

* `outflow`: what a block passes on;
* `Sound`: what is passed on is what is known, or more;
* `solve_sound`: `solve` comes to an end, and what it finds is sound.
-/

namespace MultiMLton.Backend

open Rssa FlatLattice List Function

namespace ImplementHandlers

variable {F L V ν : Type}

/-! ### Sound knowledge -/

/-- To know less is more in both lattices. -/
def Known.Le (i j : Known L) : Prop := i.global ≤ j.global ∧ i.handler ≤ j.handler

/-- What a block passes on to the labels of its transfer. -/
def outflow (i : Known L) : Transfer F L V ν → List (L × Known L)
  | .call _ _ .dead => []
  | .call _ _ (.nonTail cont .caller) => [(cont, ⟨.point .slot, i.handler⟩)]
  | .call _ _ (.nonTail cont .dead) => [(cont, i)]
  | .call _ _ (.nonTail cont (.handle l)) =>
    [(l, ⟨.point .locl, .point l⟩), (cont, ⟨.point .locl, .point l⟩)]
  | .call _ _ .tail => []
  | t => t.jumps.map (·, i)

/-- What is known before each block of a function is sound. -/
structure Sound (f : Function F L V ν) (known : L → Known L) : Prop where
  start : Known.Le ⟨.point .slot, .top⟩ (known f.start)
  block : ∀ b ∈ f.blocks, ∀ x ∈ outflow (known b.label) b.transfer, x.2.Le (known x.1)

/-- Without handlers the exception stack stays what it was at the start. -/
theorem sound_of_not_hasHandler {f : Function F L V ν} (h : hasHandler f = false) :
    Sound f fun _ => ⟨.point .slot, .top⟩ where
  start := ⟨le_rfl, le_rfl⟩
  block b hb x hx := by
    have hb' : ¬ ∃ args g cont l, b.transfer = .call args g (.nonTail cont (.handle l)) := by
      rintro ⟨args, g, cont, l, ht⟩
      have hall := any_eq_false.mp h b hb
      simp [ht] at hall
    unfold outflow at hx
    split at hx
    · cases hx
    · rw [mem_singleton.mp hx]
      exact ⟨le_rfl, le_rfl⟩
    · rw [mem_singleton.mp hx]
      exact ⟨le_rfl, le_rfl⟩
    · rename_i ht
      exact absurd ⟨_, _, _, _, ht⟩ hb'
    · cases hx
    · obtain ⟨l, -, rfl⟩ := mem_map.mp hx
      exact ⟨le_rfl, le_rfl⟩

/-! ### Stores of the analysis -/

section

variable {ε P : Type} {pt : ε → Option P} {U : Finset ε} {s s' : Store ε P}

/-- All inequalities hold, the points are where they were made, and the references of the variables
in `U` lead to variables of `U`. -/
structure Fine (pt : ε → Option P) (U : Finset ε) (s : Store ε P) : Prop where
  isOpen : Open s
  solved : Solved s
  closed : Closed U s
  upperBound : s.upperBound = pt
  point : ∀ x p, pt x = some p → .point p ≤ s.value x

theorem fine_make (pt : ε → Option P) (U : Finset ε) : Fine pt U (Store.make pt) where
  isOpen _ _ h := absurd h not_mem_nil
  solved _ _ h := absurd h not_mem_nil
  closed _ _ _ h := absurd h not_mem_nil
  upperBound := rfl
  point x p h := by simp [Store.make, h]

variable [DecidableEq ε] [DecidableEq P] {x y : ε} {fuel : ℕ}

theorem Fine.le (h : Fine pt U s) (x : ε) (hy : y ∈ U) (hfree : pt y = none)
    (hfuel : U.card * 2 < fuel) :
    ∃ b s', s.le fuel x y = some (b, s') ∧ Fine pt U s' ∧ Adds s x y s' := by
  have hfree' : s.upperBound y = none := by rw [h.upperBound, hfree]
  obtain ⟨⟨b, s'⟩, hle⟩ :=
    Option.isSome_iff_exists.mp (le_isSome (x := x) h.closed h.isOpen hy hfree' hfuel)
  have hadds := le_adds h.isOpen hfree' hle
  refine ⟨b, s', hle, ⟨hadds.isOpen h.isOpen hfree', hadds.solved h.solved,
    hadds.closed h.closed hy, hadds.upperBound.trans h.upperBound, fun z p hz => ?_⟩, hadds⟩
  exact (h.point z p hz).trans (hadds.le z)

omit [DecidableEq P] in
theorem Fine.forceTop (h : Fine pt U s) (hx : pt x = none) (hnone : s.lessThan x = []) :
    Fine pt U (s.forceTop x).2 ∧ (s.forceTop x).2 = s.set x .top := by
  have hset : (s.forceTop x).2 = s.set x .top := by
    simp [Store.forceTop, h.upperBound, hx]
  rw [hset]
  refine ⟨⟨h.isOpen, fun z w hw => ?_, h.closed, h.upperBound, fun z p hz => ?_⟩, rfl⟩
  · by_cases hwx : w = x
    · rw [hwx, set_value_self]
      exact Elt.le_top _
    · have hzx : z ≠ x := by
        rintro rfl
        rw [set_lessThan, hnone] at hw
        cases hw
      rw [set_value_of_ne s hwx, set_value_of_ne s hzx]
      exact h.solved z w hw
  · by_cases hzx : z = x
    · rw [hzx, hx] at hz
      cases hz
    · rw [set_value_of_ne s hzx]
      exact h.point z p hz

end

/-! ### The analysis -/

section

variable [DecidableEq L] {ls : Finset L} {i i' i'' : LabelInfo L} {c : Bound L} {fuel : ℕ}

structure FineInfo (ls : Finset L) (i : LabelInfo L) : Prop where
  global : Fine globalPoint (ls.image Global.label) i.global
  handler : Fine handlerPoint (ls.image Handler.label) i.handler

/-- References are added and values raised. -/
structure Extends (i i' : LabelInfo L) : Prop where
  global : ∀ x, i.global.lessThan x ⊆ i'.global.lessThan x
  handler : ∀ x, i.handler.lessThan x ⊆ i'.handler.lessThan x
  value : ∀ x, i.handler.value x ≤ i'.handler.value x

omit [DecidableEq L] in
theorem Extends.refl (i : LabelInfo L) : Extends i i :=
  ⟨fun _ => List.Subset.refl _, fun _ => List.Subset.refl _, fun _ => le_rfl⟩

omit [DecidableEq L] in
theorem Extends.trans (h : Extends i i') (h' : Extends i' i'') : Extends i i'' where
  global x := List.Subset.trans (h.global x) (h'.global x)
  handler x := List.Subset.trans (h.handler x) (h'.handler x)
  value x := (h.value x).trans (h'.value x)

/-- The inequality is among those of the stores. -/
def Has (i : LabelInfo L) (c : Bound L) : Prop :=
  .label c.dst ∈ i.global.lessThan c.global ∧ .label c.dst ∈ i.handler.lessThan c.handler

omit [DecidableEq L] in
theorem Extends.has (h : Extends i i') (hc : Has i c) : Has i' c :=
  ⟨h.global _ hc.1, h.handler _ hc.2⟩

theorem card_image_label_le (ls : Finset L) :
    (ls.image Global.label).card ≤ ls.card ∧ (ls.image Handler.label).card ≤ ls.card :=
  ⟨Finset.card_image_le, Finset.card_image_le⟩

theorem le_fine (h : FineInfo ls i) (hdst : c.dst ∈ ls) (hfuel : ls.card * 2 < fuel) :
    ∃ i', i.le fuel c = some i' ∧ FineInfo ls i' ∧ Extends i i' ∧ Has i' c ∧
      ∀ x, x ≠ c.handler → i'.handler.lessThan x = i.handler.lessThan x := by
  obtain ⟨hglobal, hhandler⟩ := card_image_label_le ls
  obtain ⟨b, g, hg, hgfine, hgadds⟩ := h.global.le c.global
    (Finset.mem_image_of_mem Global.label hdst) rfl (show _ * 2 < fuel by omega)
  obtain ⟨b', h', hh, hhfine, hhadds⟩ := h.handler.le c.handler
    (Finset.mem_image_of_mem Handler.label hdst) rfl (show _ * 2 < fuel by omega)
  refine ⟨⟨g, h'⟩, by simp [LabelInfo.le, hg, hh], ⟨hgfine, hhfine⟩,
    ⟨hgadds.lessThan_subset, hhadds.lessThan_subset, hhadds.le⟩,
    ⟨hgadds.mem_lessThan, hhadds.mem_lessThan⟩, fun x hx => ?_⟩
  rw [hhadds.lessThan, update_of_ne hx]

theorem foldlM_le_fine (hfuel : ls.card * 2 < fuel) (cs : List (Bound L)) (h : FineInfo ls i)
    (hdst : ∀ c ∈ cs, c.dst ∈ ls) :
    ∃ i', cs.foldlM (LabelInfo.le fuel) i = some i' ∧ FineInfo ls i' ∧ Extends i i' ∧
      (∀ c ∈ cs, Has i' c) ∧
        ∀ x, x ∉ cs.map Bound.handler → i'.handler.lessThan x = i.handler.lessThan x := by
  induction cs generalizing i with
  | nil =>
    exact ⟨i, rfl, h, Extends.refl i, fun c hc => absurd hc not_mem_nil, fun _ _ => rfl⟩
  | cons c cs ih =>
    obtain ⟨i₁, hi₁, hfine, hext, hhas, hkeep⟩ := le_fine h (hdst c mem_cons_self) hfuel
    obtain ⟨i₂, hi₂, hfine', hext', hhas', hkeep'⟩ :=
      ih hfine fun d hd => hdst d (mem_cons_of_mem c hd)
    refine ⟨i₂, by simp [foldlM_cons, hi₁, hi₂], hfine', hext.trans hext', ?_, ?_⟩
    · intro d hd
      rcases mem_cons.mp hd with rfl | hd
      · exact hext'.has hhas
      · exact hhas' d hd
    · intro x hx
      rw [map_cons, mem_cons, not_or] at hx
      rw [hkeep' x hx.2, hkeep x hx.1]

/-- What is known of the start of the function is there. -/
def HasStart (i : LabelInfo L) (start : L) : Prop :=
  .label start ∈ i.global.lessThan .slot ∧ i.handler.value (.label start) = .top

omit [DecidableEq L] in
theorem Extends.hasStart (h : Extends i i') {start : L} (hstart : HasStart i start) :
    HasStart i' start := by
  refine ⟨h.global _ hstart.1, le_antisymm (Elt.le_top _) ?_⟩
  rw [← hstart.2]
  exact h.value _

theorem forceStart_fine {start : L} (h : FineInfo ls i) (hstart : start ∈ ls)
    (hfuel : ls.card * 2 < fuel) (hnone : i.handler.lessThan (.label start) = []) :
    ∃ i', i.forceStart fuel start = some i' ∧ FineInfo ls i' ∧ Extends i i' ∧
      HasStart i' start ∧ i'.handler.lessThan = i.handler.lessThan := by
  obtain ⟨hglobal, -⟩ := card_image_label_le ls
  obtain ⟨b, g, hg, hgfine, hgadds⟩ := h.global.le .slot
    (Finset.mem_image_of_mem Global.label hstart) rfl (show _ * 2 < fuel by omega)
  obtain ⟨hhfine, hset⟩ := h.handler.forceTop (x := .label start) rfl hnone
  refine ⟨⟨g, (i.handler.forceTop (.label start)).2⟩, by simp [LabelInfo.forceStart, hg],
    ⟨hgfine, hhfine⟩, ⟨hgadds.lessThan_subset, fun x => ?_, fun x => ?_⟩,
    ⟨hgadds.mem_lessThan, ?_⟩, ?_⟩
  · rw [hset, set_lessThan]
    exact List.Subset.refl _
  · change i.handler.value x ≤ (i.handler.forceTop (.label start)).2.value x
    rw [hset]
    by_cases heq : x = .label start
    · rw [heq, set_value_self]
      exact Elt.le_top _
    · rw [set_value_of_ne _ heq]
  · change (i.handler.forceTop (.label start)).2.value (.label start) = .top
    rw [hset, set_value_self]
  · change (i.handler.forceTop (.label start)).2.lessThan = i.handler.lessThan
    rw [hset, set_lessThan]

variable {f : Function F L V ν} {b : Block F L V ν} {done rest : List (Block F L V ν)}

/-- The blocks that have been visited. -/
structure Progress (f : Function F L V ν) (ls : Finset L) (done : List (Block F L V ν))
    (i : LabelInfo L) : Prop where
  fine : FineInfo ls i
  has : ∀ b ∈ done, ∀ c ∈ bounds b, Has i c
  start : f.start ∈ done.map Block.label → HasStart i f.start
  fresh : ∀ l, l ∉ done.map Block.label → i.handler.lessThan (.label l) = []

omit [DecidableEq L] in
/-- The inequalities of a block are about its own variables and points. -/
theorem bounds_handler {c : Bound L} (hc : c ∈ bounds b) {l : L} (h : c.handler = .label l) :
    l = b.label := by
  unfold bounds at hc
  dsimp only at hc
  split at hc <;> simp only [mem_cons, mem_map, not_mem_nil, or_false] at hc
  · rw [hc] at h
    exact (Handler.label.inj h).symm
  · rw [hc] at h
    exact (Handler.label.inj h).symm
  · rcases hc with rfl | rfl <;> cases h
  · obtain ⟨l', -, rfl⟩ := hc
    exact (Handler.label.inj h).symm

omit [DecidableEq L] in
theorem bounds_dst {c : Bound L} (hc : c ∈ bounds b) : c.dst ∈ b.transfer.labels := by
  unfold bounds at hc
  dsimp only at hc
  split at hc <;> simp only [mem_cons, mem_map, not_mem_nil, or_false] at hc
  · rename_i ht
    simp [hc, ht, Transfer.labels, Return.labels]
  · rename_i ht
    simp [hc, ht, Transfer.labels, Return.labels]
  · rename_i ht
    rcases hc with rfl | rfl <;> simp [ht, Transfer.labels, Return.labels]
  · obtain ⟨l, hl, rfl⟩ := hc
    exact Transfer.mem_labels_of_mem_jumps hl

theorem Progress.visit (h : Progress f ls done i) (hb : b.label ∉ done.map Block.label)
    (hmem : b.label ∈ ls) (hlabels : ∀ l ∈ b.transfer.labels, l ∈ ls)
    (hfuel : ls.card * 2 < fuel) :
    ∃ i', LabelInfo.visit fuel f.start i b = some i' ∧ Progress f ls (done ++ [b]) i' := by
  -- the block is the start, or nothing happens before its inequalities
  obtain ⟨i₁, hi₁, hfine₁, hext₁, hstart₁, hless₁⟩ :
      ∃ i₁, (if b.label = f.start then i.forceStart fuel f.start else some i) = some i₁ ∧
        FineInfo ls i₁ ∧ Extends i i₁ ∧ (f.start ∈ (done ++ [b]).map Block.label →
          HasStart i₁ f.start) ∧ i₁.handler.lessThan = i.handler.lessThan := by
    by_cases heq : b.label = f.start
    · rw [if_pos heq]
      obtain ⟨i₁, hi₁, hfine, hext, hstart, hless⟩ := forceStart_fine h.fine (heq ▸ hmem) hfuel
        (h.fresh f.start (heq ▸ hb))
      exact ⟨i₁, hi₁, hfine, hext, fun _ => hstart, hless⟩
    · rw [if_neg heq]
      refine ⟨i, rfl, h.fine, Extends.refl i, fun hstart => ?_, rfl⟩
      rw [map_append, mem_append] at hstart
      rcases hstart with hstart | hstart
      · exact h.start hstart
      · exact absurd (mem_singleton.mp hstart).symm heq
  obtain ⟨i₂, hi₂, hfine₂, hext₂, hhas₂, hkeep₂⟩ := foldlM_le_fine hfuel (bounds b) hfine₁
    fun c hc => hlabels _ (bounds_dst hc)
  have hvisit : LabelInfo.visit fuel f.start i b = some i₂ := by
    rw [LabelInfo.visit, hi₁]
    exact hi₂
  refine ⟨i₂, hvisit, hfine₂, fun d hd c hc => ?_,
    fun hstart => hext₂.hasStart (hstart₁ hstart), fun l hl => ?_⟩
  · rcases mem_append.mp hd with hd | hd
    · exact (hext₁.trans hext₂).has (h.has d hd c hc)
    · rw [mem_singleton.mp hd] at hc
      exact hhas₂ c hc
  · rw [map_append, mem_append, not_or] at hl
    rw [hkeep₂, hless₁]
    · exact h.fresh l hl.1
    · intro hx
      obtain ⟨c, hc, heq⟩ := mem_map.mp hx
      exact hl.2 (by simp [bounds_handler hc heq])

theorem Progress.foldlM (hfuel : ls.card * 2 < fuel) (h : Progress f ls done i)
    (hnodup : ((done ++ rest).map Block.label).Nodup) (hmem : ∀ b ∈ rest, b.label ∈ ls)
    (hlabels : ∀ b ∈ rest, ∀ l ∈ b.transfer.labels, l ∈ ls) :
    ∃ i', rest.foldlM (LabelInfo.visit fuel f.start) i = some i' ∧
      Progress f ls (done ++ rest) i' := by
  induction rest generalizing done i with
  | nil => exact ⟨i, rfl, by rwa [append_nil]⟩
  | cons b rest ih =>
    have hb : b.label ∉ done.map Block.label := by
      rw [map_append, map_cons, nodup_append] at hnodup
      intro hdone
      exact hnodup.2.2 _ hdone _ mem_cons_self rfl
    obtain ⟨i₁, hi₁, hprogress⟩ := h.visit hb (hmem b mem_cons_self)
      (hlabels b mem_cons_self) hfuel
    rw [append_cons] at hnodup ⊢
    obtain ⟨i₂, hi₂, hprogress'⟩ := ih hprogress hnodup
      (fun d hd => hmem d (mem_cons_of_mem b hd))
      fun d hd => hlabels d (mem_cons_of_mem b hd)
    exact ⟨i₂, by simp [foldlM_cons, hi₁, hi₂], hprogress'⟩

/-! ### The solution -/

/-- What a block passes on is bounded by one of its inequalities. -/
theorem FineInfo.outflow_le (h : FineInfo ls i) {x : L × Known L}
    (hx : x ∈ outflow (i.known b.label) b.transfer) :
    ∃ c ∈ bounds b, c.dst = x.1 ∧
      x.2.Le ⟨i.global.value c.global, i.handler.value c.handler⟩ := by
  have hslot := h.global.point .slot .slot rfl
  have hlocal := h.global.point .locall .locl rfl
  obtain ⟨args, kind, label, statements, transfer⟩ := b
  have hgoto : x ∈ transfer.jumps.map (·, i.known label) →
      ∃ c ∈ transfer.jumps.map fun l => (⟨.label label, .label label, l⟩ : Bound L),
        c.dst = x.1 ∧ x.2.Le ⟨i.global.value c.global, i.handler.value c.handler⟩ := by
    intro hx
    obtain ⟨l, hl, rfl⟩ := mem_map.mp hx
    exact ⟨_, mem_map_of_mem hl, rfl, le_rfl, le_rfl⟩
  cases transfer with
  | call args func r =>
    match r, hx with
    | .nonTail cont .caller, hx =>
      rw [mem_singleton.mp hx]
      exact ⟨_, mem_singleton_self _, rfl, hslot, le_rfl⟩
    | .nonTail cont .dead, hx =>
      rw [mem_singleton.mp hx]
      exact ⟨_, mem_singleton_self _, rfl, le_rfl, le_rfl⟩
    | .nonTail cont (.handle l), hx =>
      have hpoint := h.handler.point (.point l) l rfl
      rcases mem_cons.mp hx with rfl | hx
      · exact ⟨_, mem_cons_self, rfl, hlocal, hpoint⟩
      · rw [mem_singleton.mp hx]
        exact ⟨_, mem_cons_of_mem _ mem_cons_self, rfl, hlocal, hpoint⟩
  | arith _ _ _ _ _ | ccall _ _ _ | goto _ _ | raise _ | ret _ | switch _ => exact hgoto hx

theorem Progress.known_le (h : Progress f ls f.blocks i) (hb : b ∈ f.blocks) {c : Bound L}
    (hc : c ∈ bounds b) :
    Known.Le ⟨i.global.value c.global, i.handler.value c.handler⟩ (i.known c.dst) := by
  obtain ⟨hglobal, hhandler⟩ := h.has b hb c hc
  exact ⟨h.fine.global.solved _ _ hglobal, h.fine.handler.solved _ _ hhandler⟩

theorem Progress.sound (h : Progress f ls f.blocks i) (hstart : f.start ∈ f.labels) :
    Sound f i.known where
  start := by
    obtain ⟨hglobal, hhandler⟩ := h.start hstart
    refine ⟨?_, hhandler.ge⟩
    exact (h.fine.global.point .slot .slot rfl).trans (h.fine.global.solved _ _ hglobal)
  block b hb x hx := by
    obtain ⟨c, hc, hdst, hle⟩ := h.fine.outflow_le hx
    obtain ⟨hglobal, hhandler⟩ := h.known_le hb hc
    rw [← hdst]
    exact ⟨hle.1.trans hglobal, hle.2.trans hhandler⟩

/-- **`solve`** comes to an end, and what it finds is sound. -/
theorem solve_sound (f : Function F L V ν) (hnodup : f.labels.Nodup) (hstart : f.start ∈ f.labels)
    (hlabels : ∀ b ∈ f.blocks, ∀ l ∈ b.transfer.labels, l ∈ f.labels) :
    ∃ i, solve f = some i ∧ Sound f i.known := by
  have hinit : Progress f f.labels.toFinset [] .new :=
    ⟨⟨fine_make _ _, fine_make _ _⟩, fun b hb => absurd hb not_mem_nil,
      fun h => absurd h not_mem_nil, fun l _ => rfl⟩
  have hcard : f.labels.toFinset.card * 2 < f.blocks.length * 2 + 1 := by
    have hle := toFinset_card_le f.labels
    rw [labels, length_map] at hle
    unfold labels
    omega
  obtain ⟨i, hi, hprogress⟩ := hinit.foldlM hcard hnodup
    (fun b hb => mem_toFinset.mpr (mem_map_of_mem hb))
    fun b hb l hl => mem_toFinset.mpr (hlabels b hb l hl)
  exact ⟨i, hi, hprogress.sound hstart⟩

end

end ImplementHandlers

end MultiMLton.Backend
