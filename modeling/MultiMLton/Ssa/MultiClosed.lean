import MultiMLton.Ssa.MultiForce

/-!
# What the marks of a program are closed under

`Inv` holds between the steps of `multi`, and `Linked` says that a task has been run or is going to be,
so that it has been run at the end if its mark is top. `multi_closed` puts together what the visits
leave behind: `Closed`.
-/

namespace MultiMLton.Ssa.Multi

open MultiMLton.Lib List Option

variable {P : Program} {Γ : Var → Ty} {s s' : Info}

/-! ### Between the steps -/

variable (P) in
/-- What holds of the marks between the steps of `multi`. -/
structure Inv (s : Info) : Prop where
  proper : Proper P s.handlers
  done : ∀ m, s.top m = true → ∀ t ∈ s.handlers m, t.Done s
  follows : ∀ m, s.top m = true → Follows P s m
  spreads : ∀ m, s.top m = true → Spreads P s m

/-- More marks, all of one kind, and more handlers. -/
structure Later (copy : Bool) (s s' : Info) : Prop where
  top : ∀ m, s.top m = true → s'.top m = true
  handlers : ∀ m, s.handlers m ⊆ s'.handlers m
  new : ∀ m, s'.top m = true → s.top m = true ∨ m.isCopy = copy

/-- The task has been run, or is run when the mark becomes top. -/
def Linked (m : Mark) (t : Task) (s : Info) : Prop := t ∈ s.handlers m ∨ t.Done s

variable {copy : Bool} {m : Mark} {t : Task} {s₁ : Info}

theorem Later.refl (s : Info) : Later copy s s :=
  ⟨fun _ h => h, fun _ => List.Subset.refl _, fun _ h => .inl h⟩

theorem Later.trans (h : Later copy s s₁) (h' : Later copy s₁ s') : Later copy s s' where
  top m hm := h'.top m (h.top m hm)
  handlers m := List.Subset.trans (h.handlers m) (h'.handlers m)
  new m hm := (h'.new m hm).elim (h.new m) .inr

theorem Grows.later {E X : Set Mark} (h : Grows P copy E X s s') : Later copy s s' where
  top := h.top
  handlers _ := h.handlers ▸ List.Subset.refl _
  new m hm := (h.new m hm).imp_right And.left

theorem Linked.mono (h : Linked m t s) (hlater : Later copy s s') : Linked m t s' :=
  h.imp (fun ht => hlater.handlers m ht) (Task.Done.mono hlater.top)

theorem Inv.grows (h : Inv P s) (hgrows : Grows P copy ∅ ∅ s s') : Inv P s' where
  proper := hgrows.proper h.proper
  done m hm t ht := by
    rw [hgrows.handlers] at ht
    rcases hgrows.new m hm with hm | ⟨-, hdone, -⟩
    · exact (h.done m hm t ht).mono hgrows.top
    · exact hdone t ht
  follows m hm := by
    rcases hgrows.new m hm with hm | ⟨-, -, hE | hfollows, -⟩
    · exact (h.follows m hm).mono hgrows.top
    · exact absurd hE (Set.notMem_empty m)
    · exact hfollows
  spreads m hm := by
    rcases hgrows.new m hm with hm | ⟨-, -, -, hX | hspreads⟩
    · exact (h.spreads m hm).mono hgrows.top
    · exact absurd hX (Set.notMem_empty m)
    · exact hspreads

theorem Inv.done_of_linked (h : Inv P s) (hlinked : Linked m t s) (hm : s.top m = true) :
    t.Done s :=
  hlinked.elim (h.done m hm t) id

variable {fuel : ℕ}

theorem addHandler_spec (hP : P.WellTyped Γ) (hs : Inv P s) (ht : t.Of P m)
    (h : addHandler fuel m t s = some s') :
    Inv P s' ∧ Later m.isCopy s s' ∧ s'.calls = s.calls ∧ Linked m t s' := by
  rw [addHandler] at h
  split_ifs at h with htop
  · obtain ⟨hgrows, hdone⟩ := run_grows (force_forces hP fuel) hs.proper hP ht h
    exact ⟨hs.grows hgrows, hgrows.later, hgrows.calls, .inr hdone⟩
  cases h
  have hne {m' : Mark} (hm' : s.top m' = true) : m' ≠ m := fun heq => htop (heq ▸ hm')
  refine ⟨⟨fun m' t' ht' => ?_, fun m' hm' t' ht' => ?_, fun m' hm' => ?_, fun m' hm' => ?_⟩,
    ⟨fun _ hm' => hm', fun m' => ?_, fun _ hm' => .inl hm'⟩, rfl, .inl (by simp)⟩
  · dsimp only at ht'
    rw [Function.update_apply] at ht'
    split_ifs at ht' with heq
    · subst heq
      rcases mem_cons.1 ht' with rfl | ht'
      · exact ht
      · exact hs.proper _ t' ht'
    · exact hs.proper m' t' ht'
  · dsimp only at ht'
    rw [Function.update_of_ne (hne hm')] at ht'
    exact (hs.done m' hm' t' ht').mono fun _ h => h
  · exact (hs.follows m' hm').mono fun _ h => h
  · exact (hs.spreads m' hm').mono fun _ h => h
  · dsimp only
    rw [Function.update_apply]
    split_ifs with heq
    · subst heq
      exact subset_cons_self _ _
    · exact List.Subset.refl _

/-- Steps one after the other, each of which keeps `I` and does something that stays done. -/
theorem foldlM_later {α : Type} {step : Info → α → Option Info} {I : Info → Prop}
    {Q : α → Info → Prop} {l : List α} (hQ : ∀ a s s', Later copy s s' → Q a s → Q a s')
    (hstep : ∀ a ∈ l, ∀ s s', I s → step s a = some s' → I s' ∧ Later copy s s' ∧ Q a s')
    (hs : I s) (h : l.foldlM step s = some s') : I s' ∧ Later copy s s' ∧ ∀ a ∈ l, Q a s' := by
  induction l generalizing s with
  | nil =>
    cases h
    exact ⟨hs, .refl _, nofun⟩
  | cons a l ih =>
    rw [foldlM_cons, bind_eq_bind, bind_eq_some_iff] at h
    obtain ⟨s₁, hs₁, h⟩ := h
    obtain ⟨hs₁, hlater, ha⟩ := hstep a mem_cons_self s s₁ hs hs₁
    obtain ⟨hs', hlater', hall⟩ := ih (fun b hb => hstep b (mem_cons_of_mem a hb)) hs₁ h
    exact ⟨hs', hlater.trans hlater', forall_mem_cons.2 ⟨hQ a s₁ s' hlater' ha, hall⟩⟩

/-- Every node of a graph is visited, and those on cycles are visited by `many`. -/
theorem visitComponents_spec {α : Type} [DecidableEq α] {g : DirectedGraph α}
    {once many : Info → α → Option Info} {I : Info → Prop} {Q R : α → Info → Prop}
    (hQ : ∀ a s s', Later copy s s' → Q a s → Q a s')
    (hR : ∀ a s s', Later copy s s' → R a s → R a s')
    (honce : ∀ a ∈ g.nodes, ∀ s s', I s → once s a = some s' → I s' ∧ Later copy s s' ∧ Q a s')
    (hmany : ∀ a ∈ g.nodes, ∀ s s', I s → many s a = some s' →
      I s' ∧ Later copy s s' ∧ Q a s' ∧ R a s')
    (hs : I s) (h : visitComponents g once many s = some s') :
    I s' ∧ Later copy s s' ∧
      ∀ a ∈ g.nodes, Q a s' ∧ (Relation.TransGen g.Edge a a → R a s') := by
  have hcomponents := (Basic.components_spec g).2.components
  let V (c : List α) (s : Info) : Prop := ∀ a ∈ c, Q a s ∧ (Relation.TransGen g.Edge a a → R a s)
  have hV : ∀ c s s', Later copy s s' → V c s → V c s' := fun c s s' hlater hc a ha =>
    ⟨hQ a s s' hlater (hc a ha).1, fun hcycle => hR a s s' hlater ((hc a ha).2 hcycle)⟩
  have hstep : ∀ c ∈ Basic.components g, ∀ s s', I s →
      visitComponent g once many s c = some s' → I s' ∧ Later copy s s' ∧ V c s' := by
    intro c hc s s' hs h
    unfold visitComponent at h
    have hnodes (a : α) (ha : a ∈ c) : a ∈ g.nodes := hcomponents.mem_nodes hc ha
    split at h
    · cases h
      exact ⟨hs, .refl _, nofun⟩
    · next n =>
      have hn := hnodes n mem_cons_self
      split_ifs at h with hedge
      · obtain ⟨hs', hlater, hq, hr⟩ := hmany n hn s s' hs h
        exact ⟨hs', hlater, forall_mem_singleton.2 ⟨hq, fun _ => hr⟩⟩
      · obtain ⟨hs', hlater, hq⟩ := honce n hn s s' hs h
        refine ⟨hs', hlater, forall_mem_singleton.2 ⟨hq, fun hcycle => absurd ?_ hedge⟩⟩
        -- a cycle through the only node of a component is an edge from it to itself
        obtain ⟨x, hnx, hxn⟩ := Relation.TransGen.head'_iff.1 hcycle
        have hx := (hcomponents.same _ hc n mem_cons_self x).2 ⟨.single hnx, hxn⟩
        obtain rfl := mem_singleton.1 hx
        exact hnx
    · obtain ⟨hs', hlater, hall⟩ := foldlM_later (Q := fun a s => Q a s ∧ R a s)
        (fun a s s' hlater h => ⟨hQ a s s' hlater h.1, hR a s s' hlater h.2⟩)
        (fun a ha => hmany a (hnodes a ha)) hs h
      exact ⟨hs', hlater, fun a ha => ⟨(hall a ha).1, fun _ => (hall a ha).2⟩⟩
  obtain ⟨hs', hlater, hall⟩ := foldlM_later hV hstep hs h
  refine ⟨hs', hlater, fun a ha => ?_⟩
  obtain ⟨c, hc, hac⟩ := hcomponents.exists_mem ha
  exact hall c hc a hac

/-! ### Calls and copies of threads -/

/-- `Calls.inc`, for one function -/
def bump (calls : Func → Calls) (f : Func) : Func → Calls :=
  Function.update calls f (calls f).inc

theorem foldl_bump (calls : Func → Calls) (l : List Func) (f : Func) :
    l.foldl bump calls f = Calls.inc^[l.count f] (calls f) := by
  induction l generalizing calls with
  | nil => rfl
  | cons g l ih =>
    rw [foldl_cons, ih, count_cons]
    by_cases hfg : g = f
    · subst hfg
      rw [bump, Function.update_self, beq_self_eq_true, if_pos rfl, Function.iterate_succ_apply]
    · rw [bump, Function.update_of_ne (Ne.symm hfg), if_neg (by simpa using hfg), add_zero]

theorem iterate_inc {n : ℕ} (h : 2 ≤ n) : Calls.inc^[n] .zero = .many := by
  have hmany (k : ℕ) : Calls.inc^[k] .many = .many := Function.iterate_fixed rfl k
  obtain ⟨k, rfl⟩ := Nat.exists_eq_add_of_le' h
  exact hmany k

theorem foldlM_calls {α : Type} {step : Info → α → Option Info} {I : Info → Prop}
    {k : α → List Func} {l : List α}
    (hstep : ∀ a ∈ l, ∀ s s', I s → step s a = some s' →
      I s' ∧ s'.calls = (k a).foldl bump s.calls) (hs : I s) (h : l.foldlM step s = some s') :
    s'.calls = (l.flatMap k).foldl bump s.calls := by
  induction l generalizing s with
  | nil =>
    cases h
    rfl
  | cons a l ih =>
    rw [foldlM_cons, bind_eq_bind, bind_eq_some_iff] at h
    obtain ⟨s₁, hs₁, h⟩ := h
    obtain ⟨hI, hcalls⟩ := hstep a mem_cons_self s s₁ hs hs₁
    rw [ih (fun b hb => hstep b (mem_cons_of_mem a hb)) hI h, hcalls, flatMap_cons,
      foldl_append]

/-- What has been done with a block to compute `threadCopyCurrent`. -/
def Scanned (uses : Bool) (f : Function) (b : Block) (s : Info) : Prop := uses = true →
  (∀ g ∈ b.transfer.funcs,
    Linked (.threadCopyCurrentFunc g) (.forceThreadCopyCurrent b.label f.name) s) ∧
  ∀ p args l, b.transfer = .runtime p args l → copies p = true →
    (Task.forceThreadCopyCurrent b.label f.name).Done s

theorem Scanned.mono {uses : Bool} {f : Function} {b : Block} (h : Scanned uses f b s)
    (hlater : Later copy s s') : Scanned uses f b s' := fun huses =>
  ⟨fun g hg => ((h huses).1 g hg).mono hlater,
    fun p args l ht hp => ((h huses).2 p args l ht hp).mono hlater.top⟩

theorem Inv.inc (h : Inv P s) (f : Func) : Inv P (s.inc f) where
  proper := h.proper
  done m hm t ht := (h.done m hm t ht).mono fun _ h => h
  follows m hm := (h.follows m hm).mono fun _ h => h
  spreads m hm := (h.spreads m hm).mono fun _ h => h

theorem scanBlock_spec (hP : P.WellTyped Γ) {uses : Bool} {f : Function} {b : Block}
    (hs : Inv P s) (h : scanBlock uses fuel f s b = some s') :
    Inv P s' ∧ Later true s s' ∧ Scanned uses f b s' ∧
      s'.calls = b.transfer.funcs.foldl bump s.calls := by
  unfold scanBlock at h
  split at h
  · next g args r ht =>
    have hinc : Later true s (s.inc g) := ⟨fun _ h => h, fun _ => List.Subset.refl _, fun _ => .inl⟩
    simp only [Scanned, ht, Transfer.funcs]
    split_ifs at h with huses
    · obtain ⟨hs', hlater, hcalls, hlinked⟩ := addHandler_spec hP (hs.inc g)
        (m := .threadCopyCurrentFunc g) (t := .forceThreadCopyCurrent b.label f.name) rfl h
      exact ⟨hs', hinc.trans hlater, fun _ => ⟨forall_mem_singleton.2 hlinked, nofun⟩, hcalls⟩
    · cases h
      exact ⟨hs.inc g, hinc, fun h => absurd h huses, rfl⟩
  · next p args l ht =>
    simp only [Scanned, ht, Transfer.funcs]
    split_ifs at h with hcopies
    · obtain ⟨hgrows, hdone⟩ := forceThreadCopyCurrent_grows (force_forces hP fuel) hs.proper h
      exact ⟨hs.grows hgrows, hgrows.later, fun _ => ⟨nofun, fun _ _ _ _ _ => hdone⟩, hgrows.calls⟩
    · cases h
      refine ⟨hs, .refl s, fun huses => ⟨nofun, ?_⟩, rfl⟩
      rintro p' args' l' hr hp
      cases hr
      exact absurd (by simp [huses, hp]) hcopies
  · next hcall hruntime =>
    cases h
    have hfuncs : b.transfer.funcs = [] := by
      cases ht : b.transfer with
      | call g args r => exact absurd ht (hcall g args r)
      | _ => rfl
    rw [Scanned, hfuncs]
    exact ⟨hs, .refl s, fun _ => ⟨nofun, fun p args l ht => absurd ht (hruntime p args l)⟩, rfl⟩

/-! ### Visits -/

/-- The labels behind a block that copies threads have been made shared. -/
def VisitedBlock (b : Block) (s : Info) : Prop :=
  s.top (.threadCopyCurrentLabel b.label) = true →
    ∀ l ∈ b.transfer.labels, s.top (.multiThreadedLabel l) = true

/-- What a visit of a function leaves behind. -/
structure Visited (uses : Bool) (calls : Func → Calls) (f : Function) (s : Info) : Prop where
  threaded : uses = true → Linked (.multiThreadedFunc f.name) (.forceMultiThreadedFunc f) s
  used : Linked (.multiUsedFunc f.name) (.forceMultiUsedFunc f) s
  blocks : uses = true → ∀ b ∈ f.blocks, VisitedBlock b s
  cycle : ∀ b ∈ f.blocks, Relation.TransGen f.Edge b.label b.label →
    s.top (.multiUsedLabel b.label) = true
  many : calls f.name = .many → s.top (.multiUsedFunc f.name) = true

/-- No block becomes one that copies threads any more. -/
theorem VisitedBlock.mono {b : Block} (h : VisitedBlock b s) (hlater : Later false s s') :
    VisitedBlock b s' := by
  intro htop l hl
  rcases hlater.new _ htop with htop | hcopy
  · exact hlater.top _ (h htop l hl)
  · cases hcopy

variable {uses : Bool} {calls : Func → Calls} {f : Function}

theorem Visited.mono (h : Visited uses calls f s) (hlater : Later false s s') :
    Visited uses calls f s' where
  threaded huses := (h.threaded huses).mono hlater
  used := h.used.mono hlater
  blocks huses b hb := (h.blocks huses b hb).mono hlater
  cycle b hb hcycle := hlater.top _ (h.cycle b hb hcycle)
  many hmany := hlater.top _ (h.many hmany)

section

variable (hP : P.WellTyped Γ)

include hP

theorem edge_controlFlow (hf : f ∈ P.functions) {l l' : Label} :
    (controlFlow f).Edge l l' ↔ f.Edge l l' := by
  have hmem {l : Label} : l ∈ f.blocks.map Block.label ↔ ∃ b ∈ f.blocks, b.label = l := mem_map
  simp only [DirectedGraph.Edge, controlFlow, Function.Edge]
  constructor
  · intro h
    split_ifs at h with hl
    · obtain ⟨b, hb, hl'⟩ := mem_flatMap.1 (mem_filter.1 h).1
      obtain ⟨hb, heq⟩ := mem_filter.1 hb
      exact ⟨b, hb, of_decide_eq_true heq, hl'⟩
    · exact absurd h not_mem_nil
  · rintro ⟨b, hb, rfl, hl'⟩
    rw [if_pos (mem_map_of_mem hb), mem_filter]
    exact ⟨mem_flatMap.2 ⟨b, mem_filter.2 ⟨hb, decide_eq_true rfl⟩, hl'⟩,
      decide_eq_true (hmem.2 (hP.exists_block hf hb hl'))⟩

/-- Where every block is shared, nothing is left to do. -/
theorem visited_of_threaded (hf : f ∈ P.functions) (hs : Inv P s)
    (hdone : (Task.forceMultiThreadedFunc f).Done s)
    (hmany : calls f.name = .many → s.top (.multiUsedFunc f.name) = true) :
    Visited uses calls f s := by
  have hused : ∀ b ∈ f.blocks, s.top (.multiUsedLabel b.label) = true := fun b hb =>
    (hs.follows _ (hdone.2 b hb) b (Program.mem_blocks.2 ⟨f, hf, hb⟩) rfl).1
  refine ⟨fun _ => .inr hdone, .inr ⟨hdone.1, hused⟩, fun _ b hb _ l hl => ?_,
    fun b hb _ => hused b hb, hmany⟩
  obtain ⟨c, hc, rfl⟩ := hP.exists_block hf hb hl
  exact hdone.2 c hc

theorem visitBlock_spec (hf : f ∈ P.functions) {b : Block}
    (hs : Inv P s) (h : visitBlock fuel f s b = some s') :
    Inv P s' ∧ Later false s s' ∧ s'.calls = s.calls ∧ VisitedBlock b s' := by
  obtain ⟨hgrows, hlabels⟩ := visitBlock_grows hP hf hs.proper h
  refine ⟨hs.grows hgrows, hgrows.later, hgrows.calls, fun htop => ?_⟩
  rcases hgrows.later.new _ htop with htop | hcopy
  · exact hlabels htop
  · cases hcopy

theorem forceMultiUsedBlock_spec {b : Block} (hb : b ∈ P.blocks)
    (hs : Inv P s) (h : forceMultiUsedBlock (force fuel) s b = some s') :
    Inv P s' ∧ Later false s s' ∧ s'.calls = s.calls ∧ s'.top (.multiUsedLabel b.label) = true := by
  obtain ⟨hgrows, htop⟩ := forceMultiUsedBlock_grows (force_forces hP fuel) hs.proper hP hb h
  exact ⟨hs.grows hgrows, hgrows.later, hgrows.calls, htop⟩

section

variable (hf : f ∈ P.functions) (hs : Inv P s)

include hf hs

/-- The visit of a function with its components, where threads are used. -/
theorem visitComponents_threads
    (h : visitComponents (controlFlow f) (withBlock f (visitBlock fuel f))
      (withBlock f (visitForceMultiUsedBlock fuel f)) s = some s') :
    (Inv P s' ∧ s'.calls = s.calls) ∧ Later false s s' ∧ ∀ b ∈ f.blocks, VisitedBlock b s' ∧
      (Relation.TransGen f.Edge b.label b.label → s'.top (.multiUsedLabel b.label) = true) := by
  have hunique {b b' : Block} (hb : b ∈ f.blocks) (hb' : b' ∈ f.blocks)
      (hl : b.label = b'.label) : b = b' :=
    hP.block_unique (Program.mem_blocks.2 ⟨f, hf, hb⟩) (Program.mem_blocks.2 ⟨f, hf, hb'⟩) hl
  obtain ⟨hI, hlater, hall⟩ := visitComponents_spec
    (I := fun s₁ => Inv P s₁ ∧ s₁.calls = s.calls)
    (Q := fun l s => ∀ b ∈ f.blocks, b.label = l → VisitedBlock b s)
    (R := fun l s => s.top (.multiUsedLabel l) = true)
    (fun l s s' hlater h b hb hl => (h b hb hl).mono hlater) (fun l s s' hlater => hlater.top _)
    (fun l _ s₁ s₂ hI h => by
      obtain ⟨b, hb, rfl, hvisit⟩ := withBlock_eq_some h
      obtain ⟨hs₂, hlater, hcalls, hvisited⟩ := visitBlock_spec hP hf hI.1 hvisit
      exact ⟨⟨hs₂, hcalls.trans hI.2⟩, hlater, fun b' hb' hl => hunique hb' hb hl ▸ hvisited⟩)
    (fun l _ s₁ s₂ hI h => by
      obtain ⟨b, hb, rfl, hvisit⟩ := withBlock_eq_some h
      rw [visitForceMultiUsedBlock, bind_eq_bind, bind_eq_some_iff] at hvisit
      obtain ⟨s₃, hs₃, hvisit⟩ := hvisit
      obtain ⟨hinv, hlater, hcalls, htop⟩ := forceMultiUsedBlock_spec hP
        (Program.mem_blocks.2 ⟨f, hf, hb⟩) hI.1 hs₃
      obtain ⟨hs₂, hlater', hcalls', hvisited⟩ := visitBlock_spec hP hf hinv hvisit
      exact ⟨⟨hs₂, hcalls'.trans (hcalls.trans hI.2)⟩, hlater.trans hlater',
        fun b' hb' hl => hunique hb' hb hl ▸ hvisited, hlater'.top _ htop⟩)
    ⟨hs, rfl⟩ h
  refine ⟨hI, hlater, fun b hb => ?_⟩
  obtain ⟨hvisited, hcycle⟩ := hall b.label (mem_map_of_mem hb)
  refine ⟨hvisited b hb rfl, fun h => hcycle (Relation.TransGen.mono (fun l l' hl => ?_) _ _ h)⟩
  exact (edge_controlFlow hP hf).2 hl

/-- The visit of a function with its components, where there are no threads. -/
theorem visitComponents_noThreads (h : visitComponents (controlFlow f) (fun s _ => some s)
      (withBlock f (forceMultiUsedBlock (force fuel))) s = some s') :
    (Inv P s' ∧ s'.calls = s.calls) ∧ Later false s s' ∧ ∀ b ∈ f.blocks,
      Relation.TransGen f.Edge b.label b.label → s'.top (.multiUsedLabel b.label) = true := by
  obtain ⟨hI, hlater, hall⟩ := visitComponents_spec
    (I := fun s₁ => Inv P s₁ ∧ s₁.calls = s.calls) (Q := fun _ _ => True)
    (R := fun l s => s.top (.multiUsedLabel l) = true)
    (fun _ _ _ _ h => h) (fun l s s' (hlater : Later false s s') => hlater.top _)
    (fun l _ s₁ s₂ hI h => by
      cases h
      exact ⟨hI, .refl _, trivial⟩)
    (fun l _ s₁ s₂ hI h => by
      obtain ⟨b, hb, rfl, hvisit⟩ := withBlock_eq_some h
      obtain ⟨hinv, hlater, hcalls, htop⟩ := forceMultiUsedBlock_spec hP
        (Program.mem_blocks.2 ⟨f, hf, hb⟩) hI.1 hvisit
      exact ⟨⟨hinv, hcalls.trans hI.2⟩, hlater, trivial, htop⟩)
    ⟨hs, rfl⟩ h
  refine ⟨hI, hlater, fun b hb h => (hall b.label (mem_map_of_mem hb)).2 ?_⟩
  exact Relation.TransGen.mono (fun l l' hl => (edge_controlFlow hP hf).2 hl) _ _ h

theorem visitBlocks_spec (h : f.blocks.foldlM (visitBlock fuel f) s = some s') :
    (Inv P s' ∧ s'.calls = s.calls) ∧ Later false s s' ∧ ∀ b ∈ f.blocks, VisitedBlock b s' :=
  foldlM_later (I := fun s₁ => Inv P s₁ ∧ s₁.calls = s.calls)
    (fun _ _ _ hlater h => h.mono hlater)
    (fun _ _ s₁ s₂ hI h => by
      obtain ⟨hs₂, hlater, hcalls, hvisited⟩ := visitBlock_spec hP hf hI.1 h
      exact ⟨⟨hs₂, hcalls.trans hI.2⟩, hlater, hvisited⟩) ⟨hs, rfl⟩ h

theorem addThreadedHandler_spec
    (h : addHandler fuel (.multiThreadedFunc f.name) (.forceMultiThreadedFunc f) s = some s') :
    Inv P s' ∧ Later false s s' ∧ s'.calls = s.calls ∧
      Linked (.multiThreadedFunc f.name) (.forceMultiThreadedFunc f) s' :=
  addHandler_spec hP (m := .multiThreadedFunc f.name) (t := .forceMultiThreadedFunc f) hs
    ⟨rfl, hf⟩ h

theorem addUsedHandler_spec
    (h : addHandler fuel (.multiUsedFunc f.name) (.forceMultiUsedFunc f) s = some s') :
    Inv P s' ∧ Later false s s' ∧ s'.calls = s.calls ∧
      Linked (.multiUsedFunc f.name) (.forceMultiUsedFunc f) s' :=
  addHandler_spec hP (m := .multiUsedFunc f.name) (t := .forceMultiUsedFunc f) hs ⟨rfl, hf⟩ h

theorem visitFunc_spec {multiUsed : Bool} (h : visitFunc uses fuel multiUsed s f = some s') :
    (Inv P s' ∧ s'.calls = s.calls) ∧ Later false s s' ∧ Visited uses s.calls f s' := by
  rw [visitFunc, bind_eq_bind, bind_eq_some_iff] at h
  obtain ⟨s₁, hs₁, h⟩ := h
  obtain ⟨hinv, hlater, hcalls, hmany⟩ : Inv P s₁ ∧ Later false s s₁ ∧ s₁.calls = s.calls ∧
      (s.calls f.name = .many → s₁.top (.multiUsedFunc f.name) = true) := by
    split_ifs at hs₁ with hcond
    · obtain ⟨hgrows, htop⟩ := forceMultiUsedName_grows (force_forces hP fuel) hs.proper hs₁
      exact ⟨hs.grows hgrows, hgrows.later, hgrows.calls, fun _ => htop⟩
    · cases hs₁
      exact ⟨hs, .refl s, rfl, fun hmany => absurd (by simp [hmany]) hcond⟩
  have hF := force_forces hP fuel
  rw [← hcalls] at hmany ⊢
  split_ifs at h with hthreaded hused huses huses
  -- all of the function is shared by threads
  · obtain ⟨hgrows, hdone⟩ := forceMultiThreadedFunc_grows hF hinv.proper hP hf h
    exact ⟨⟨hinv.grows hgrows, hgrows.calls⟩, hlater.trans hgrows.later,
      visited_of_threaded hP hf (hinv.grows hgrows) hdone fun h => hgrows.top _ (hmany h)⟩
  -- all of it is used more than once
  · simp only [bind_eq_some_iff] at h
    obtain ⟨s₂, hs₂, s₃, hs₃, h⟩ := h
    obtain ⟨hgrows, hdone⟩ := forceMultiUsedFunc_grows hF hinv.proper hP hf hs₂
    obtain ⟨hinv₃, hlater₃, hcalls₃, hlinked⟩ :=
      addThreadedHandler_spec hP hf (hinv.grows hgrows) hs₃
    obtain ⟨⟨hinv', hcalls'⟩, hlater', hvisited⟩ := visitBlocks_spec hP hf hinv₃ h
    have hlast := hgrows.later.trans (hlater₃.trans hlater')
    exact ⟨⟨hinv', hcalls'.trans (hcalls₃.trans hgrows.calls)⟩, hlater.trans hlast,
      fun _ => hlinked.mono hlater', .inr (hdone.mono (hlater₃.trans hlater').top),
      fun _ => hvisited, fun b hb _ => (hlater₃.trans hlater').top _ (hdone.2 b hb),
      fun h => hlast.top _ (hmany h)⟩
  · obtain ⟨s₂, hs₂, h⟩ := bind_eq_some_iff.1 h
    obtain ⟨hgrows, hdone⟩ := forceMultiUsedFunc_grows hF hinv.proper hP hf hs₂
    cases h
    exact ⟨⟨hinv.grows hgrows, hgrows.calls⟩, hlater.trans hgrows.later,
      fun h => absurd h huses, .inr hdone, fun h => absurd h huses, fun b hb _ => hdone.2 b hb,
      fun h => hgrows.top _ (hmany h)⟩
  -- what is on a cycle is used more than once
  · simp only [bind_eq_some_iff] at h
    obtain ⟨s₂, hs₂, s₃, hs₃, h⟩ := h
    obtain ⟨hinv₂, hlater₂, hcalls₂, hlinked₂⟩ := addThreadedHandler_spec hP hf hinv hs₂
    obtain ⟨hinv₃, hlater₃, hcalls₃, hlinked₃⟩ := addUsedHandler_spec hP hf hinv₂ hs₃
    obtain ⟨⟨hinv', hcalls'⟩, hlater', hvisited⟩ := visitComponents_threads hP hf hinv₃ h
    have hlast := hlater₂.trans (hlater₃.trans hlater')
    exact ⟨⟨hinv', hcalls'.trans (hcalls₃.trans hcalls₂)⟩, hlater.trans hlast,
      fun _ => hlinked₂.mono (hlater₃.trans hlater'), hlinked₃.mono hlater',
      fun _ b hb => (hvisited b hb).1, fun b hb => (hvisited b hb).2,
      fun h => hlast.top _ (hmany h)⟩
  · obtain ⟨s₂, hs₂, h⟩ := bind_eq_some_iff.1 h
    obtain ⟨hinv₂, hlater₂, hcalls₂, hlinked⟩ := addUsedHandler_spec hP hf hinv hs₂
    obtain ⟨⟨hinv', hcalls'⟩, hlater', hcycle⟩ := visitComponents_noThreads hP hf hinv₂ h
    have hlast := hlater₂.trans hlater'
    exact ⟨⟨hinv', hcalls'.trans hcalls₂⟩, hlater.trans hlast, fun h => absurd h huses,
      hlinked.mono hlater', fun h => absurd h huses, hcycle, fun h => hlast.top _ (hmany h)⟩

end

/-! ### The result -/

variable (P) in
/-- The functions that are called, with one entry for each call and one for the start. -/
def sites : List Func := P.main :: P.blocks.flatMap fun b => b.transfer.funcs

variable (P) in
/-- What the marks of a program are closed under. -/
structure Closed (s : Info) : Prop where
  /-- a function with two calls is used more than once -/
  many : ∀ f ∈ P.functions, 2 ≤ (sites P).count f.name → s.top (.multiUsedFunc f.name) = true
  usedFunc : ∀ f ∈ P.functions, s.top (.multiUsedFunc f.name) = true →
    (Task.forceMultiUsedFunc f).Done s
  follows : ∀ m, s.top m = true → Follows P s m
  /-- a label on a cycle is used more than once -/
  cycle : ∀ f ∈ P.functions, ∀ b ∈ f.blocks, Relation.TransGen f.Edge b.label b.label →
    s.top (.multiUsedLabel b.label) = true
  spreads : ∀ m, s.top m = true → Spreads P s m
  threadedFunc : usesThreadsOrConts P = true → ∀ f ∈ P.functions,
    s.top (.multiThreadedFunc f.name) = true → (Task.forceMultiThreadedFunc f).Done s
  /-- the labels behind a block that copies threads are shared -/
  copied : usesThreadsOrConts P = true → ∀ b ∈ P.blocks, VisitedBlock b s
  copyFunc : usesThreadsOrConts P = true → ∀ f ∈ P.functions, ∀ b ∈ f.blocks,
    ∀ g ∈ b.transfer.funcs, s.top (.threadCopyCurrentFunc g) = true →
      (Task.forceThreadCopyCurrent b.label f.name).Done s
  copyPrim : usesThreadsOrConts P = true → ∀ f ∈ P.functions, ∀ b ∈ f.blocks, ∀ p args l,
    b.transfer = .runtime p args l → copies p = true →
      (Task.forceThreadCopyCurrent b.label f.name).Done s

theorem multi_closed (h : multi P fuel = some s) : Closed P s := by
  rw [multi, bind_eq_bind, bind_eq_some_iff] at h
  obtain ⟨s₁, hs₁, h⟩ := h
  have hinit : Inv P (Info.new.inc P.main) := ⟨nofun, nofun, nofun, nofun⟩
  have hfunction : ∀ f ∈ P.functions, ∀ s s', Inv P s →
      f.blocks.foldlM (scanBlock (usesThreadsOrConts P) fuel f) s = some s' →
      Inv P s' ∧ Later true s s' ∧ ∀ b ∈ f.blocks, Scanned (usesThreadsOrConts P) f b s' :=
    fun f _ s s' hs h => foldlM_later (fun _ _ _ hlater hb => hb.mono hlater)
      (fun b _ s s' hs h => by
        obtain ⟨hs', hlater, hscanned, -⟩ := scanBlock_spec hP hs h
        exact ⟨hs', hlater, hscanned⟩) hs h
  obtain ⟨hinv, -, hscanned⟩ := foldlM_later
    (Q := fun f s => ∀ b ∈ f.blocks, Scanned (usesThreadsOrConts P) f b s)
    (fun f s s' hlater hf b hb => (hf b hb).mono hlater) hfunction hinit hs₁
  have hcalls : s₁.calls = (sites P).foldl bump fun _ => .zero := by
    rw [foldlM_calls (I := Inv P) (k := fun f => f.blocks.flatMap fun b => b.transfer.funcs)
      (fun f hf s s' hs h => ⟨(hfunction f hf s s' hs h).1, foldlM_calls (I := Inv P)
        (k := fun b : Block => b.transfer.funcs) (fun b _ s s' hs h => by
          obtain ⟨hs', -, -, hcalls⟩ := scanBlock_spec hP hs h
          exact ⟨hs', hcalls⟩) hs h⟩) hinit hs₁, sites, Program.blocks, flatMap_assoc]
    rfl
  have hvisit (multiUsed : Bool) : ∀ n ∈ (callGraph P).nodes, ∀ s s',
      Inv P s ∧ s.calls = s₁.calls →
      withFunction P (visitFunc (usesThreadsOrConts P) fuel multiUsed) s n = some s' →
      (Inv P s' ∧ s'.calls = s₁.calls) ∧ Later false s s' ∧ ∀ f, P.func? n = some f →
        Visited (usesThreadsOrConts P) s₁.calls f s' := by
    intro n _ s s' hI h
    obtain ⟨f, hf, h⟩ := bind_eq_some_iff.1 h
    obtain ⟨⟨hs', hcalls'⟩, hlater, hvisited⟩ :=
      visitFunc_spec hP ((Program.func?_eq_some hP).1 hf).1 hI.1 h
    refine ⟨⟨hs', hcalls'.trans hI.2⟩, hlater, fun f' hf' => ?_⟩
    rw [hf] at hf'
    cases hf'
    rwa [← hI.2]
  obtain ⟨⟨hs, -⟩, hlater, hall⟩ := visitComponents_spec
    (I := fun s => Inv P s ∧ s.calls = s₁.calls)
    (Q := fun n s => ∀ f, P.func? n = some f → Visited (usesThreadsOrConts P) s₁.calls f s)
    (R := fun _ _ => True) (fun n s s' hlater h f hf => (h f hf).mono hlater)
    (fun _ _ _ _ h => h) (hvisit false)
    (fun n hn s s' hI h => by
      obtain ⟨hI', hlater, hQ⟩ := hvisit true n hn s s' hI h
      exact ⟨hI', hlater, hQ, trivial⟩) ⟨hinv, rfl⟩ h
  have hvisited (f : Function) (hf : f ∈ P.functions) :
      Visited (usesThreadsOrConts P) s₁.calls f s :=
    (hall f.name (mem_map_of_mem hf)).1 f ((Program.func?_eq_some hP).2 ⟨hf, rfl⟩)
  refine ⟨fun f hf hcount => (hvisited f hf).many ?_,
    fun f hf htop => hs.done_of_linked (hvisited f hf).used htop, hs.follows,
    fun f hf => (hvisited f hf).cycle, hs.spreads,
    fun huses f hf htop => hs.done_of_linked ((hvisited f hf).threaded huses) htop,
    fun huses b hb => ?_, fun huses f hf b hb g hg htop => ?_,
    fun huses f hf b hb p args l ht hp => ?_⟩
  · rw [hcalls, foldl_bump, iterate_inc hcount]
  · obtain ⟨f, hf, hb⟩ := Program.mem_blocks.1 hb
    exact (hvisited f hf).blocks huses b hb
  · exact hs.done_of_linked (((hscanned f hf b hb huses).1 g hg).mono hlater) htop
  · exact ((hscanned f hf b hb huses).2 p args l ht hp).mono hlater.top

end

end MultiMLton.Ssa.Multi
