import MultiMLton.Ssa.MultiRuns
import MultiMLton.Ssa.WellFormed

/-!
# Multiplicities are sound

As long as no copy of a thread may be resumed, `Single` holds: a function that is called once has one
activation, and what has been entered of it leads to where it is. The first copy that may be resumed
leads to `Hot`.

* `Within.enter`, `Within.call`: the next block, the next function;
* `Stack.hot`: the frames below a function that copies threads;
* `Sound.step`: a step, before and behind the first copy.
-/

namespace MultiMLton.Ssa.Multi

open Atoms Control Relation List

variable {P : Program} {Γ : Var → Ty} {s : Info} {τ τ' es : List Event} {σ σ' : State} {f g : Function}
  {b c : Block} {l : Label} {n : Func} {fr : Frame} {frames : List Frame}
  {acts : List (Function × Block)}

/-! ### One thread -/

variable (P) in
/-- The first function calls the second one. -/
def CallEdge (n n' : Func) : Prop := ∃ f ∈ P.functions, f.name = n ∧ ∃ b ∈ f.blocks, n' ∈ b.transfer.funcs

/-- The frame of a call in the block. -/
structure Waits (c : Block) (fr : Frame) : Prop where
  cont : ∀ p, fr.cont = some p → p.index = 0 ∧ p.label ∈ c.transfer.labels
  handler : ∀ l, fr.handler = .handle l → l ∈ c.transfer.labels

variable (P) in
/-- The frames below an activation of a function, with the functions and the blocks of their calls.
Tail calls leave no frame. -/
inductive Stack : Func → List Frame → List (Function × Block) → Prop
  | nil {n : Func} : Stack n [] []
  | cons {n n' : Func} {g : Function} {c : Block} {fr : Frame} {frames : List Frame}
      {acts : List (Function × Block)} (hg : g ∈ P.functions) (hc : c ∈ g.blocks)
      (hcall : n' ∈ c.transfer.funcs) (hreach : ReflTransGen (CallEdge P) n' n)
      (hwaits : Waits c fr) (hrest : Stack g.name frames acts) :
      Stack n (fr :: frames) ((g, c) :: acts)

theorem Stack.tail (h : Stack P n frames acts) {n' : Func} (hcall : CallEdge P n n') :
    Stack P n' frames acts := by
  cases h with
  | nil => exact .nil
  | cons hg hc hcall' hreach hwaits hrest =>
    exact .cons hg hc hcall' (hreach.tail hcall) hwaits hrest

/-- A function copies threads if one that it calls does. -/
theorem Closed.copyFunc_of_reach (hs : Closed P s) (huses : usesThreadsOrConts P = true) {n' : Func}
    (h : ReflTransGen (CallEdge P) n' n) (hn : s.top (.threadCopyCurrentFunc n) = true) :
    s.top (.threadCopyCurrentFunc n') = true := by
  induction h using ReflTransGen.head_induction_on with
  | refl => exact hn
  | head hedge _ ih =>
    obtain ⟨f, hf, rfl, b, hb, hmem⟩ := hedge
    exact (hs.copyFunc huses f hf b hb _ hmem ih).2

/-- The frames below a function that copies threads are shared. -/
theorem Stack.hot (hs : Closed P s) (huses : usesThreadsOrConts P = true)
    (h : Stack P n frames acts) (hn : s.top (.threadCopyCurrentFunc n) = true) :
    ∀ fr ∈ frames, HotFrame s fr := by
  induction h with
  | nil => exact nofun
  | cons hg hc hcall hreach hwaits _ ih =>
    obtain ⟨hlabel, hfunc⟩ :=
      hs.copyFunc huses _ hg _ hc _ hcall (hs.copyFunc_of_reach huses hreach hn)
    have hlabels := hs.copied huses _ (Program.mem_blocks.2 ⟨_, hg, hc⟩) hlabel
    intro fr hfr
    rcases mem_cons.1 hfr with rfl | hfr
    · exact ⟨fun p hp => hlabels _ (hwaits.cont p hp).2, fun l hl => hlabels _ (hwaits.handler l hl)⟩
    · exact ih hfunc fr hfr

variable (P s τ) in
/-- An activation of a function that is called once: what has been entered leads to its block. -/
structure Live (a : Function × Block) : Prop where
  func : a.1 ∈ P.functions
  block : a.2 ∈ a.1.blocks
  called : .call a.1.name ∈ τ
  here : .enter a.2.label ∈ τ
  behind : s.top (.multiUsedFunc a.1.name) = false → ∀ b ∈ a.1.blocks, .enter b.label ∈ τ →
    ReflTransGen a.1.Edge b.label a.2.label

variable (P s τ) in
/-- Control is in block `b` of `f`, above the frames. -/
structure Within (f : Function) (b : Block) (frames : List Frame) (acts : List (Function × Block)) :
    Prop where
  stack : Stack P f.name frames acts
  live : ∀ a ∈ (f, b) :: acts, Live P s τ a
  /-- a function that is called once has one activation -/
  apart : ((f, b) :: acts).Pairwise fun a a' =>
    a.1.name = a'.1.name → s.top (.multiUsedFunc a.1.name) = true

/-- Back to a frame. -/
theorem Within.drop (h : Within P s τ f b frames acts) {k : ℕ} {frames' : List Frame}
    (hdrop : frames.drop k = fr :: frames') :
    ∃ g c acts', Waits c fr ∧ Within P s τ g c frames' acts' := by
  induction k generalizing f b frames acts with
  | zero =>
    obtain ⟨hstack, hlive, hapart⟩ := h
    rw [drop_zero] at hdrop
    subst hdrop
    cases hstack with
    | cons hg hc hcall hreach hwaits hrest =>
      exact ⟨_, _, _, hwaits, hrest, fun a ha => hlive a (mem_cons_of_mem _ ha), hapart.tail⟩
  | succ k ih =>
    obtain ⟨hstack, hlive, hapart⟩ := h
    cases hstack with
    | nil => simp at hdrop
    | cons hg hc hcall hreach hwaits hrest =>
      exact ih ⟨hrest, fun a ha => hlive a (mem_cons_of_mem _ ha), hapart.tail⟩ hdrop

/-- Events at which nothing is entered. -/
theorem Live.append {a : Function × Block} (h : Live P s τ a) (hes : ∀ b ∈ a.1.blocks,
    .enter b.label ∈ es → s.top (.multiUsedFunc a.1.name) = false → .enter b.label ∈ τ) :
    Live P s (τ ++ es) a where
  func := h.func
  block := h.block
  called := mem_append_left _ h.called
  here := mem_append_left _ h.here
  behind hcold b hb hmem := by
    refine h.behind hcold b hb ((mem_append.1 hmem).elim id fun hmem => ?_)
    exact hes b hb hmem hcold

/-- What is entered at an arrival. -/
theorem enter_mem_arrival {i : ℕ} (h : .enter l ∈ arrival b i) : l = b.label := by
  rcases mem_arrival h with h | ⟨x, -, hx⟩
  · simpa using h
  · cases hx

/-- Control goes along an edge. -/
theorem Within.enter (hP : P.WellTyped Γ) (hs : Closed P s) (hpast : Past P s τ)
    (h : Within P s τ f b frames acts) (hl : l ∈ b.transfer.labels) {b' : Block}
    (hb' : P.block? l = some b') : b' ∈ f.blocks ∧ Past P s (τ ++ arrival b' 0) ∧
      Fresh s (τ ++ arrival b' 0) b' 0 ∧ Within P s (τ ++ arrival b' 0) f b' frames acts := by
  have hlive := h.live (f, b) mem_cons_self
  obtain ⟨hbP', rfl⟩ := (Program.block?_eq_some hP).1 hb'
  obtain ⟨b'', hb'', hlabel⟩ := hP.exists_block hlive.func hlive.block hl
  obtain rfl := hP.block_unique (Program.mem_blocks.2 ⟨f, hlive.func, hb''⟩) hbP' hlabel
  have hedge : f.Edge b.label b''.label := ⟨b, hlive.block, rfl, hl⟩
  have hfunc (hcold : s.top (.multiUsedLabel b''.label) = false) :
      s.top (.multiUsedFunc f.name) = false := by
    refine Bool.eq_false_iff.2 fun hused => ?_
    rw [(hs.usedFunc f hlive.func hused).2 b'' hb''] at hcold
    cases hcold
  -- a block that is entered again is on a cycle
  have hnew (hcold : s.top (.multiUsedLabel b''.label) = false) : .enter b''.label ∉ τ := by
    intro hmem
    have hcycle := TransGen.tail' (hlive.behind (hfunc hcold) b'' hb'' hmem) hedge
    rw [hs.cycle f hlive.func b'' hb'' hcycle] at hcold
    cases hcold
  obtain ⟨hpast', hfresh⟩ := hpast.enter hP hs hlive.func hb'' hlive.called hnew
  refine ⟨hb'', hpast', hfresh, h.stack, fun a ha => ?_, ?_⟩
  · rcases mem_cons.1 ha with rfl | ha
    · refine ⟨hlive.func, hb'', mem_append_left _ hlive.called,
        mem_append_right _ mem_cons_self, fun hcold c hc hmem => ?_⟩
      rcases mem_append.1 hmem with hmem | hmem
      · exact (hlive.behind hcold c hc hmem).tail hedge
      · rw [enter_mem_arrival hmem]
    · refine (h.live a (mem_cons_of_mem _ ha)).append fun c hc hmem hcold => ?_
      have heq := hP.function_unique (h.live a (mem_cons_of_mem _ ha)).func hlive.func hc hb''
        (enter_mem_arrival hmem)
      rw [heq, (pairwise_cons.1 h.apart).1 a ha (by rw [heq])] at hcold
      cases hcold
  · exact pairwise_cons.2 ⟨(pairwise_cons.1 h.apart).1, (pairwise_cons.1 h.apart).2⟩

/-- Control goes to a function. -/
theorem Within.call (hP : P.WellTyped Γ) (hs : Closed P s) (hpast : Past P s τ)
    (h : Within P s τ f b frames acts) {i : ℕ} (hfresh : Fresh s τ b i) {args : List Var} {r : Return}
    (ht : b.transfer = .call n args r) {f' : Function} (hf' : P.func? n = some f') {b' : Block}
    (hb' : P.block? f'.start = some b') :
    let τ' := τ ++ .call n :: (f'.args.map Prod.fst).map .bind ++ arrival b' 0
    Past P s τ' ∧ Fresh s τ' b' 0 ∧ ∃ acts', Within P s τ' f' b' (push r frames) acts' := by
  intro τ'
  have hlive := h.live (f, b) mem_cons_self
  obtain ⟨hfP', rfl⟩ := (Program.func?_eq_some hP).1 hf'
  obtain ⟨hbP', hstart⟩ := (Program.block?_eq_some hP).1 hb'
  obtain ⟨b'', hb'', hlabel, -⟩ := hP.exists_start hfP'
  obtain rfl := hP.block_unique (Program.mem_blocks.2 ⟨f', hfP', hb''⟩) hbP' (hlabel.trans hstart.symm)
  have hmem : f'.name ∈ b.transfer.funcs := by simp [ht, Transfer.funcs]
  have hnew := hfresh.funcs f'.name hmem
  have hbP := Program.mem_blocks.2 ⟨f, hlive.func, hlive.block⟩
  have hcalled := hpast.call hP hs hfP' hnew (.inr ⟨b, hbP, hmem, hlive.here⟩)
  have henter {l : Label} (hl : .enter l ∈ τ ++ .call f'.name :: (f'.args.map Prod.fst).map .bind) :
      .enter l ∈ τ := (mem_append.1 hl).resolve_right enter_notMem_call
  have hhere : .call f'.name ∈ τ ++ .call f'.name :: (f'.args.map Prod.fst).map .bind :=
    mem_append_right _ mem_cons_self
  -- nothing of a function that is called for the first time has been entered
  have hnone (hcold : s.top (.multiUsedFunc f'.name) = false) {c : Block} (hc : c ∈ f'.blocks) :
      .enter c.label ∉ τ := fun hmem => hnew hcold (hpast.entered f' hfP' c hc hmem)
  have hstartNew (hcold : s.top (.multiUsedLabel b''.label) = false) : .enter b''.label ∉
      τ ++ .call f'.name :: (f'.args.map Prod.fst).map .bind := by
    intro hmem
    refine hnone (Bool.eq_false_iff.2 fun hused => ?_) hb'' (henter hmem)
    rw [(hs.usedFunc f' hfP' hused).2 b'' hb''] at hcold
    cases hcold
  obtain ⟨hpast', hfresh'⟩ := hcalled.enter hP hs hfP' hb'' hhere hstartNew
  have hlive' : Live P s τ' (f', b'') := by
    refine ⟨hfP', hb'', mem_append_left _ hhere, mem_append_right _ mem_cons_self,
      fun hcold c hc hmem => ?_⟩
    rcases mem_append.1 hmem with hmem | hmem
    · exact absurd (henter hmem) (hnone hcold hc)
    · rw [enter_mem_arrival hmem]
  have hothers : ∀ a ∈ (f, b) :: acts, Live P s τ' a := by
    intro a ha
    rw [show τ' = τ ++ (.call f'.name :: (f'.args.map Prod.fst).map .bind ++ arrival b'' 0) from
      append_assoc _ _ _]
    refine (h.live a ha).append fun c hc hmem hcold => ?_
    rcases mem_append.1 hmem with hmem | hmem
    · exact absurd hmem enter_notMem_call
    · have heq := hP.function_unique (h.live a ha).func hfP' hc hb'' (enter_mem_arrival hmem)
      have hcalled := (h.live a ha).called
      rw [heq] at hcalled hcold
      exact absurd hcalled (hnew hcold)
  have hapart : ∀ a ∈ (f, b) :: acts, f'.name = a.1.name →
      s.top (.multiUsedFunc f'.name) = true := by
    intro a ha heq
    by_contra hcold
    rw [Bool.not_eq_true] at hcold
    exact hnew hcold (heq ▸ (h.live a ha).called)
  refine ⟨hpast', hfresh', ?_⟩
  have hframe {fr : Frame} (hwaits : Waits b fr) :
      Within P s τ' f' b'' (fr :: frames) ((f, b) :: acts) :=
    ⟨.cons hlive.func hlive.block hmem .refl hwaits h.stack,
      forall_mem_cons.2 ⟨hlive', hothers⟩, pairwise_cons.2 ⟨hapart, h.apart⟩⟩
  cases r with
  | dead => exact ⟨_, hframe ⟨by simp, by simp⟩⟩
  | nonTail cont handler =>
    refine ⟨_, hframe ⟨fun p hp => ?_, fun l hl => ?_⟩⟩
    · cases hp
      exact ⟨rfl, by simp [ht, Transfer.labels, Return.labels]⟩
    · dsimp only at hl
      simp [ht, hl, Transfer.labels, Return.labels, Handler.labels]
  | tail =>
    refine ⟨acts, h.stack.tail ⟨f, hlive.func, rfl, b, hlive.block, hmem⟩, ?_, ?_⟩
    · exact forall_mem_cons.2 ⟨hlive', fun a ha => hothers a (mem_cons_of_mem _ ha)⟩
    · exact pairwise_cons.2
        ⟨fun a ha => hapart a (mem_cons_of_mem _ ha), (pairwise_cons.1 h.apart).2⟩

/-- A statement of the block has been executed. -/
theorem Within.next (hP : P.WellTyped Γ) (hpast : Past P s τ) (h : Within P s τ f b frames acts)
    {i : ℕ} (hfresh : Fresh s τ b i) {st : Statement} (hst : b.statements[i]? = some st) :
    Past P s (τ ++ arrival b (i + 1)) ∧ Fresh s (τ ++ arrival b (i + 1)) b (i + 1) ∧
      Within P s (τ ++ arrival b (i + 1)) f b frames acts := by
  have hlive := h.live (f, b) mem_cons_self
  have hbP := Program.mem_blocks.2 ⟨f, hlive.func, hlive.block⟩
  have hdrop : b.statements.drop i = st :: b.statements.drop (i + 1) := by
    obtain ⟨hlt, rfl⟩ := List.getElem?_eq_some_iff.1 hst
    exact List.drop_eq_getElem_cons hlt
  have hbinds := hfresh.binds
  rw [hdrop] at hbinds
  have hnodup : ((st :: b.statements.drop (i + 1)).filterMap Statement.var).Nodup := by
    have hblock := (nodup_flatMap.1 hP.blocks_nodup).1 b hbP
    have hsub := (drop_sublist i b.statements).filterMap Statement.var
    rw [hdrop] at hsub
    exact ((nodup_append.1 hblock).2.1).sublist hsub
  cases hvar : st.var with
  | none =>
    rw [filterMap_cons_none hvar] at hbinds
    have hnothing : arrival b (i + 1) = [] := by simp [arrival, hst, hvar]
    rw [hnothing, append_nil]
    exact ⟨hpast, ⟨hfresh.funcs, hbinds⟩, h⟩
  | some x =>
    rw [filterMap_cons_some hvar] at hbinds hnodup
    have hbind : arrival b (i + 1) = [.bind x] := by simp [arrival, hst, hvar]
    have hx : x ∈ b.binds := mem_filterMap.2 ⟨st, mem_of_getElem? hst, hvar⟩
    have hold {e : Event} (he : e ∈ τ ++ [.bind x]) (hne : e ≠ .bind x) : e ∈ τ :=
      (mem_append.1 he).resolve_right fun he => hne (mem_singleton.1 he)
    rw [hbind]
    refine ⟨⟨?_, fun n hcold hn => ?_, fun f' hf' b' hb' hl => ?_, fun y hy => ?_⟩,
      ⟨fun n hn hcold hmem => hfresh.funcs n hn hcold (hold hmem nofun), fun y hy hcold hmem => ?_⟩,
      h.stack, fun a ha => (h.live a ha).append fun c hc hmem _ => ?_, h.apart⟩
    · by_cases hcold : s.top (.multiUsedVar x) = true
      · exact hpast.once.append_hot fun e he => by simp [mem_singleton.1 he, Cold, hcold]
      · rw [Bool.not_eq_true] at hcold
        refine hpast.once.append (fun e he _ => ?_) (nodup_singleton _)
        rw [mem_singleton.1 he]
        exact hbinds x mem_cons_self hcold
    · rcases hpast.called n hcold (hold hn nofun) with hmain | ⟨c, hc, hnc, hl⟩
      · exact .inl hmain
      · exact .inr ⟨c, hc, hnc, mem_append_left _ hl⟩
    · exact mem_append_left _ (hpast.entered f' hf' b' hb' (hold hl (by simp)))
    · by_cases heq : y = x
      · exact .inr (.inr ⟨b, hbP, .inr (heq ▸ hx), mem_append_left _ hlive.here⟩)
      · rcases hpast.bound y (hold hy fun h => heq (by simpa using h)) with
          hg | ⟨f', hf', hyf, hcall⟩ | ⟨b', hb', hy', hl⟩
        · exact .inl hg
        · exact .inr (.inl ⟨f', hf', hyf, mem_append_left _ hcall⟩)
        · exact .inr (.inr ⟨b', hb', hy', mem_append_left _ hl⟩)
    · have hne : y ≠ x := fun heq => (nodup_cons.1 hnodup).1 (heq ▸ hy)
      exact hbinds y (mem_cons_of_mem _ hy) hcold (hold hmem fun h => hne (by simpa using h))
    · cases mem_singleton.1 hmem

variable (P s τ σ) in
/-- One thread has run, and no copy may be resumed, early ones apart. -/
structure Single : Prop where
  within : ∃ f b acts, P.block? σ.point.label = some b ∧ Past P s τ ∧ Fresh s τ b σ.point.index ∧
    Within P s τ f b σ.frames acts
  threads : usesThreadsOrConts P = true → σ.copied = false ∧ ∀ t ∈ σ.threads, t.early = true

theorem isNamed_mono {p : Prim} {names names' : List String} (h : p.isNamed names = true)
    (hsub : names ⊆ names') : p.isNamed names' = true := by
  cases p with
  | other o =>
    cases o with
    | named n k => exact decide_eq_true (hsub (of_decide_eq_true h))
    | _ => cases h
  | _ => cases h

/-- A program with a statement that resumes a thread uses threads. -/
theorem uses_of_effect (hb : b ∈ P.blocks) {st : Statement} (hst : st ∈ b.statements)
    (h : st.exp.effect = .switchTo ∨ st.exp.effect = .prefixAndSwitchTo) :
    usesThreadsOrConts P = true := by
  obtain ⟨p, targs, args, hexp, hp⟩ : ∃ p targs args, st.exp = .primApp p targs args ∧
      (p.effect = .switchTo ∨ p.effect = .prefixAndSwitchTo) := by
    cases hexp : st.exp with
    | primApp p targs args =>
      rw [hexp] at h
      exact ⟨p, targs, args, rfl, h⟩
    | _ =>
      rw [hexp] at h
      simp [Exp.effect] at h
  have hswitches : switches p = true := by
    rw [Prim.effect] at hp
    split_ifs at hp with _ hswitch _ _ _ hprefix <;> simp only [or_self] at hp
    · exact isNamed_mono hswitch (by simp)
    · exact isNamed_mono hprefix (by simp)
  rw [usesThreadsOrConts, Program.hasPrim, Bool.or_eq_true]
  refine .inr (any_eq_true.2 ⟨b, hb, ?_⟩)
  rw [Bool.or_eq_true]
  exact .inl (any_eq_true.2 ⟨st, hst, by rw [hexp]; exact hswitches⟩)

/-- Control goes along an edge of a block. -/
theorem Single.enter (hP : P.WellTyped Γ) (hs : Closed P s) (hpast : Past P s τ)
    (h : Within P s τ f b frames acts) (hl : l ∈ b.transfer.labels) {b' : Block}
    (hb' : P.block? l = some b') {threads : List Thread} {copied : Bool}
    (hthreads : usesThreadsOrConts P = true → copied = false ∧ ∀ t ∈ threads, t.early = true) :
    Single P s (τ ++ arrival b' 0) ⟨⟨l, 0⟩, frames, threads, copied⟩ := by
  obtain ⟨-, hpast', hfresh', h'⟩ := h.enter hP hs hpast hl hb'
  exact ⟨⟨f, b', acts, hb', hpast', hfresh', h'⟩, hthreads⟩

/-- Back to a frame, as it waits. -/
theorem Single.back (hP : P.WellTyped Γ) (hs : Closed P s) (hpast : Past P s τ)
    (h : Within P s τ f b frames acts) {k : ℕ} {p : Point} {hd : Handler} {frames' : List Frame}
    (hdrop : frames.drop k = ⟨some p, hd⟩ :: frames') {b' : Block}
    (hb' : P.block? p.label = some b') {threads : List Thread} {copied : Bool}
    (hthreads : usesThreadsOrConts P = true → copied = false ∧ ∀ t ∈ threads, t.early = true) :
    Single P s (τ ++ arrival b' p.index) ⟨p, frames', threads, copied⟩ := by
  obtain ⟨g, c, acts', hwaits, h'⟩ := h.drop hdrop
  obtain ⟨hindex, hl⟩ := hwaits.cont p rfl
  obtain ⟨l, i⟩ := p
  dsimp only at hindex
  subst hindex
  exact Single.enter hP hs hpast h' hl hb' hthreads

/-- What is resumed is early, as long as one thread has run. -/
theorem Single.early (h : Single P s τ σ) (huses : usesThreadsOrConts P = true) {j : ℕ} {t : Thread}
    (ht : σ.threads[j]? = some t) (hes : Event.resume true ∉ [Event.resume t.early]) : False := by
  rw [(h.threads huses).2 t (mem_of_getElem? ht)] at hes
  exact hes mem_cons_self

theorem Single.keeps (h : Single P s τ σ) {eff : Effect} {threads : List Thread}
    (hkeeps : Keeps σ eff threads) (huses : usesThreadsOrConts P = true) :
    σ.copied = false ∧ ∀ t ∈ threads, t.early = true := by
  obtain ⟨hcopied, hthreads⟩ := h.threads huses
  refine ⟨hcopied, fun t ht => ?_⟩
  cases hkeeps with
  | none => exact hthreads t ht
  | copy hmem =>
    rcases mem_append.1 ht with ht | ht
    · exact hthreads t ht
    · obtain rfl := mem_singleton.1 ht
      exact hthreads t (mem_of_getElem? hmem)
  | copyParasite k =>
    rcases mem_append.1 ht with ht | ht
    · exact hthreads t ht
    · obtain rfl := mem_singleton.1 ht
      simp [hcopied]
  | @extractParasite j t' hmem k =>
    have hearly := hthreads t' (mem_of_getElem? hmem)
    rcases mem_append.1 ht with ht | ht
    · rcases mem_or_eq_of_mem_set ht with ht | rfl
      · exact hthreads t ht
      · exact hearly
    · obtain rfl := mem_singleton.1 ht
      exact hearly

/-- What has been seen before and behind the first copy of a thread that may be resumed. -/
inductive Sound (P : Program) (s : Info) (τ : List Event) (σ : State) : Prop
  | single (h : Single P s τ σ)
  | hot (huses : usesThreadsOrConts P = true) (hhot : Hot s σ) (honce : Once s τ)

section

variable (hP : P.WellTyped Γ) (hs : Closed P s)

include hP hs

/-- The first copy of a thread: where it may go on is shared. -/
theorem Single.copyCurrent (h : Single P s τ σ)
    (hb : P.block? σ.point.label = some b) {p : Prim} {args : List Var}
    (ht : b.transfer = .runtime p args l) (hp : p.isNamed ["Thread_copyCurrent"] = true)
    {b' : Block} (hb' : P.block? l = some b') : Sound P s (τ ++ arrival b' 0) ⟨⟨l, 0⟩, σ.frames,
      σ.threads ++ [⟨⟨some ⟨l, 0⟩, .dead⟩ :: σ.frames, false⟩], true⟩ := by
  obtain ⟨f, b₁, acts, hb₁, hpast, hfresh, hwithin⟩ := h.within
  rw [hb, Option.some.injEq] at hb₁
  subst hb₁
  have hlive := hwithin.live (f, b) mem_cons_self
  have hl : l ∈ b.transfer.labels := by simp [ht, Transfer.labels]
  by_cases huses : usesThreadsOrConts P = true
  · obtain ⟨hlabel, hfunc⟩ := hs.copyPrim huses f hlive.func b hlive.block p args l ht
      (isNamed_mono hp (by simp))
    have hshared := hs.copied huses b (Program.mem_blocks.2 ⟨f, hlive.func, hlive.block⟩) hlabel l hl
    have hframes := hwithin.stack.hot hs huses hfunc
    obtain ⟨hbP', rfl⟩ := (Program.block?_eq_some hP).1 hb'
    refine .hot huses ⟨hshared, hframes, fun t hmem hearly => ?_⟩
      (hpast.once.append_hot (hs.arrival_threaded hbP' hshared))
    rcases mem_append.1 hmem with hmem | hmem
    · rw [(h.threads huses).2 t hmem] at hearly
      cases hearly
    · obtain rfl := mem_singleton.1 hmem
      exact forall_mem_cons.2 ⟨⟨fun q hq => by cases hq; exact hshared, fun l hl => by cases hl⟩, hframes⟩
  · exact .single (Single.enter hP hs hpast hwithin hl hb' fun h => absurd h huses)

theorem Single.step (h : Single P s τ σ)
    (hstep : Step P σ es σ') (hes : Event.resume true ∉ es) : Sound P s (τ ++ es) σ' := by
  obtain ⟨f, b, acts, hb, hpast, hfresh, hwithin⟩ := h.within
  have hlive := hwithin.live (f, b) mem_cons_self
  have hbP := Program.mem_blocks.2 ⟨f, hlive.func, hlive.block⟩
  have hsame {b' : Block} (hb' : P.block? σ.point.label = some b') : b' = b :=
    Option.some.inj (hb'.symm.trans hb)
  obtain @⟨_, es', b', hmove, hb'⟩ := hstep
  have hes' : Event.resume true ∉ es' := fun hmem => hes (mem_append_left _ hmem)
  cases hmove with
  | next hb₁ hst hkeeps =>
    obtain rfl := hsame hb₁
    obtain rfl := hsame hb'
    obtain ⟨hpast', hfresh', hwithin'⟩ := hwithin.next hP hpast hfresh hst
    exact .single ⟨⟨f, _, acts, hb, hpast', hfresh', hwithin'⟩, h.keeps hkeeps⟩
  | @leave b₁ st _ p hd frames threads hb₁ hst hleaves =>
    obtain rfl := hsame hb₁
    have huses (heffect : st.exp.effect = .switchTo ∨ st.exp.effect = .prefixAndSwitchTo) :=
      uses_of_effect hbP (mem_of_getElem? hst) heffect
    generalize heffect : st.exp.effect = eff at hleaves
    generalize hback : Frame.mk (some p) hd :: frames = all at hleaves
    cases hleaves with
    | switchTo ht => exact (h.early (huses (.inl heffect)) ht hes').elim
    | jumpDown k =>
      rw [nil_append]
      exact .single (Single.back hP hs hpast hwithin hback.symm hb' h.threads)
    | prefixAndSwitchTo ht => exact (h.early (huses (.inr heffect)) ht hes').elim
  | jump hb₁ hend hl =>
    obtain rfl := hsame hb₁
    rw [nil_append]
    exact .single (Single.enter hP hs hpast hwithin (jumps_subset _ hl) hb' h.threads)
  | call hb₁ hend ht hf =>
    obtain rfl := hsame hb₁
    obtain ⟨hpast', hfresh', acts', hwithin'⟩ := hwithin.call hP hs hpast hfresh ht hf hb'
    rw [← append_assoc]
    exact .single ⟨⟨_, _, acts', hb', hpast', hfresh', hwithin'⟩, h.threads⟩
  | ret hb₁ hend ht hframes =>
    rw [nil_append]
    exact .single (Single.back (k := 0) hP hs hpast hwithin hframes hb' h.threads)
  | raise hb₁ hend ht hunwind =>
    obtain ⟨k, fr, hdrop, hl⟩ := unwind_drop hunwind
    obtain ⟨g, c, acts', hwaits, hwithin'⟩ := hwithin.drop hdrop
    rw [nil_append]
    exact .single (Single.enter hP hs hpast hwithin' (hwaits.handler _ hl) hb' h.threads)
  | copyCurrent hb₁ hend ht hp =>
    obtain rfl := hsame hb₁
    rw [nil_append]
    exact h.copyCurrent hP hs hb ht hp hb'

theorem Sound.step (h : Sound P s τ σ)
    (hstep : Step P σ es σ') (hes : Event.resume true ∉ es) : Sound P s (τ ++ es) σ' := by
  cases h with
  | single h => exact h.step hP hs hstep hes
  | hot huses hhot honce =>
    obtain ⟨hmove, hb'⟩ := hstep
    obtain ⟨hhot', hcold⟩ :=
      hhot.move hP hs huses hmove fun hmem => hes (mem_append_left _ hmem)
    obtain ⟨hbP', hl⟩ := (Program.block?_eq_some hP).1 hb'
    refine .hot huses hhot' (honce.append_hot fun e he => ?_)
    rcases mem_append.1 he with he | he
    · exact hcold e he
    · exact hs.arrival_threaded hbP' (hl ▸ hhot'.label) e he

/-- The start: the globals, and the call of the main function. -/
theorem Single.start (hf : P.func? P.main = some f) (hb : P.block? f.start = some b) :
    Single P s ((P.globals.filterMap Statement.var).map .bind ++
      .call P.main :: (f.args.map Prod.fst).map .bind ++ arrival b 0) ⟨⟨f.start, 0⟩, [], [], false⟩ := by
  obtain ⟨hfP, hname⟩ := (Program.func?_eq_some hP).1 hf
  obtain ⟨hbP, hstart⟩ := (Program.block?_eq_some hP).1 hb
  obtain ⟨b', hb', hlabel, -⟩ := hP.exists_start hfP
  obtain rfl := hP.block_unique (Program.mem_blocks.2 ⟨f, hfP, hb'⟩) hbP (hlabel.trans hstart.symm)
  have hbinds {e : Event} (he : e ∈ P.globalVars.map Event.bind) : ∃ x ∈ P.globalVars, e = .bind x := by
    obtain ⟨x, hx, rfl⟩ := mem_map.1 he
    exact ⟨x, hx, rfl⟩
  have hglobals : Past P s (P.globalVars.map .bind) := by
    refine ⟨fun e _ => nodup_iff_count_le_one.1 ?_ e, fun n _ hn => ?_, fun f _ b _ hl => ?_,
      fun x hx => ?_⟩
    · have hdefs := (nodup_append.1 ((Program.defs_perm P).nodup_iff.1 hP.defs)).1
      exact hdefs.map fun x y hxy => by cases hxy; rfl
    · obtain ⟨x, -, hx⟩ := hbinds hn
      cases hx
    · obtain ⟨x, -, hx⟩ := hbinds hl
      cases hx
    · obtain ⟨y, hy, hxy⟩ := hbinds hx
      cases hxy
      exact .inl hy
  have hcalled := hglobals.call hP hs hfP (fun _ hmem => by
    obtain ⟨x, -, hx⟩ := hbinds hmem
    cases hx) (.inl hname)
  have hnone {l : Label} : .enter l ∉ P.globalVars.map Event.bind ++
      .call f.name :: (f.args.map Prod.fst).map .bind := by
    intro hmem
    rcases mem_append.1 hmem with hmem | hmem
    · obtain ⟨x, -, hx⟩ := hbinds hmem
      cases hx
    · exact enter_notMem_call hmem
  have hcall : .call f.name ∈ P.globalVars.map Event.bind ++
      .call f.name :: (f.args.map Prod.fst).map .bind := mem_append_right _ mem_cons_self
  obtain ⟨hpast, hfresh⟩ := hcalled.enter hP hs hfP hb' hcall fun _ => hnone
  rw [← hname]
  refine ⟨⟨f, b', [], hb, hpast, hfresh, .nil, fun a ha => ?_, pairwise_singleton _ _⟩,
    fun _ => ⟨rfl, nofun⟩⟩
  obtain rfl := mem_singleton.1 ha
  refine ⟨hfP, hb', mem_append_left _ hcall, mem_append_right _ mem_cons_self,
    fun _ c hc hmem => ?_⟩
  rcases mem_append.1 hmem with hmem | hmem
  · exact absurd hmem hnone
  · rw [enter_mem_arrival hmem]

/-- Every run, as long as no early copy is resumed. -/
theorem sound_of_run (hrun : Run P τ σ) (hlate : Event.resume true ∉ τ) : Sound P s τ σ := by
  induction hrun with
  | start hf hb => exact .single (Single.start hP hs hf hb)
  | step hrun hstep ih =>
    rw [mem_append, not_or] at hlate
    exact (ih hlate.1).step hP hs hstep hlate.2

end

theorem Sound.once (h : Sound P s τ σ) : Once s τ := by
  cases h with
  | single h =>
    obtain ⟨f, b, acts, -, hpast, -⟩ := h.within
    exact hpast.once
  | hot _ _ honce => exact honce

/-- Soundness: in a run that resumes no thread whose frames were copied before the first
`Thread_copyCurrent`, what is not reported to be used more than once is seen once at most. -/
theorem multi_once (hP : P.WellFormed) {fuel : ℕ} (h : multi P fuel = some s) (hrun : Run P τ σ)
    (hlate : Event.resume true ∉ τ) :
    (∀ l, s.labelIsMultiUsed l = false → τ.count (.enter l) ≤ 1) ∧
      (∀ x, s.varIsMultiDefed x = false → τ.count (.bind x) ≤ 1) ∧
        ∀ f, s.funcIsMultiUsed f = false → τ.count (.call f) ≤ 1 := by
  obtain ⟨Γ, hP, -⟩ := hP
  have honce := (sound_of_run hP (multi_closed hP h) hrun hlate).once
  exact ⟨fun l hl => honce (.enter l) hl, fun x hx => honce (.bind x) hx,
    fun f hf => honce (.call f) hf⟩

/-! ### A frame that is copied -/

/-- A primitive, or a C function. -/
def effectful (name : String) : Prim := .other (.named name .sideEffect)

def int : WordSize := ⟨32, WordSize.compareRes.pos, WordSize.compareRes.le⟩

/-- The second function copies the frame of its caller, which puts the copy in its own place as soon
as it goes on. -/
def reentered : Program where
  datatypes := []
  globals := [⟨some 0, .thread, .primApp (.other .mltonBogus) [.thread] []⟩,
    ⟨some 1, .ref .thread, .primApp (.other .refRef) [.thread] [0]⟩]
  functions :=
    [⟨[], [⟨[], 0, [], .call 1 [] (.nonTail 1 (.handle 2))⟩,
        ⟨[], 1, [⟨some 2, .thread, .primApp (.other .refDeref) [.thread] [1]⟩,
          ⟨none, .unit, .primApp (effectful "Thread_atomicBegin") [] []⟩,
          ⟨none, .unit, .primApp (effectful "Threadlet_prefixAndSwitchTo") [] [2]⟩], .ret []⟩,
        ⟨[], 2, [], .bug⟩], false, 0, none, some [], 0⟩,
      ⟨[], [⟨[], 3, [⟨some 3, .word int, .const (.word (.zero int))⟩,
          ⟨some 4, .thread, .primApp (effectful "GC_copyParasite") [] [3]⟩,
          ⟨none, .unit, .primApp (.other .refAssign) [.thread] [1, 4]⟩], .ret []⟩],
        false, 1, none, some [], 3⟩]
  main := 0

def reenteredTypes : Var → Ty
  | 1 => .ref .thread
  | 3 => .word int
  | _ => .thread

theorem reentered_wellTyped : reentered.WellTyped reenteredTypes where
  defs := by decide
  labels := by decide
  funcs := by decide
  main := ⟨_, rfl, rfl⟩
  globals := by
    simp only [reentered, mem_cons, not_mem_nil, or_false]
    rintro st (rfl | rfl)
    · exact ⟨⟨rfl, rfl⟩, fun x hx => by cases hx; rfl⟩
    · exact ⟨⟨_, rfl, rfl, rfl⟩, fun x hx => by cases hx; rfl⟩
  functions := by
    simp only [reentered, mem_cons, not_mem_nil, or_false]
    rintro f (rfl | rfl)
    · refine ⟨fun _ h => (by cases h), by simp, ?_, ?_, rfl⟩
      · simp only [mem_cons, not_mem_nil, or_false]
        rintro b (rfl | rfl | rfl) st hst
        · cases hst
        · simp only [mem_cons, not_mem_nil, or_false] at hst
          rcases hst with rfl | rfl | rfl
          · exact ⟨⟨_, rfl, rfl, rfl⟩, fun x hx => by cases hx; rfl⟩
          · exact ⟨trivial, fun _ h => by cases h⟩
          · exact ⟨trivial, fun _ h => by cases h⟩
        · cases hst
      · simp only [mem_cons, not_mem_nil, or_false]
        rintro b (rfl | rfl | rfl)
        · exact ⟨_, rfl, rfl, rfl, fun ts hts => by cases hts; rfl, rfl, fun _ h => by cases h⟩
        · rfl
        · trivial
    · refine ⟨fun _ h => (by cases h), by simp, ?_, ?_, rfl⟩
      · simp only [mem_singleton]
        rintro b rfl st hst
        simp only [mem_cons, not_mem_nil, or_false] at hst
        rcases hst with rfl | rfl | rfl
        · exact ⟨rfl, fun x hx => by cases hx; rfl⟩
        · exact ⟨trivial, fun x hx => by cases hx; rfl⟩
        · exact ⟨⟨_, rfl, rfl, rfl⟩, fun _ h => by cases h⟩
      · simp only [mem_singleton]
        rintro b rfl
        rfl

/-- Statements whose variables are defined by the ones before them, or elsewhere. -/
theorem scoped_of_take {ss : List Statement} {elsewhere : Var → Prop}
    (h : ∀ i (hi : i < ss.length), ∀ x ∈ ss[i].exp.vars,
      elsewhere x ∨ x ∈ (ss.take i).filterMap Statement.var) :
    ∀ pre st post, ss = pre ++ st :: post → ∀ x ∈ st.exp.vars,
      elsewhere x ∨ x ∈ pre.filterMap Statement.var := by
  rintro pre st post rfl x hx
  have := h pre.length (by simp) x (by simpa using hx)
  simpa using this

theorem reentered_wellScoped : reentered.WellScoped where
  globals pre st post h x hx :=
    (@scoped_of_take _ (fun _ => False) (by decide) pre st post h x hx).resolve_left id
  functions := by
    have hglobal {f : Function} {l : Label} {x : Var} (hx : x ∈ [0, 1]) :
        f.InScope reentered.globalVars l x := .global hx
    have hstatements {f : Function} {b : Block} (h : ∀ i (hi : i < b.statements.length),
        ∀ x ∈ b.statements[i].exp.vars, x ∈ [0, 1] ∨ x ∈ (b.statements.take i).filterMap Statement.var) :
        ∀ pre st post, b.statements = pre ++ st :: post → ∀ x ∈ st.exp.vars,
          f.InScope reentered.globalVars b.label x ∨ x ∈ pre.filterMap Statement.var :=
      fun pre st post heq x hx => (scoped_of_take h pre st post heq x hx).imp_left hglobal
    simp only [reentered, mem_cons, not_mem_nil, or_false]
    rintro f (rfl | rfl)
    · refine ⟨?_, ?_⟩ <;> simp only [mem_cons, not_mem_nil, or_false]
      · rintro b (rfl | rfl | rfl) -
        · exact hstatements (by decide)
        · exact hstatements (by decide)
        · exact hstatements (by decide)
      · rintro b (rfl | rfl | rfl) - x hx <;> cases hx
    · refine ⟨?_, ?_⟩ <;> simp only [mem_singleton]
      · rintro b rfl -
        exact hstatements (by decide)
      · rintro b rfl - x hx
        cases hx

theorem reentered_wellFormed : reentered.WellFormed :=
  ⟨_, reentered_wellTyped, reentered_wellScoped⟩

/-- What is seen before the copy is resumed. -/
def seen : List Event :=
  [.bind 0, .bind 1, .call 0, .enter 0, .call 1, .enter 3, .bind 3, .bind 4, .enter 1, .bind 2]

/-- The frame of the main function, as it waits for the second one, and as it is copied. -/
def waiting : Frame := ⟨some ⟨1, 0⟩, .handle 2⟩

theorem reentered_seen : Run reentered seen ⟨⟨1, 2⟩, [], [⟨[waiting], true⟩], false⟩ := by
  have h := Run.start (P := reentered) rfl rfl
  change Run reentered (seen.take 4) ⟨⟨0, 0⟩, [], [], false⟩ at h
  replace h := h.step ⟨.call rfl rfl rfl rfl, rfl⟩
  change Run reentered (seen.take 6) ⟨⟨3, 0⟩, [waiting], [], false⟩ at h
  replace h := h.step ⟨.next rfl rfl .none, rfl⟩
  change Run reentered (seen.take 7) ⟨⟨3, 1⟩, [waiting], [], false⟩ at h
  replace h := h.step ⟨.next rfl rfl (.copyParasite 1), rfl⟩
  change Run reentered (seen.take 8) ⟨⟨3, 2⟩, [waiting], [⟨[waiting], true⟩], false⟩ at h
  replace h := h.step ⟨.next rfl rfl .none, rfl⟩
  change Run reentered (seen.take 8) ⟨⟨3, 3⟩, [waiting], [⟨[waiting], true⟩], false⟩ at h
  replace h := h.step ⟨.ret rfl rfl rfl rfl, rfl⟩
  change Run reentered (seen.take 9) ⟨⟨1, 0⟩, [], [⟨[waiting], true⟩], false⟩ at h
  replace h := h.step ⟨.next rfl rfl .none, rfl⟩
  change Run reentered seen ⟨⟨1, 1⟩, [], [⟨[waiting], true⟩], false⟩ at h
  replace h := h.step ⟨.next rfl rfl .none, rfl⟩
  exact h

/-- The first eight steps of the program. -/
theorem multi_once_reentered : ∃ s, multi reentered 1 = some s ∧ s.labelIsMultiUsed 1 = false ∧
    (∀ l, s.labelIsMultiUsed l = false → seen.count (.enter l) ≤ 1) ∧
      (∀ x, s.varIsMultiDefed x = false → seen.count (.bind x) ≤ 1) ∧
        ∀ f, s.funcIsMultiUsed f = false → seen.count (.call f) ≤ 1 := by
  have hlabel : (multi reentered 1).map (fun s => s.labelIsMultiUsed 1) = some false := by
    decide +kernel
  obtain ⟨s, hs, hlabel⟩ := Option.map_eq_some_iff.1 hlabel
  exact ⟨s, hs, hlabel, multi_once reentered_wellFormed hs reentered_seen (by decide)⟩

/-- The label behind the call is entered again, when the copied frame goes on. -/
theorem reentered_twice : ¬∀ (P : Program) (fuel : ℕ) (s : Info) (τ : List Event) (σ : State),
    P.WellFormed → multi P fuel = some s → Run P τ σ →
      ∀ l, s.labelIsMultiUsed l = false → τ.count (.enter l) ≤ 1 := by
  intro h
  have hlabel : (multi reentered 1).map (fun s => s.labelIsMultiUsed 1) = some false := by
    decide +kernel
  obtain ⟨s, hs, hlabel⟩ := Option.map_eq_some_iff.1 hlabel
  have hresume : Move reentered ⟨⟨1, 2⟩, [], [⟨[waiting], true⟩], false⟩ [.resume true]
      ⟨⟨1, 0⟩, [], [⟨[waiting], true⟩], false⟩ :=
    .leave rfl rfl (.prefixAndSwitchTo (j := 0) (t := ⟨[waiting], true⟩) rfl)
  have hrun := reentered_seen.step ⟨hresume, rfl⟩
  change Run reentered (seen ++ [.resume true, .enter 1])
    ⟨⟨1, 0⟩, [], [⟨[waiting], true⟩], false⟩ at hrun
  have hcount := h reentered 1 s _ _ reentered_wellFormed hs hrun 1 hlabel
  revert hcount
  decide

end MultiMLton.Ssa.Multi
