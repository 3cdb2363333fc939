import MultiMLton.Ssa.Control
import MultiMLton.Ssa.MultiClosed

/-!
# What is seen once

What holds along the runs of a program whose marks are `Closed`, apart from where control is.

* `Hot.move`: from the first copy on that may be resumed, all that control may still get to is shared;
* `Past.enter`, `Past.call`: before it, what is to be seen once is seen for the first time.
-/

namespace MultiMLton.Ssa.Multi

open Control Relation List Bool

variable {P : Program} {Γ : Var → Ty} {s : Info} {τ es : List Event} {σ σ' : State} {b : Block}
  {l : Label}

/-! ### Events -/

/-- The event is to be seen once. -/
def Cold (s : Info) : Event → Prop
  | .call f => s.top (.multiUsedFunc f) = false
  | .enter l => s.top (.multiUsedLabel l) = false
  | .bind x => s.top (.multiUsedVar x) = false
  | .resume _ => False

def Once (s : Info) (τ : List Event) : Prop := ∀ e, Cold s e → τ.count e ≤ 1

theorem Once.append (h : Once s τ) (hcold : ∀ e ∈ es, Cold s e → e ∉ τ) (hes : es.Nodup) :
    Once s (τ ++ es) := by
  intro e he
  rw [count_append]
  by_cases hmem : e ∈ es
  · rw [count_eq_zero_of_not_mem (hcold e hmem he), Nat.zero_add]
    exact nodup_iff_count_le_one.1 hes e
  · rw [count_eq_zero_of_not_mem hmem, Nat.add_zero]
    exact h e he

theorem Once.append_hot (h : Once s τ) (hhot : ∀ e ∈ es, ¬Cold s e) : Once s (τ ++ es) := by
  intro e he
  rw [count_append, count_eq_zero_of_not_mem fun hmem => hhot e hmem he, Nat.add_zero]
  exact h e he

/-- What is seen where control arrives in a block. -/
theorem mem_arrival {i : ℕ} {e : Event} (he : e ∈ arrival b i) :
    e = .enter b.label ∨ ∃ x ∈ b.formals ++ b.binds, e = .bind x := by
  cases i with
  | zero =>
    rcases mem_cons.1 he with rfl | he
    · exact .inl rfl
    · obtain ⟨x, hx, rfl⟩ := mem_map.1 he
      exact .inr ⟨x, mem_append_left _ hx, rfl⟩
  | succ i =>
    obtain ⟨x, hx, rfl⟩ := mem_map.1 he
    obtain ⟨st, hst, hx⟩ := Option.bind_eq_some_iff.1 (Option.mem_toList.1 hx)
    exact .inr ⟨x, mem_append_right _
      (mem_filterMap.2 ⟨st, mem_of_getElem? hst, hx⟩), rfl⟩

/-- Behind a label that is used more than once, nothing is to be seen once. -/
theorem Closed.arrival_hot (hs : Closed P s) (hb : b ∈ P.blocks)
    (hl : s.top (.multiUsedLabel b.label) = true) {i : ℕ} : ∀ e ∈ arrival b i, ¬Cold s e := by
  intro e he
  rcases mem_arrival he with rfl | ⟨x, hx, rfl⟩
  · simp [Cold, hl]
  · simp [Cold, (hs.follows _ hl b hb rfl).1 x hx]

/-! ### From the first copy on -/

/-- What the frame leads to is shared. -/
structure HotFrame (s : Info) (fr : Frame) : Prop where
  cont : ∀ p, fr.cont = some p → s.top (.multiThreadedLabel p.label) = true
  handler : ∀ l, fr.handler = .handle l → s.top (.multiThreadedLabel l) = true

/-- What control may still get to is shared, apart from early copies. -/
structure Hot (s : Info) (σ : State) : Prop where
  label : s.top (.multiThreadedLabel σ.point.label) = true
  frames : ∀ fr ∈ σ.frames, HotFrame s fr
  threads : ∀ t ∈ σ.threads, t.early = false → ∀ fr ∈ t.frames, HotFrame s fr

theorem Closed.arrival_threaded (hs : Closed P s) (hb : b ∈ P.blocks)
    (hl : s.top (.multiThreadedLabel b.label) = true) {i : ℕ} : ∀ e ∈ arrival b i, ¬Cold s e :=
  hs.arrival_hot hb (hs.follows _ hl b hb rfl).1

/-- A raise leads to the handler of a frame. -/
theorem unwind_drop {frames frames' : List Frame} (h : unwind frames = some (l, frames')) :
    ∃ k fr, frames.drop k = fr :: frames' ∧ fr.handler = .handle l := by
  induction frames with
  | nil => cases h
  | cons fr frames ih =>
    rw [unwind] at h
    cases hhandler : fr.handler with
    | caller =>
      rw [hhandler] at h
      obtain ⟨k, fr', hdrop, hl⟩ := ih h
      exact ⟨k + 1, fr', hdrop, hl⟩
    | dead =>
      rw [hhandler] at h
      cases h
    | handle l' =>
      rw [hhandler] at h
      cases h
      exact ⟨0, fr, rfl, hhandler⟩

/-- A statement that goes on leaves hot threads. -/
theorem Hot.keeps (h : Hot s σ) {eff : Effect} {threads : List Thread}
    (hkeeps : Keeps σ eff threads) :
    ∀ t ∈ threads, t.early = false → ∀ fr ∈ t.frames, HotFrame s fr := by
  intro t ht hearly fr hfr
  cases hkeeps with
  | none => exact h.threads t ht hearly fr hfr
  | copy hmem =>
    rcases mem_append.1 ht with ht | ht
    · exact h.threads t ht hearly fr hfr
    · obtain rfl := mem_singleton.1 ht
      exact h.threads t (mem_of_getElem? hmem) hearly fr hfr
  | copyParasite k =>
    rcases mem_append.1 ht with ht | ht
    · exact h.threads t ht hearly fr hfr
    · obtain rfl := mem_singleton.1 ht
      exact h.frames fr (mem_of_mem_take hfr)
  | extractParasite hmem k =>
    rcases mem_append.1 ht with ht | ht
    · rcases mem_or_eq_of_mem_set ht with ht | rfl
      · exact h.threads t ht hearly fr hfr
      · exact h.threads _ (mem_of_getElem? hmem) hearly fr (mem_of_mem_drop hfr)
    · obtain rfl := mem_singleton.1 ht
      exact h.threads _ (mem_of_getElem? hmem) hearly fr (mem_of_mem_take hfr)

/-- What a statement resumes is hot, if it is no early copy. -/
theorem Hot.leaves (h : Hot s σ) {eff : Effect} {frames : List Frame} {threads : List Thread}
    (hleaves : Leaves σ eff es frames threads) (hes : Event.resume true ∉ es) :
    (∀ fr ∈ frames, HotFrame s fr) ∧
      (∀ t ∈ threads, t.early = false → ∀ fr ∈ t.frames, HotFrame s fr) ∧ ∀ e ∈ es, ¬Cold s e := by
  have hearly {t : Thread} (hes : Event.resume true ∉ [Event.resume t.early]) : t.early = false := by
    refine eq_false_iff.2 fun hearly => hes ?_
    rw [hearly]
    exact mem_cons_self
  cases hleaves with
  | @switchTo j t ht =>
    refine ⟨h.threads t (mem_of_getElem? ht) (hearly hes), fun t' ht' hearly' fr hfr => ?_,
      by simp [Cold]⟩
    rcases mem_append.1 ht' with ht' | ht'
    · exact h.threads t' (mem_of_mem_eraseIdx ht') hearly' fr hfr
    · obtain rfl := mem_singleton.1 ht'
      rcases mem_cons.1 hfr with rfl | hfr
      · exact ⟨fun p hp => by cases hp; exact h.label, nofun⟩
      · exact h.frames fr hfr
  | jumpDown k => exact ⟨fun fr hfr => h.frames fr (mem_of_mem_drop hfr), h.threads, nofun⟩
  | @prefixAndSwitchTo j t ht =>
    refine ⟨fun fr hfr => ?_, h.threads, by simp [Cold]⟩
    rcases mem_append.1 hfr with hfr | hfr
    · exact h.threads t (mem_of_getElem? ht) (hearly hes) fr hfr
    · exact h.frames fr hfr

theorem jumps_subset (t : Transfer) : jumps t ⊆ t.labels := by
  intro l hl
  cases t with
  | runtime p args l' =>
    rw [jumps] at hl
    split_ifs at hl
    · cases hl
    · exact hl
  | call => cases hl
  | _ => exact hl

/-- A frame of a call waits with the labels of the call. -/
theorem mem_push {r : Return} {frames : List Frame} {fr : Frame} (h : fr ∈ push r frames) :
    fr ∈ frames ∨ (∀ p, fr.cont = some p → p.index = 0 ∧ p.label ∈ r.labels) ∧
      ∀ l, fr.handler = .handle l → l ∈ r.labels := by
  cases r with
  | dead =>
    rcases mem_cons.1 h with rfl | h
    · exact .inr ⟨nofun, nofun⟩
    · exact .inl h
  | nonTail cont handler =>
    rcases mem_cons.1 h with rfl | h
    · refine .inr ⟨fun p hp => ?_, fun l hl => ?_⟩
      · cases hp
        exact ⟨rfl, mem_cons_self⟩
      · dsimp only at hl
        subst hl
        exact mem_cons_of_mem _ mem_cons_self
    · exact .inl h
  | tail => exact .inl h

theorem Hot.move (hP : P.WellTyped Γ) (hs : Closed P s) (huses : usesThreadsOrConts P = true)
    (h : Hot s σ) (hmove : Move P σ es σ') (hes : Event.resume true ∉ es) :
    Hot s σ' ∧ ∀ e ∈ es, ¬Cold s e := by
  have hlabels {b : Block} (hb : P.block? σ.point.label = some b) :
      ∀ l ∈ b.transfer.labels, s.top (.multiThreadedLabel l) = true := by
    obtain ⟨hb, hl⟩ := (Program.block?_eq_some hP).1 hb
    exact hs.spreads _ h.label b hb hl
  cases hmove with
  | next hb hst hkeeps => exact ⟨⟨h.label, h.frames, h.keeps hkeeps⟩, nofun⟩
  | leave hb hst hleaves =>
    obtain ⟨hframes, hthreads, hcold⟩ := h.leaves hleaves hes
    exact ⟨⟨(hframes _ mem_cons_self).cont _ rfl,
      fun fr hfr => hframes fr (mem_cons_of_mem _ hfr), hthreads⟩, hcold⟩
  | jump hb hend hl => exact ⟨⟨hlabels hb _ (jumps_subset _ hl), h.frames, h.threads⟩, nofun⟩
  | @call b n args r f hb hend ht hf =>
    obtain ⟨hbP, hl⟩ := (Program.block?_eq_some hP).1 hb
    obtain ⟨hfP, rfl⟩ := (Program.func?_eq_some hP).1 hf
    have hthreaded := (hs.follows _ h.label b hbP hl).2 f.name (by simp [ht, Transfer.funcs])
    have hdone := hs.threadedFunc huses f hfP hthreaded
    obtain ⟨b', hb', hstart, -⟩ := hP.exists_start hfP
    refine ⟨⟨hstart ▸ hdone.2 b' hb', fun fr hfr => ?_, h.threads⟩, fun e he => ?_⟩
    · rcases mem_push hfr with hfr | ⟨hcont, hhandler⟩
      · exact h.frames fr hfr
      · have hlabels := hlabels hb
        rw [ht] at hlabels
        exact ⟨fun p hp => hlabels _ (hcont p hp).2, fun l hl => hlabels _ (hhandler l hl)⟩
    · rcases mem_cons.1 he with rfl | he
      · have hused : s.top (.multiUsedFunc f.name) = true := hs.follows _ hthreaded
        simp [Cold, hused]
      · obtain ⟨x, hx, rfl⟩ := mem_map.1 he
        simp [Cold, hdone.1 x hx]
  | ret hb hend ht hframes =>
    have h' := h.frames
    rw [hframes] at h'
    exact ⟨⟨(h' _ mem_cons_self).cont _ rfl, fun fr hfr => h' fr (mem_cons_of_mem _ hfr),
      h.threads⟩, nofun⟩
  | raise hb hend ht hunwind =>
    obtain ⟨k, fr, hdrop, hl⟩ := unwind_drop hunwind
    have h' (fr : Frame) (hfr : fr ∈ σ.frames.drop k) := h.frames fr (mem_of_mem_drop hfr)
    rw [hdrop] at h'
    exact ⟨⟨(h' fr mem_cons_self).handler _ hl,
      fun fr hfr => h' fr (mem_cons_of_mem _ hfr), h.threads⟩, nofun⟩
  | @copyCurrent b p args l hb hend ht hp =>
    have hl := hlabels hb l (by simp [ht, Transfer.labels])
    refine ⟨⟨hl, h.frames, fun t ht hearly fr hfr => ?_⟩, nofun⟩
    rcases mem_append.1 ht with ht | ht
    · exact h.threads t ht hearly fr hfr
    · obtain rfl := mem_singleton.1 ht
      rcases mem_cons.1 hfr with rfl | hfr
      · exact ⟨fun p hp => by cases hp; exact hl, fun l hl => by cases hl⟩
      · exact h.frames fr hfr

/-! ### What has been seen -/

theorem two_le_count_flatMap {α β : Type} [DecidableEq β] {g : α → List β} {as : List α}
    {a a' : α} {x : β} (ha : a ∈ as) (ha' : a' ∈ as) (hne : a ≠ a') (hx : x ∈ g a) (hx' : x ∈ g a') :
    2 ≤ (as.flatMap g).count x := by
  induction as with
  | nil => cases ha
  | cons c as ih =>
    have hpos {a : α} (ha : a ∈ as) (hx : x ∈ g a) : 0 < (as.flatMap g).count x :=
      count_pos_iff.2 (mem_flatMap.2 ⟨a, ha, hx⟩)
    rw [flatMap_cons, count_append]
    rcases mem_cons.1 ha with rfl | hmem
    · have hhead : 0 < (g a).count x := count_pos_iff.2 hx
      have htail := hpos ((mem_cons.1 ha').resolve_left fun h => hne h.symm) hx'
      omega
    · rcases mem_cons.1 ha' with rfl | hmem'
      · have hhead : 0 < (g a').count x := count_pos_iff.2 hx'
        have htail := hpos hmem hx
        omega
      · have := ih hmem hmem'
        omega

variable {f : Function} {n : Func}

/-- A call is one of a function of the program. -/
theorem exists_func (hP : P.WellTyped Γ) (hb : b ∈ P.blocks) (hn : n ∈ b.transfer.funcs) :
    ∃ f ∈ P.functions, f.name = n := by
  obtain ⟨f, hf, hb⟩ := Program.mem_blocks.1 hb
  have htyped := (hP.functions f hf).transfers b hb
  cases ht : b.transfer with
  | call n' args r =>
    rw [ht] at htyped hn
    obtain rfl := mem_singleton.1 hn
    obtain ⟨g, hg, -⟩ := htyped
    exact ⟨g, (Program.func?_eq_some hP).1 hg⟩
  | _ =>
    rw [ht] at hn
    cases hn

/-- An argument is one of one function. -/
theorem args_unique (hP : P.WellTyped Γ) {f' : Function} (hf : f ∈ P.functions)
    (hf' : f' ∈ P.functions) {x : Var} (hx : x ∈ f.args.map Prod.fst)
    (hx' : x ∈ f'.args.map Prod.fst) : f = f' := by
  have hdefs := ((Program.defs_perm P).nodup_iff.1 hP.defs)
  exact Program.eq_of_mem_flatMap (nodup_append.1 hdefs).2.1 hf hf'
    (mem_append_left _ hx) (mem_append_left _ hx')

variable (P s τ) in
/-- What has been seen once has been seen for a reason. -/
structure Past : Prop where
  once : Once s τ
  called : ∀ n, s.top (.multiUsedFunc n) = false → .call n ∈ τ →
    n = P.main ∨ ∃ c ∈ P.blocks, n ∈ c.transfer.funcs ∧ .enter c.label ∈ τ
  entered : ∀ f ∈ P.functions, ∀ b ∈ f.blocks, .enter b.label ∈ τ → .call f.name ∈ τ
  bound : ∀ x, .bind x ∈ τ → x ∈ P.globalVars ∨
    (∃ f ∈ P.functions, x ∈ f.args.map Prod.fst ∧ .call f.name ∈ τ) ∨
      ∃ b ∈ P.blocks, (x ∈ b.formals ∨ x ∈ b.binds) ∧ .enter b.label ∈ τ

variable (s τ b) in
/-- What comes in a block behind statement `i` has not been seen. -/
structure Fresh (i : ℕ) : Prop where
  funcs : ∀ n ∈ b.transfer.funcs, s.top (.multiUsedFunc n) = false → .call n ∉ τ
  binds : ∀ x ∈ (b.statements.drop i).filterMap Statement.var,
    s.top (.multiUsedVar x) = false → .bind x ∉ τ

/-- What a block binds has been seen in the block only. -/
theorem Past.bound_block (hP : P.WellTyped Γ) (h : Past P s τ) (hb : b ∈ P.blocks) {x : Var}
    (hx : x ∈ b.formals ∨ x ∈ b.binds) (hmem : .bind x ∈ τ) : .enter b.label ∈ τ := by
  rcases h.bound x hmem with hg | ⟨f, hf, hxf, -⟩ | ⟨b', hb', hx', hl⟩
  · exact absurd hg (hP.notMem_globalVars hb hx)
  · exact absurd hxf (hP.notMem_args hb hx hf)
  · rwa [hP.bound_unique hb hb' hx hx']

theorem bind_mem_arrival {x : Var} (h : .bind x ∈ arrival b 0) : x ∈ b.formals := by
  rcases mem_cons.1 h with h | h
  · cases h
  · obtain ⟨y, hy, hyx⟩ := mem_map.1 h
    cases hyx
    exact hy

/-- A block is entered, for the first time if it is to be entered once. -/
theorem Past.enter (hP : P.WellTyped Γ) (hs : Closed P s) (h : Past P s τ) (hf : f ∈ P.functions)
    (hb : b ∈ f.blocks) (hcalled : .call f.name ∈ τ)
    (hnew : s.top (.multiUsedLabel b.label) = false → .enter b.label ∉ τ) :
    Past P s (τ ++ arrival b 0) ∧ Fresh s (τ ++ arrival b 0) b 0 := by
  have hbP := Program.mem_blocks.2 ⟨f, hf, hb⟩
  have hcall {n : Func} (hn : .call n ∈ τ ++ arrival b 0) : .call n ∈ τ := by
    refine (mem_append.1 hn).resolve_right fun hn => ?_
    rcases mem_arrival hn with hn | ⟨x, -, hn⟩ <;> cases hn
  have hhere : .enter b.label ∈ τ ++ arrival b 0 := mem_append_right _ mem_cons_self
  refine ⟨⟨?_, fun n hcold hn => ?_, fun f' hf' b' hb' hl => ?_, fun x hx => ?_⟩,
    fun n hn hcold hmem => ?_, fun x hx hcold hmem => ?_⟩
  · by_cases hl : s.top (.multiUsedLabel b.label) = true
    · exact h.once.append_hot (hs.arrival_hot hbP hl)
    · rw [not_eq_true] at hl
      refine h.once.append (fun e he hcold hmem => ?_) ?_
      · rcases mem_cons.1 he with rfl | he
        · exact hnew hl hmem
        · obtain ⟨x, hx, rfl⟩ := mem_map.1 he
          exact hnew hl (h.bound_block hP hbP (.inl hx) hmem)
      · refine nodup_cons.2 ⟨fun hmem => ?_, ?_⟩
        · obtain ⟨x, -, hx⟩ := mem_map.1 hmem
          cases hx
        · exact (Program.formals_nodup hP (Program.formals_mem_formalLists hf hb)).map
            fun x y hxy => by cases hxy; rfl
  · rcases h.called n hcold (hcall hn) with hmain | ⟨c, hc, hnc, hl⟩
    · exact .inl hmain
    · exact .inr ⟨c, hc, hnc, mem_append_left _ hl⟩
  · rcases mem_append.1 hl with hl | hl
    · exact mem_append_left _ (h.entered f' hf' b' hb' hl)
    · rcases mem_arrival hl with hl | ⟨x, -, hx⟩
      · have hlabel : b'.label = b.label := by simpa using hl
        rw [hP.function_unique hf' hf hb' hb hlabel]
        exact mem_append_left _ hcalled
      · cases hx
  · rcases mem_append.1 hx with hx | hx
    · rcases h.bound x hx with hg | ⟨f', hf', hxf, hcall⟩ | ⟨b', hb', hx', hl⟩
      · exact .inl hg
      · exact .inr (.inl ⟨f', hf', hxf, mem_append_left _ hcall⟩)
      · exact .inr (.inr ⟨b', hb', hx', mem_append_left _ hl⟩)
    · exact .inr (.inr ⟨b, hbP, .inl (bind_mem_arrival hx), hhere⟩)
  -- a second call would make the function one that is called more than once
  · have hl : s.top (.multiUsedLabel b.label) = false := by
      refine eq_false_iff.2 fun hl => ?_
      rw [(hs.follows _ hl b hbP rfl).2 n hn] at hcold
      cases hcold
    obtain ⟨g, hg, rfl⟩ := exists_func hP hbP hn
    have hcount : ¬2 ≤ (sites P).count g.name := fun hcount => by
      rw [hs.many g hg hcount] at hcold
      cases hcold
    rcases h.called g.name hcold (hcall hmem) with hmain | ⟨c, hc, hnc, hlc⟩
    · have hpos : 0 < (P.blocks.flatMap fun b => b.transfer.funcs).count g.name :=
        count_pos_iff.2 (mem_flatMap.2 ⟨b, hbP, hn⟩)
      rw [sites, ← hmain, count_cons_self] at hcount
      omega
    · have hne : b ≠ c := fun heq => hnew hl (heq ▸ hlc)
      have htwo := two_le_count_flatMap (g := fun b : Block => b.transfer.funcs) hbP hc hne hn hnc
      exact hcount (htwo.trans count_le_count_cons)
  · have hl : s.top (.multiUsedLabel b.label) = false := by
      refine eq_false_iff.2 fun hl => ?_
      rw [(hs.follows _ hl b hbP rfl).1 x (mem_append_right _ hx)] at hcold
      cases hcold
    rcases mem_append.1 hmem with hmem | hmem
    · exact hnew hl (h.bound_block hP hbP (.inr hx) hmem)
    · exact hP.formals_disjoint_binds hbP (bind_mem_arrival hmem) hx

theorem enter_notMem_call {xs : List Var} : .enter l ∉ Event.call n :: xs.map .bind := by
  intro h
  rcases mem_cons.1 h with h | h
  · cases h
  · obtain ⟨x, -, hx⟩ := mem_map.1 h
    cases hx

/-- A function is called, for the first time if it is to be called once. -/
theorem Past.call (hP : P.WellTyped Γ) (hs : Closed P s) (h : Past P s τ) (hf : f ∈ P.functions)
    (hnew : s.top (.multiUsedFunc f.name) = false → .call f.name ∉ τ)
    (hsite : f.name = P.main ∨ ∃ c ∈ P.blocks, f.name ∈ c.transfer.funcs ∧ .enter c.label ∈ τ) :
    Past P s (τ ++ .call f.name :: (f.args.map Prod.fst).map .bind) := by
  have henter {l : Label} (hl : .enter l ∈ τ ++ .call f.name :: (f.args.map Prod.fst).map .bind) :
      .enter l ∈ τ := (mem_append.1 hl).resolve_right enter_notMem_call
  have hhere : .call f.name ∈ τ ++ .call f.name :: (f.args.map Prod.fst).map .bind :=
    mem_append_right _ mem_cons_self
  refine ⟨?_, fun n hcold hn => ?_, fun f' hf' b' hb' hl => ?_, fun x hx => ?_⟩
  · by_cases hused : s.top (.multiUsedFunc f.name) = true
    · refine h.once.append_hot fun e he => ?_
      rcases mem_cons.1 he with rfl | he
      · simp [Cold, hused]
      · obtain ⟨x, hx, rfl⟩ := mem_map.1 he
        simp [Cold, (hs.usedFunc f hf hused).1 x hx]
    · rw [not_eq_true] at hused
      refine h.once.append (fun e he hcold hmem => ?_) ?_
      · rcases mem_cons.1 he with rfl | he
        · exact hnew hused hmem
        · obtain ⟨x, hx, rfl⟩ := mem_map.1 he
          rcases h.bound x hmem with hg | ⟨f', hf', hxf, hcall⟩ | ⟨b', hb', hx', -⟩
          · obtain ⟨st, hst, hvar⟩ := mem_filterMap.1 hg
            exact Program.notMem_formals_of_global hP hst hvar (Program.args_mem_formalLists hf) hx
          · rw [args_unique hP hf' hf hxf hx] at hcall
            exact hnew hused hcall
          · exact hP.notMem_args hb' hx' hf hx
      · refine nodup_cons.2 ⟨fun hmem => ?_, ?_⟩
        · obtain ⟨x, -, hx⟩ := mem_map.1 hmem
          cases hx
        · exact (Program.formals_nodup hP (Program.args_mem_formalLists hf)).map
            fun x y hxy => by cases hxy; rfl
  · rcases mem_append.1 hn with hn | hn
    · rcases h.called n hcold hn with hmain | ⟨c, hc, hnc, hl⟩
      · exact .inl hmain
      · exact .inr ⟨c, hc, hnc, mem_append_left _ hl⟩
    · rcases mem_cons.1 hn with hn | hn
      · cases hn
        exact hsite.imp_right fun ⟨c, hc, hnc, hl⟩ => ⟨c, hc, hnc, mem_append_left _ hl⟩
      · obtain ⟨x, -, hx⟩ := mem_map.1 hn
        cases hx
  · exact mem_append_left _ (h.entered f' hf' b' hb' (henter hl))
  · rcases mem_append.1 hx with hx | hx
    · rcases h.bound x hx with hg | ⟨f', hf', hxf, hcall⟩ | ⟨b', hb', hx', hl⟩
      · exact .inl hg
      · exact .inr (.inl ⟨f', hf', hxf, mem_append_left _ hcall⟩)
      · exact .inr (.inr ⟨b', hb', hx', mem_append_left _ hl⟩)
    · rcases mem_cons.1 hx with hx | hx
      · cases hx
      · obtain ⟨y, hy, hyx⟩ := mem_map.1 hx
        cases hyx
        exact .inr (.inl ⟨f, hf, hy, hhere⟩)

end MultiMLton.Ssa.Multi
