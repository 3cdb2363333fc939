import MultiMLton.Backend.LivePaths

/-!
# Liveness is exact along the reported flow

* `processVar_spec`, `processVars_spec`: a variable is added to the nodes that reach a use of it;
* `handlerLink_spec`: a slot is live at the nodes that reach a use of it before a definition;
* `Follows.reaches_iff`: the nodes of a block reach a use if its points are live;
* `live_exact`: the analysis succeeds and is exact along the flow it uses;
* `cont_reports_handler`: along the flow of control it is not, since a continuation reports what is
  live in its handler.
-/

namespace MultiMLton.Backend

open Lib Rssa
open List (foldl_cons map_cons mem_append mem_cons mem_cons_of_mem mem_cons_self mem_map
  not_mem_nil)

namespace Live

variable {F L V ν : Type} [DecidableEq V] [DecidableEq L]

/-! ### Variables -/

section

variable {fuel : ℕ} {s s' : State V L} {x y : V} {xs : List V} {n d : Node L} {U : Finset (Node L)}

/-- The nodes to which a variable is propagated: those that reach a use of it, up to its
definition. -/
def Propagated (preds : Node L → List (Node L)) (used : List (Node L)) (d : Node L) :
    Node L → Prop :=
  Reaches preds (fun b => decide (b = d)) fun b => b ∈ used ∧ decide (b = d) = false

omit [DecidableEq V] in
/-- What the marks for a variable preserve. -/
theorem OnlyMarks.update {live₀ live : Node L → List V}
    (h : ∀ n, (x ∈ live n → (live n).getLast? = some x) ∧
      ∀ y, y ≠ x → (y ∈ live n ↔ y ∈ live₀ n)) (b n : Node L) :
    (x ∈ Function.update live b (live b ++ [x]) n →
        (Function.update live b (live b ++ [x]) n).getLast? = some x) ∧
      ∀ y, y ≠ x → (y ∈ Function.update live b (live b ++ [x]) n ↔ y ∈ live₀ n) := by
  by_cases hn : n = b
  · subst hn
    rw [Function.update_self]
    refine ⟨fun _ => by simp, fun y hy => ?_⟩
    rw [mem_append, (h n).2 y hy, List.mem_singleton, or_iff_left hy]
  · rw [Function.update_of_ne hn]
    exact h n

/-- Processing a variable adds it to the nodes that reach a use, and changes nothing else. -/
theorem processVar_spec (hdefined : s.defined x = some d) (hlive : ∀ n, x ∉ s.live n)
    (hpreds : ∀ m, ∀ n ∈ s.preds m, n ∈ U) (hused : ∀ n ∈ s.used x, n ∈ U)
    (hfuel : U.card ≤ fuel) :
    ∃ live, processVar fuel s x = some { s with live := live } ∧
      ∀ n y, y ∈ live n ↔ y ∈ s.live n ∨ (y = x ∧ Propagated s.preds (s.used x) d n) := by
  have hseen : ∀ n, (varMarking (L := L) x).seen s.live n = false := by
    intro n
    simp only [varMarking, decide_eq_false_iff_not]
    intro hlast
    exact hlive n (List.mem_of_getLast? hlast)
  let stop b := decide (b = d)
  have hinv : Marking.Inv (varMarking x) s.preds stop (fun b => b ∈ s.used x ∧ stop b = false)
      ((s.used x).foldl ((varMarking x).consider stop ()) (s.live, [])) :=
    Marking.Inv.start hseen
  have hbound := (varMarking x).unseen_foldl stop () hused (s.live, [])
  have hcard : ((varMarking x).unseen U s.live).card ≤ U.card :=
    Finset.card_le_card (Finset.filter_subset _ _)
  have hsome := (varMarking x).propagate_isSome stop hpreds (hbound.trans (by
    simp only [List.length_nil]
    exact (Nat.zero_add _).trans_le (hcard.trans hfuel)))
  obtain ⟨live, hrun⟩ := Option.isSome_iff_exists.mp hsome
  have hprocess : processVar fuel s x = some { s with live := live } := by
    have hbind : processVar fuel s x = ((varMarking x).propagate s.preds stop fuel
        ((s.used x).foldl ((varMarking x).consider stop ()) (s.live, []))).bind fun live =>
          some { s with live := live } := by
      rw [processVar, hdefined]
      rfl
    rw [hbind, hrun]
    rfl
  refine ⟨live, hprocess, fun n y => ?_⟩
  let P : (Node L → List V) → Prop := fun live => ∀ n,
    (x ∈ live n → (live n).getLast? = some x) ∧ ∀ y, y ≠ x → (y ∈ live n ↔ y ∈ s.live n)
  have hP₀ : P s.live := fun n => ⟨fun hx => absurd hx (hlive n), fun y _ => Iff.rfl⟩
  have hP : ∀ live b a, decide (b = d) = false → (varMarking x).seen live b = false → P live →
      P ((varMarking x).mark live b a) := fun live b a _ _ h n => OnlyMarks.update h b n
  have hkeep := Marking.propagate_preserves P hP (Marking.foldl_preserves P hP hP₀) hrun n
  by_cases hy : y = x
  · subst hy
    have hmark := Marking.propagate_seen (n := n) hinv hrun
    simp only [varMarking, decide_eq_true_eq] at hmark
    have hmem : y ∈ live n ↔ (live n).getLast? = some y :=
      ⟨hkeep.1, List.mem_of_getLast?⟩
    rw [hmem, hmark]
    simp [hlive, Propagated, stop]
  · rw [hkeep.2 y hy]
    simp [hy]

/-- Processing several variables. -/
theorem processVars_spec (defined : V → Node L) (hnodup : xs.Nodup)
    (hdefined : ∀ x ∈ xs, s.defined x = some (defined x)) (hlive : ∀ x ∈ xs, ∀ n, x ∉ s.live n)
    (hpreds : ∀ m, ∀ n ∈ s.preds m, n ∈ U) (hused : ∀ x ∈ xs, ∀ n ∈ s.used x, n ∈ U)
    (hfuel : U.card ≤ fuel) :
    ∃ live, xs.foldlM (processVar fuel) s = some { s with live := live } ∧
      ∀ n y, y ∈ live n ↔
        y ∈ s.live n ∨ (y ∈ xs ∧ Propagated s.preds (s.used y) (defined y) n) := by
  induction xs generalizing s with
  | nil => exact ⟨s.live, rfl, fun n y => by simp⟩
  | cons x xs ih =>
    obtain ⟨live, hrun, hmem⟩ := processVar_spec (hdefined x mem_cons_self)
      (hlive x mem_cons_self) hpreds (hused x mem_cons_self) hfuel
    rw [List.nodup_cons] at hnodup
    obtain ⟨live', hrun', hmem'⟩ := ih (s := { s with live := live }) hnodup.2
      (fun y hy => hdefined y (mem_cons_of_mem x hy))
      (fun y hy n hn => by
        rcases (hmem n y).mp hn with hn | ⟨rfl, -⟩
        · exact hlive y (mem_cons_of_mem x hy) n hn
        · exact hnodup.1 hy)
      hpreds (fun y hy => hused y (mem_cons_of_mem x hy))
    refine ⟨live', by rw [List.foldlM_cons, hrun]; exact hrun', fun n y => ?_⟩
    rw [hmem' n y, hmem n y, mem_cons, or_assoc]
    refine or_congr_right ?_
    constructor
    · rintro (⟨rfl, hn⟩ | ⟨hy, hn⟩)
      · exact ⟨Or.inl rfl, hn⟩
      · exact ⟨Or.inr hy, hn⟩
    · rintro ⟨rfl | hy, hn⟩
      · exact Or.inl ⟨rfl, hn⟩
      · exact Or.inr ⟨hy, hn⟩

end

/-! ### Slots -/

section

variable {N α β : Type} [DecidableEq N] {es : List (DefUse α N)} {n : N}

/-- The accesses of one block: its node is first among the definitions from its first definition
on, so that the node is marked if a use comes before that. -/
theorem visitDefUse_block (st : List N × (N → Option α) × List (α × N))
    (hnode : ∀ e ∈ es, e.node = n) :
    (∀ m, m ∈ (es.foldl (fun st e => visitDefUse e st) st).1 ↔
      m ∈ st.1 ∨ (m = n ∧ .defn () ∈ es.map DefUse.access)) ∧
    ∀ m, ((es.foldl (fun st e => visitDefUse e st) st).2.1 m).isSome ↔ (st.2.1 m).isSome ∨
      (m = n ∧ st.1.head? ≠ some n ∧ Exposes () (es.map DefUse.access)) := by
  induction es generalizing st with
  | nil => simp [Exposes]
  | cons e es ih =>
    rw [foldl_cons, map_cons]
    obtain ⟨hdefs, hmarks⟩ := ih (visitDefUse e st)
      fun e he => hnode e (mem_cons_of_mem _ he)
    have hn := hnode e mem_cons_self
    cases e with
    | defn b =>
      rw [DefUse.node] at hn
      subst hn
      constructor
      · intro m
        rw [hdefs]
        simp only [visitDefUse, mem_cons, DefUse.access, true_or, and_true]
        tauto
      · intro m
        rw [hmarks]
        simp [visitDefUse, DefUse.access, Exposes]
    | use a b =>
      rw [DefUse.node] at hn
      subst hn
      by_cases hhead : st.1.head? = some b
      · rw [visitDefUse, if_pos hhead] at hdefs hmarks ⊢
        constructor
        · intro m
          rw [hdefs]
          simp [DefUse.access]
        · intro m
          rw [hmarks]
          simp [hhead]
      · rw [visitDefUse, if_neg hhead] at hdefs hmarks ⊢
        constructor
        · intro m
          rw [hdefs]
          simp [DefUse.access]
        · intro m
          rw [hmarks]
          by_cases hm : m = b
          · subst hm
            simp [hhead, DefUse.access, Exposes]
          · simp [hm]

/-- The accesses of several blocks with different nodes. -/
theorem visitDefUse_blocks {bs : List β} {ev : β → List (DefUse α N)} {node : β → N}
    (st : List N × (N → Option α) × List (α × N))
    (hnode : ∀ b ∈ bs, ∀ e ∈ ev b, e.node = node b) (hnodup : (bs.map node).Nodup)
    (hst : ∀ b ∈ bs, node b ∉ st.1) :
    (∀ m, m ∈ ((bs.flatMap ev).foldl (fun st e => visitDefUse e st) st).1 ↔
      m ∈ st.1 ∨ ∃ b ∈ bs, m = node b ∧ .defn () ∈ (ev b).map DefUse.access) ∧
    ∀ m, (((bs.flatMap ev).foldl (fun st e => visitDefUse e st) st).2.1 m).isSome ↔
      (st.2.1 m).isSome ∨ ∃ b ∈ bs, m = node b ∧ Exposes () ((ev b).map DefUse.access) := by
  induction bs generalizing st with
  | nil => simp
  | cons b bs ih =>
    rw [List.flatMap_cons, List.foldl_append]
    rw [map_cons, List.nodup_cons] at hnodup
    obtain ⟨hdefs, hmarks⟩ := visitDefUse_block st (hnode b mem_cons_self)
    obtain ⟨hdefs', hmarks'⟩ := ih ((ev b).foldl (fun st e => visitDefUse e st) st)
      (fun c hc => hnode c (mem_cons_of_mem b hc)) hnodup.2 (fun c hc hmem => by
        rcases (hdefs _).mp hmem with hmem | ⟨heq, -⟩
        · exact hst c (mem_cons_of_mem b hc) hmem
        · exact hnodup.1 (heq ▸ List.mem_map_of_mem hc))
    have hhead : st.1.head? ≠ some (node b) := fun h =>
      hst b mem_cons_self (List.mem_of_mem_head? h)
    constructor
    · intro m
      rw [hdefs', hdefs, List.exists_mem_cons_iff, or_assoc]
    · intro m
      rw [hmarks', hmarks, List.exists_mem_cons_iff, or_assoc]
      simp only [hhead, ne_eq, not_false_eq_true, true_and]

/-- What is marked is to do, and no more is to do than there are accesses. -/
theorem visitDefUse_todo (st : List N × (N → Option α) × List (α × N)) (es : List (DefUse α N))
    (h : ∀ m, (st.2.1 m).isSome ↔ ∃ a, (a, m) ∈ st.2.2) :
    (∀ m, ((es.foldl (fun st e => visitDefUse e st) st).2.1 m).isSome ↔
      ∃ a, (a, m) ∈ (es.foldl (fun st e => visitDefUse e st) st).2.2) ∧
    (es.foldl (fun st e => visitDefUse e st) st).2.2.length ≤ st.2.2.length + es.length := by
  induction es generalizing st with
  | nil => exact ⟨h, le_rfl⟩
  | cons e es ih =>
    have hstep : (∀ m, ((visitDefUse e st).2.1 m).isSome ↔ ∃ a, (a, m) ∈ (visitDefUse e st).2.2) ∧
        (visitDefUse e st).2.2.length ≤ st.2.2.length + 1 := by
      cases e with
      | defn b => exact ⟨h, Nat.le_succ _⟩
      | use a b =>
        unfold visitDefUse
        dsimp only
        split_ifs
        · exact ⟨h, Nat.le_succ _⟩
        · refine ⟨fun m => ?_, le_rfl⟩
          by_cases hm : m = b
          · subst hm
            simp only [Function.update_self, Option.isSome_some, true_iff]
            exact ⟨a, mem_cons_self⟩
          · simp [hm, h m]
    obtain ⟨htodo, hlen⟩ := ih _ hstep.1
    rw [foldl_cons, List.length_cons]
    exact ⟨htodo, by omega⟩

/-- A slot is live at the nodes that reach a use before a definition, up to those with
definitions. -/
theorem handlerLink_spec {bs : List β} {ev : β → List (DefUse α N)} {node : β → N}
    {preds : N → List N} {U : Finset N} {fuel : ℕ}
    (hnode : ∀ b ∈ bs, ∀ e ∈ ev b, e.node = node b) (hnodup : (bs.map node).Nodup)
    (hpreds : ∀ m, ∀ n ∈ preds m, n ∈ U) (hfuel : (bs.flatMap ev).length + U.card ≤ fuel) :
    ∃ sel stop, handlerLink fuel preds (bs.flatMap ev).reverse = some sel ∧
      (∀ n, stop n = true ↔ ∃ b ∈ bs, n = node b ∧ .defn () ∈ (ev b).map DefUse.access) ∧
      ∀ n, (sel n).isSome ↔ Reaches preds stop
        (fun n => ∃ b ∈ bs, n = node b ∧ Exposes () ((ev b).map DefUse.access)) n := by
  set st := (bs.flatMap ev).foldl (fun st e => visitDefUse e st) ([], (fun _ => none), [])
    with hst
  obtain ⟨hdefs, hmarks⟩ := visitDefUse_blocks ([], (fun _ => none), []) hnode hnodup
    fun b _ => not_mem_nil
  obtain ⟨htodo, hlen⟩ := visitDefUse_todo ([], (fun _ => none), []) (bs.flatMap ev)
    fun m => by simp
  rw [← hst] at hdefs hmarks htodo hlen
  simp only [not_mem_nil, false_or, Option.isSome_none, Bool.false_eq_true] at hdefs hmarks
  have hinv : Marking.Inv slotMarking preds (fun b => decide (b ∈ st.1))
      (fun n => ∃ b ∈ bs, n = node b ∧ Exposes () ((ev b).map DefUse.access)) st.2 := by
    refine ⟨fun n hn => Reaches.seed ((hmarks n).mp hn), fun n => (hmarks n).mpr, ?_, ?_⟩
    · exact fun x hx => (htodo x.2).mpr ⟨x.1, hx⟩
    · exact fun m hm => Or.inl ((htodo m).mp hm)
  have hcard : (slotMarking.unseen U st.2.1).card ≤ U.card :=
    Finset.card_le_card (Finset.filter_subset _ _)
  have hsome := slotMarking.propagate_isSome (fun b => decide (b ∈ st.1)) hpreds
    (show st.2.2.length + (slotMarking.unseen U st.2.1).card ≤ fuel by
      simp only [List.length_nil] at hlen
      omega)
  obtain ⟨sel, hrun⟩ := Option.isSome_iff_exists.mp hsome
  refine ⟨sel, fun b => decide (b ∈ st.1), ?_, fun n => ?_, fun n => ?_⟩
  · rw [handlerLink, List.foldr_reverse]
    exact hrun
  · rw [decide_eq_true_eq, hdefs]
  · exact Marking.propagate_seen hinv hrun

end

/-! ### Nodes and points -/

section

variable {f : Function F L V ν} {b b' : Block F L V ν} {shouldConsider : V → Bool} {β : Type}
  {formals : Block F L V ν → List β} {accesses : Block F L V ν → List (Access β)} {y : β}
  {preds : Node L → List (Node L)} {stop : Node L → Bool} {n : Node L}

omit [DecidableEq V] [DecidableEq L] in
theorem Ssa.block_eq (hf : Ssa f shouldConsider) (hb : b ∈ f.blocks) (hb' : b' ∈ f.blocks)
    (h : b.label = b'.label) : b = b' :=
  List.inj_on_of_nodup_map hf.labels_nodup hb hb' h

/-- The predecessors of the nodes, and where propagation stops. -/
structure Follows (f : Function F L V ν) (preds : Node L → List (Node L)) (stop : Node L → Bool)
    (formals : Block F L V ν → List β) (accesses : Block F L V ν → List (Access β)) (y : β) :
    Prop where
  preds_spec : ∀ n m, n ∈ preds m ↔
    (∃ b ∈ f.blocks, b.args ≠ [] ∧ n = .formals b.label ∧ m = .body b.label) ∨
      ∃ b ∈ f.blocks, n = .body b.label ∧ ∃ l ∈ reportedFlow f b,
        ∃ b', block? f l = some b' ∧ m = argInfo b'
  stop_body : ∀ b ∈ f.blocks, stop (.body b.label) = true ↔ .defn y ∈ accesses b
  stop_formals : ∀ b ∈ f.blocks, b.args ≠ [] → (stop (.formals b.label) = true ↔ y ∈ formals b)
  no_formals : ∀ b ∈ f.blocks, b.args = [] → y ∉ formals b

/-- The point of a node. -/
def LiveNode (f : Function F L V ν) (formals : Block F L V ν → List β)
    (accesses : Block F L V ν → List (Access β)) (y : β) : Node L → Prop
  | .head => False
  | .formals l => LiveAt f (reportedFlow f) formals accesses y (.entry l)
  | .body l => LiveAt f (reportedFlow f) formals accesses y (.begin l)

variable (f accesses y) in
/-- The nodes of the blocks that use `y` first. -/
def Seed (n : Node L) : Prop := ∃ b ∈ f.blocks, n = .body b.label ∧ Exposes y (accesses b)

omit [DecidableEq V] in
theorem Follows.liveNode (h : Follows f preds stop formals accesses y)
    (hreach : Reaches preds stop (Seed f accesses y) n) : LiveNode f formals accesses y n := by
  induction hreach with
  | seed hseed =>
    obtain ⟨b, hb, rfl, hexposes⟩ := hseed
    exact LiveAt.use hb hexposes
  | @step m n _ hmem hstop ih =>
    rcases (h.preds_spec n m).mp hmem with
      ⟨b, hb, hargs, rfl, rfl⟩ | ⟨b, hb, rfl, l, hl, b', hblock, rfl⟩
    · refine LiveAt.bind hb ?_ ih
      rw [← h.stop_formals b hb hargs, hstop]
      exact Bool.false_ne_true
    · obtain ⟨hb', rfl⟩ := block?_spec hblock
      refine LiveAt.pass hb ?_ hl ?_
      · rw [← h.stop_body b hb, hstop]
        exact Bool.false_ne_true
      · unfold argInfo at ih
        split_ifs at ih with hargs
        · exact LiveAt.bind hb' (h.no_formals b' hb' (List.isEmpty_iff.mp hargs)) ih
        · exact ih

omit [DecidableEq V] in
theorem reportedFlow_mem (hf : Ssa f shouldConsider) (hb : b ∈ f.blocks) {l : L}
    (hl : l ∈ reportedFlow f b) : l ∈ f.labels := by
  apply hf.labels_mem b hb
  rcases mem_append.mp hl with hl | hl
  · exact List.mem_append_left _ (List.mem_of_mem_filter hl)
  · exact List.mem_append_right _ hl

omit [DecidableEq V] in
/-- The nodes of a point reach a use. -/
theorem Follows.reaches (h : Follows f preds stop formals accesses y) (hf : Ssa f shouldConsider)
    {p : Point L} (hlive : LiveAt f (reportedFlow f) formals accesses y p) :
    match p with
    | .begin l => Reaches preds stop (Seed f accesses y) (.body l)
    | .entry l => ∀ b ∈ f.blocks, b.label = l →
      Reaches preds stop (Seed f accesses y) (argInfo b) := by
  induction hlive with
  | @use b hb hexposes => exact Reaches.seed ⟨b, hb, rfl, hexposes⟩
  | @pass b l hb hdefn hl _ ih =>
    obtain ⟨b', hblock⟩ := exists_block? (reportedFlow_mem hf hb hl)
    obtain ⟨hb', hlabel⟩ := block?_spec hblock
    refine Reaches.step (ih b' hb' hlabel) ?_ ?_
    · exact (h.preds_spec _ _).mpr (Or.inr ⟨b, hb, rfl, l, hl, b', hblock, rfl⟩)
    · rw [← h.stop_body b hb] at hdefn
      exact Bool.eq_false_iff.mpr hdefn
  | @bind b hb hy _ ih =>
    intro b' hb' hlabel
    rw [hf.block_eq hb' hb hlabel]
    unfold argInfo
    split_ifs with hargs
    · exact ih
    · have hne : b.args ≠ [] := fun hnil => hargs (List.isEmpty_iff.mpr hnil)
      refine Reaches.step ih ((h.preds_spec _ _).mpr (Or.inl ⟨b, hb, hne, rfl, rfl⟩)) ?_
      rw [← h.stop_formals b hb hne] at hy
      exact Bool.eq_false_iff.mpr hy

omit [DecidableEq V] in
/-- The nodes of a block are marked if its points are live. -/
theorem Follows.reaches_iff (h : Follows f preds stop formals accesses y)
    (hf : Ssa f shouldConsider) (hb : b ∈ f.blocks) :
    (Reaches preds stop (Seed f accesses y) (.body b.label) ↔
      LiveAt f (reportedFlow f) formals accesses y (.begin b.label)) ∧
    (Reaches preds stop (Seed f accesses y) (argInfo b) ↔
      LiveAt f (reportedFlow f) formals accesses y (.entry b.label)) := by
  refine ⟨⟨h.liveNode, h.reaches hf⟩, fun hreach => ?_, fun hlive => h.reaches hf hlive b hb rfl⟩
  have hlive := h.liveNode hreach
  unfold argInfo at hlive
  split_ifs at hlive with hargs
  · exact LiveAt.bind hb (h.no_formals b hb (List.isEmpty_iff.mp hargs)) hlive
  · exact hlive

/-! ### After the pass over the blocks -/

variable {x : V} {d m : Node L}

/-- The state after the pass. -/
def collected (f : Function F L V ν) (shouldConsider : V → Bool) : State V L :=
  (effects f).foldl (State.perform shouldConsider) .init

/-- The nodes of the blocks. -/
def blockNodes (f : Function F L V ν) : Finset (Node L) :=
  (f.blocks.map (fun b => Node.formals b.label) ++
    f.blocks.map fun b => Node.body b.label).toFinset

omit [DecidableEq V] in
theorem card_blockNodes : (blockNodes f).card ≤ 2 * f.blocks.length := by
  refine (List.toFinset_card_le _).trans ?_
  rw [List.length_append, List.length_map, List.length_map]
  omega

theorem mem_preds : n ∈ (collected f shouldConsider).preds m ↔
    (∃ b ∈ f.blocks, b.args ≠ [] ∧ n = .formals b.label ∧ m = .body b.label) ∨
      ∃ b ∈ f.blocks, n = .body b.label ∧ ∃ l ∈ reportedFlow f b,
        ∃ b', block? f l = some b' ∧ m = argInfo b' := by
  rw [collected, mem_preds_foldl, edge_mem_effects]
  simp [State.init]

variable (f shouldConsider) in
theorem preds_subset : ∀ m, ∀ n ∈ (collected f shouldConsider).preds m, n ∈ blockNodes f := by
  intro m n hn
  simp only [blockNodes, List.mem_toFinset, mem_append, mem_map]
  rcases mem_preds.mp hn with ⟨b, hb, -, rfl, -⟩ | ⟨b, hb, rfl, -⟩
  · exact Or.inl ⟨b, hb, rfl⟩
  · exact Or.inr ⟨b, hb, rfl⟩

theorem mem_used (hx : shouldConsider x = true) : n ∈ (collected f shouldConsider).used x ↔
    ∃ b ∈ f.blocks, n = .body b.label ∧ .use x ∈ varAccesses b := by
  rw [collected, mem_used_foldl hx, use_mem_effects]
  simp [State.init]

theorem live_foldl {es : List (Effect V L)} {s : State V L} :
    (es.foldl (State.perform shouldConsider) s).live = s.live := by
  induction es generalizing s with
  | nil => rfl
  | cons e es ih =>
    rw [foldl_cons, ih]
    cases e <;> simp only [State.perform] <;> split_ifs <;> rfl

variable (f shouldConsider) in
theorem live_collected (n : Node L) : (collected f shouldConsider).live n = [] := by
  rw [collected, live_foldl]
  rfl

theorem allVars_collected :
    (collected f shouldConsider).allVars = ((definitions f).filter shouldConsider).reverse := by
  rw [collected, foldl_collect State.allVars _ allVars_perform, filterMap_definedBy_effects]
  simp [State.init]

omit [DecidableEq V] in
/-- A variable that counts is defined at one node. -/
theorem defn_unique (hf : Ssa f shouldConsider) (hx : shouldConsider x = true)
    (hn : .defn x n ∈ effects f) (hm : .defn x m ∈ effects f) : n = m := by
  have hnodup := hf.defined_once
  rw [← filterMap_definedBy_effects, List.Nodup, List.pairwise_filterMap] at hnodup
  have hpair := hnodup.imp (S := fun e e' => definedBy shouldConsider e = some x →
    definedBy shouldConsider e' ≠ some x) fun h he he' => h x he x he' rfl
  have hsymm : Std.Symm fun e e' : Effect V L => definedBy shouldConsider e = some x →
      definedBy shouldConsider e' ≠ some x := ⟨fun _ _ h he he' => h he' he⟩
  have hdefined : ∀ k : Node L, definedBy shouldConsider (.defn x k) = some x := fun k => by
    simp [definedBy, hx]
  by_contra hne
  have heq : (.defn x n : Effect V L) ≠ .defn x m := fun heq => hne (by cases heq; rfl)
  exact hpair.forall hn hm heq (hdefined n) (hdefined m)

omit [DecidableEq V] in
theorem exists_defn (hx : x ∈ definitions f) : ∃ n, .defn x n ∈ effects f := by
  simp only [defn_mem_effects]
  rcases mem_append.mp hx with hx | hx
  · exact ⟨.head, Or.inl ⟨hx, rfl⟩⟩
  · obtain ⟨b, hb, hx⟩ := List.mem_flatMap.mp hx
    rcases mem_append.mp hx with hx | hx
    · exact ⟨argInfo b, Or.inr ⟨b, hb, Or.inl ⟨hx, rfl⟩⟩⟩
    · obtain ⟨a, ha, hdefn⟩ := List.mem_filterMap.mp hx
      cases a with
      | use y => cases hdefn
      | defn y =>
        cases hdefn
        exact ⟨.body b.label, Or.inr ⟨b, hb, Or.inr ⟨rfl, ha⟩⟩⟩

theorem defined_collected (hf : Ssa f shouldConsider) (hx : shouldConsider x = true)
    (hdef : x ∈ definitions f) : ∃ d, (collected f shouldConsider).defined x = some d ∧
      ∀ n, .defn x n ∈ effects f ↔ n = d := by
  obtain ⟨hspec, hsome⟩ := defined_foldl hx (effects f) State.init
  obtain ⟨d, hd⟩ := Option.isSome_iff_exists.mp (hsome (Or.inr (exists_defn hdef)))
  have hmem : .defn x d ∈ effects f := by
    rcases hspec d hd with hnone | hmem
    · cases hnone
    · exact hmem
  refine ⟨d, hd, fun n => ⟨fun hn => defn_unique hf hx hn hmem, fun hn => hn ▸ hmem⟩⟩

omit [DecidableEq V] [DecidableEq L] in
theorem exposes_iff {as : List (Access β)} (h : .defn y ∉ as) :
    Exposes y as ↔ .use y ∈ as := by
  induction as with
  | nil => simp [Exposes]
  | cons a as ih =>
    rw [mem_cons, not_or] at h
    cases a with
    | use z => simp [Exposes, ih h.2, eq_comm]
    | defn z =>
      have hz : z ≠ y := fun heq => h.1 (heq ▸ rfl)
      simp [Exposes, ih h.2, hz]

/-- A variable stops at its definition. -/
theorem follows_var (hf : Ssa f shouldConsider) (hd : ∀ n, .defn x n ∈ effects f ↔ n = d) :
    Follows f (collected f shouldConsider).preds (fun n => decide (n = d)) Block.args varAccesses
      x where
  preds_spec _ _ := mem_preds
  stop_body b hb := by
    rw [decide_eq_true_eq, ← hd, defn_mem_effects]
    constructor
    · rintro (⟨-, hhead⟩ | ⟨b', hb', ⟨hx, hinfo⟩ | ⟨hbody, hdefn⟩⟩)
      · cases hhead
      · unfold argInfo at hinfo
        split_ifs at hinfo with hargs
        rw [List.isEmpty_iff] at hargs
        rw [hargs] at hx
        cases hx
      · rw [hf.block_eq hb hb' (Node.body.inj hbody)]
        exact hdefn
    · exact fun hdefn => Or.inr ⟨b, hb, Or.inr ⟨rfl, hdefn⟩⟩
  stop_formals b hb hargs := by
    rw [decide_eq_true_eq, ← hd, defn_mem_effects]
    have hinfo : argInfo b = .formals b.label := by
      rw [argInfo, if_neg (by simpa using hargs)]
    constructor
    · rintro (⟨-, hhead⟩ | ⟨b', hb', ⟨hx, hinfo'⟩ | ⟨hbody, -⟩⟩)
      · cases hhead
      · unfold argInfo at hinfo'
        split_ifs at hinfo'
        rw [hf.block_eq hb hb' (Node.formals.inj hinfo')]
        exact hx
      · cases hbody
    · exact fun hx => Or.inr ⟨b, hb, Or.inl ⟨hx, hinfo.symm⟩⟩
  no_formals b _ hargs := by
    rw [hargs]
    exact not_mem_nil

/-- The nodes that a variable starts from use it first. -/
theorem seed_var (hf : Ssa f shouldConsider) (hx : shouldConsider x = true)
    (hd : ∀ n, .defn x n ∈ effects f ↔ n = d) :
    (n ∈ (collected f shouldConsider).used x ∧ decide (n = d) = false) ↔
      Seed f varAccesses x n := by
  have hstop := (follows_var hf hd).stop_body
  rw [mem_used hx]
  constructor
  · rintro ⟨⟨b, hb, rfl, huse⟩, hne⟩
    refine ⟨b, hb, rfl, (exposes_iff ?_).mpr huse⟩
    rw [← hstop b hb, hne]
    exact Bool.false_ne_true
  · rintro ⟨b, hb, rfl, hexposes⟩
    have hdefn : .defn x ∉ varAccesses b := fun h => hf.defined_before b hb x hx h hexposes
    refine ⟨⟨b, hb, rfl, (exposes_iff hdefn).mp hexposes⟩, ?_⟩
    rw [← hstop b hb] at hdefn
    exact Bool.eq_false_iff.mpr hdefn

/-- A slot stops at the blocks that define it. -/
theorem follows_slot {slotAccesses : Block F L V ν → List (Access Unit)}
    (hf : Ssa f shouldConsider) (hstop : ∀ n, stop n = true ↔
      ∃ b ∈ f.blocks, n = .body b.label ∧ .defn () ∈ slotAccesses b) :
    Follows f (collected f shouldConsider).preds stop (fun _ => []) slotAccesses () where
  preds_spec _ _ := mem_preds
  stop_body b hb := by
    rw [hstop]
    constructor
    · rintro ⟨b', hb', hbody, hdefn⟩
      rw [hf.block_eq hb hb' (Node.body.inj hbody)]
      exact hdefn
    · exact fun hdefn => ⟨b, hb, rfl, hdefn⟩
  stop_formals b hb _ := by
    rw [hstop]
    simp
  no_formals _ _ _ := not_mem_nil

omit [DecidableEq V] [DecidableEq L] in
theorem use_mem_of_exposes {as : List (Access β)} (h : Exposes y as) : .use y ∈ as := by
  induction as with
  | nil => cases h
  | cons a as ih =>
    cases a with
    | use z =>
      rcases h with rfl | h
      · exact mem_cons_self
      · exact mem_cons_of_mem _ (ih h)
    | defn z => exact mem_cons_of_mem _ (ih h.2)

omit [DecidableEq V] [DecidableEq L] in
/-- What is live is used somewhere. -/
theorem LiveAt.exists_use {succ : Block F L V ν → List L} {p : Point L}
    (h : LiveAt f succ formals accesses y p) : ∃ b ∈ f.blocks, .use y ∈ accesses b := by
  induction h with
  | use hb hexposes => exact ⟨_, hb, use_mem_of_exposes hexposes⟩
  | pass _ _ _ _ ih => exact ih
  | bind _ _ _ ih => exact ih

/-- What is reported for the variables. -/
theorem vars_exact (hf : Ssa f shouldConsider) :
    ∃ live, (collected f shouldConsider).allVars.foldlM (processVar (2 * f.blocks.length))
        (collected f shouldConsider) = some { collected f shouldConsider with live := live } ∧
      ∀ b ∈ f.blocks, ∀ x,
        (x ∈ live (.body b.label) ↔ shouldConsider x ∧
          LiveAt f (reportedFlow f) Block.args varAccesses x (.begin b.label)) ∧
        (x ∈ live (argInfo b) ↔ shouldConsider x ∧
          LiveAt f (reportedFlow f) Block.args varAccesses x (.entry b.label)) := by
  have hmem : ∀ x, x ∈ (collected f shouldConsider).allVars ↔
      x ∈ definitions f ∧ shouldConsider x = true := fun x => by
    rw [allVars_collected, List.mem_reverse, List.mem_filter]
  have hdefined : ∀ x ∈ (collected f shouldConsider).allVars, ∃ d,
      (collected f shouldConsider).defined x = some d ∧ ∀ n, .defn x n ∈ effects f ↔ n = d :=
    fun x hx => defined_collected hf ((hmem x).mp hx).2 ((hmem x).mp hx).1
  have hlive := live_collected f shouldConsider
  obtain ⟨live, hrun, hspec⟩ := processVars_spec (U := blockNodes f)
    (fun x => ((collected f shouldConsider).defined x).getD .head)
    (show (collected f shouldConsider).allVars.Nodup by
      rw [allVars_collected, List.nodup_reverse]
      exact hf.defined_once)
    (fun x hx => by
      obtain ⟨d, hd, -⟩ := hdefined x hx
      rw [hd, Option.getD_some])
    (fun x _ n => by rw [hlive]; exact not_mem_nil) (preds_subset f shouldConsider)
    (fun x hx n hn => by
      obtain ⟨b, hb, rfl, -⟩ := (mem_used ((hmem x).mp hx).2).mp hn
      simp only [blockNodes, List.mem_toFinset, mem_append, mem_map]
      exact Or.inr ⟨b, hb, rfl⟩)
    card_blockNodes
  refine ⟨live, hrun, fun b hb x => ?_⟩
  simp only [hspec, hlive, not_mem_nil, false_or]
  by_cases hx : x ∈ (collected f shouldConsider).allVars
  · obtain ⟨hdef, hconsider⟩ := (hmem x).mp hx
    obtain ⟨d, hd, hunique⟩ := hdefined x hx
    have hseed : (fun n => n ∈ (collected f shouldConsider).used x ∧ decide (n = d) = false) =
        Seed f varAccesses x := by
      funext n
      exact propext (seed_var hf hconsider hunique)
    obtain ⟨hbegin, hentry⟩ := (follows_var hf hunique).reaches_iff hf hb
    rw [hd, Option.getD_some, Propagated, hseed, hbegin, hentry]
    simp only [hx, hconsider, true_and, and_self]
  · have hdead : ∀ p, shouldConsider x = true →
        ¬ LiveAt f (reportedFlow f) Block.args varAccesses x p := by
      intro p hconsider hp
      obtain ⟨b', hb', huse⟩ := hp.exists_use
      exact hx ((hmem x).mpr ⟨hf.defined b' hb' x hconsider huse, hconsider⟩)
    simp only [hx, false_and, false_iff, not_and]
    exact ⟨hdead _, hdead _⟩

/-- What is reported for a slot. -/
theorem slot_exact {α : Type} {h : Effect V L → Option (DefUse α (Node L))}
    {slotAccesses : Block F L V ν → List (Access Unit)} (hf : Ssa f shouldConsider)
    (hslotted : Slotted h)
    (hblocks : ∀ b, ((visitBlock f b).filterMap h).map DefUse.access = slotAccesses b ∧
      ∀ e ∈ (visitBlock f b).filterMap h, e.node = .body b.label)
    {dus : List (DefUse α (Node L))} (hdus : dus = ((effects f).filterMap h).reverse) :
    ∃ sel, handlerLink (dus.length + 2 * f.blocks.length) (collected f shouldConsider).preds dus =
        some sel ∧
      ∀ b ∈ f.blocks, (sel (.body b.label)).isSome ↔
        LiveAt f (reportedFlow f) (fun _ => []) slotAccesses () (.begin b.label) := by
  rw [hslotted.filterMap_effects] at hdus
  subst hdus
  rw [List.length_reverse]
  have hnodup : (f.blocks.map fun b => Node.body b.label).Nodup := by
    have hlabels := hf.labels_nodup.map (f := Node.body) fun l l' h => Node.body.inj h
    rwa [Function.labels, List.map_map] at hlabels
  obtain ⟨sel, stop, hrun, hstop, hsel⟩ := handlerLink_spec (U := blockNodes f)
    (fun b _ => (hblocks b).2) hnodup (preds_subset f shouldConsider)
    (Nat.add_le_add_left card_blockNodes _)
  simp only [(hblocks _).1] at hstop hsel
  refine ⟨sel, hrun, fun b hb => ?_⟩
  rw [hsel]
  exact ((follows_slot hf hstop).reaches_iff hf hb).1

end

/-! ### Exactness -/

/-- What is reported for a label, for the flow `succ`. -/
structure LabelLive.Exact (ll : LabelLive V L) (f : Function F L V ν)
    (succ : Block F L V ν → List L) (shouldConsider : V → Bool) (l : L) : Prop where
  begin : ∀ x, x ∈ ll.begin ↔
    shouldConsider x ∧ LiveAt f succ Block.args varAccesses x (.begin l)
  beginNoFormals : ∀ x, x ∈ ll.beginNoFormals ↔
    shouldConsider x ∧ LiveAt f succ Block.args varAccesses x (.entry l)
  handler : ll.handler.isSome ↔ LiveAt f succ (fun _ => []) (codeAccesses f) () (.begin l)
  link : ll.link = true ↔ LiveAt f succ (fun _ => []) linkAccesses () (.begin l)

omit [DecidableEq V] [DecidableEq L] in
theorem lookups_eq (b : Block F L V ν) : lookups b = b.transfer.labels ++ handlerOf b.kind := by
  unfold lookups handlerOf
  cases b.kind with
  | cont h => cases h <;> rfl
  | _ => rfl

/-- The analysis succeeds, and what it reports for each label is exact along the reported flow. -/
theorem live_exact (f : Function F L V ν) (shouldConsider : V → Bool)
    (hf : Ssa f shouldConsider) :
    ∃ labelLive, live f shouldConsider = some labelLive ∧ ∀ b ∈ f.blocks, ∃ ll,
      labelLive b.label = some ll ∧ ll.Exact f (reportedFlow f) shouldConsider b.label := by
  obtain ⟨vars, hvars, hvarsSpec⟩ := vars_exact hf
  obtain ⟨code, hcode, hcodeSpec⟩ := slot_exact hf slotted_codeOf code_visitBlock
    (show (collected f shouldConsider).handlerCodeDefUses = _ by
      rw [collected, foldl_collect State.handlerCodeDefUses _ code_perform]
      exact List.append_nil _)
  obtain ⟨link, hlink, hlinkSpec⟩ := slot_exact hf slotted_linkOf link_visitBlock
    (show (collected f shouldConsider).handlerLinkDefUses = _ by
      rw [collected, foldl_collect State.handlerLinkDefUses _ link_perform]
      exact List.append_nil _)
  have hlookups : ∀ b ∈ f.blocks, ∀ l ∈ lookups b, l ∈ f.labels := by
    intro b hb l hl
    rw [lookups_eq] at hl
    exact hf.labels_mem b hb l hl
  let labelLive : L → Option (LabelLive V L) := fun l => (block? f l).map fun block =>
    { begin := vars (.body l)
      beginNoFormals := vars (argInfo block)
      handler := code (.body l)
      link := (link (.body l)).isSome }
  have hrun : live f shouldConsider = some labelLive := by
    rw [collected] at hvars hcode hlink
    simp only [live, guard, if_pos hlookups, hvars, hcode, hlink, labelLive]
    rfl
  refine ⟨labelLive, hrun, fun b hb => ?_⟩
  obtain ⟨b', hblock⟩ := exists_block? (List.mem_map_of_mem (f := Block.label) hb)
  obtain ⟨hb', hlabel⟩ := block?_spec hblock
  rw [hf.block_eq hb' hb hlabel] at hblock
  refine ⟨_, by simp only [labelLive, hblock]; rfl, ?_⟩
  exact ⟨fun x => (hvarsSpec b hb x).1, fun x => (hvarsSpec b hb x).2, hcodeSpec b hb,
    hlinkSpec b hb⟩

/-- A call whose handler returns a variable and whose continuation does not. -/
def handled : Function Unit ℕ ℕ Unit where
  args := []
  blocks := [
    { args := [], kind := .jump, label := 0, statements := [.object 7 8],
      transfer := .call [] () (.nonTail 1 (.handle 2)) },
    { args := [], kind := .cont (.handle 2), label := 1, statements := [], transfer := .ret [] },
    { args := [], kind := .handler, label := 2, statements := [], transfer := .ret [.var 7] }]
  name := ()
  start := 0

theorem varAccesses_handled {b : Block Unit ℕ ℕ Unit} (hb : b ∈ handled.blocks) :
    varAccesses b = [.defn 7] ∨ varAccesses b = [] ∨ varAccesses b = [.use 7] := by
  have hall : handled.blocks.map varAccesses = [[.defn 7], [], [.use 7]] := rfl
  have hmem := List.mem_map_of_mem (f := varAccesses) hb
  rw [hall] at hmem
  simpa using hmem

theorem ssa_handled : Ssa handled fun _ => true where
  labels_nodup := by decide
  labels_mem := by decide
  defined_once := by decide
  defined_before b hb x _ hdefn := by
    rcases varAccesses_handled hb with h | h | h <;> rw [h] at hdefn ⊢ <;>
      simp [Exposes] at hdefn ⊢
  defined b hb x _ huse := by
    have hdefs : definitions handled = [7] := rfl
    rcases varAccesses_handled hb with h | h | h <;> rw [h] at huse <;> simp at huse
    rw [hdefs, huse]
    exact List.mem_singleton_self 7

theorem handled_exact : ∃ labelLive, live handled (fun _ => true) = some labelLive ∧
    ∀ b ∈ handled.blocks, ∃ ll, labelLive b.label = some ll ∧
      ll.Exact handled (reportedFlow handled) (fun _ => true) b.label :=
  live_exact handled _ ssa_handled

/-- At the continuation the variable is reported, though no path leads to its use. -/
theorem cont_reports_handler : Ssa handled (fun _ => true) ∧ ∃ labelLive ll,
    live handled (fun _ => true) = some labelLive ∧ labelLive 1 = some ll ∧ 7 ∈ ll.begin ∧
      ¬ LiveAt handled controlFlow Block.args varAccesses 7 (.begin 1) := by
  have hrun : ((live handled fun _ => true).bind fun labelLive => labelLive 1).map
      LabelLive.begin = some [7] := by decide
  obtain ⟨ll, hll, hbegin⟩ := Option.map_eq_some_iff.mp hrun
  obtain ⟨labelLive, hlive, hlabel⟩ := Option.bind_eq_some_iff.mp hll
  have hcont : ∀ b ∈ handled.blocks, b.label = 1 → varAccesses b = [] ∧ controlFlow b = [] := by
    intro b hb hone
    simp only [handled, List.mem_cons, List.not_mem_nil, or_false] at hb
    rcases hb with rfl | rfl | rfl
    · cases hone
    · exact ⟨rfl, rfl⟩
    · cases hone
  refine ⟨ssa_handled, labelLive, ll, hlive, hlabel, hbegin ▸ List.mem_singleton_self 7, ?_⟩
  intro h
  generalize hp : Point.begin 1 = p at h
  cases h with
  | use hb hexposes =>
    rw [(hcont _ hb (Point.begin.inj hp).symm).1] at hexposes
    exact hexposes
  | pass hb _ hl _ =>
    rw [(hcont _ hb (Point.begin.inj hp).symm).2] at hl
    cases hl
  | bind _ _ _ => cases hp

end Live

end MultiMLton.Backend
