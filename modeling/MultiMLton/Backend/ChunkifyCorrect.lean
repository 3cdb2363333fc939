import MultiMLton.Backend.Chunkify

/-!
# Chunks are a valid partition

The phases of `coalesce`, one after the other.

* `Built`: the initial partition, whose classes are the blocks that jumps hold together;
* `addEdges_total`: edges are between classes, and leave them alone;
* `Collects`: the chunks are the classes of functions and labels;
* `chunkify_valid`: all policies, `returnsTo` included.
-/

namespace MultiMLton.Backend

open MultiMLton.Lib Rssa Relation List Function

namespace Chunkify

variable {F L V ν : Type} [DecidableEq L]

/-! ### The initial partition -/

/-- Sizes are sums over the blocks of a class, and other labels are in no class. -/
structure Sized (w : L → ℕ) (g : EquivalenceGraph L) : Prop where
  apart : ∀ a b, g.Same a b → a = b ∨ (a ∈ g.classes ∧ b ∈ g.classes)
  weighs : g.sets.Weighs g.classes.toFinset w

variable {w : L → ℕ}

theorem Sized.newClass {g : EquivalenceGraph L} (h : Sized w g) {l : L}
    (hl : l ∉ g.classes) : Sized w (g.newClass l (w l)) := by
  constructor
  · intro a b hab
    rcases h.apart a b hab with rfl | ⟨ha, hb⟩
    · exact .inl rfl
    · exact .inr ⟨mem_cons_of_mem _ ha, mem_cons_of_mem _ hb⟩
  · simp only [EquivalenceGraph.newClass, toFinset_cons]
    refine h.weighs.setValue fun x hx hlx => ?_
    rcases h.apart l x hlx with rfl | ⟨hmem, -⟩
    · exact hl (mem_toFinset.1 hx)
    · exact hl hmem

theorem Sized.equate {g : EquivalenceGraph L} (h : Sized w g) {l l' : L}
    (hl : l ∈ g.classes) (hl' : l' ∈ g.classes) : Sized w (g.equate l l') := by
  constructor
  · intro a b hab
    rcases g.sets.same_merge.1 hab with hab | ⟨ha, hb⟩ | ⟨ha, hb⟩
    · exact h.apart a b hab
    · have ha' : a ∈ g.classes := (h.apart a l ha).elim (fun heq => heq ▸ hl) And.left
      have hb' : b ∈ g.classes := (h.apart b l' hb).elim (fun heq => heq ▸ hl') And.left
      exact .inr ⟨ha', hb'⟩
    · have ha' : a ∈ g.classes := (h.apart a l' ha).elim (fun heq => heq ▸ hl') And.left
      have hb' : b ∈ g.classes := (h.apart b l hb).elim (fun heq => heq ▸ hl) And.left
      exact .inr ⟨ha', hb'⟩
  · exact h.weighs.merge (mem_toFinset.2 hl) (mem_toFinset.2 hl')

/-- New classes for the blocks of a function. -/
theorem foldlM_setLabelClass {profile : Bool} (bs : List (Block F L V ν))
    (hw : ∀ b ∈ bs, w b.label = blockSize profile b) (s : Classes F L)
    (hnodup : (bs.map Block.label).Nodup)
    (hnew : ∀ b ∈ bs, b.label ∉ s.graph.classes) (hs : Sized w s.graph) :
    ∃ g, bs.foldlM (fun s b => s.setLabelClass b.label (blockSize profile b)) s =
        some { s with graph := g } ∧
      g.classes = (bs.map Block.label).reverse ++ s.graph.classes ∧ g.edges = s.graph.edges ∧
      (∀ a b, g.Same a b ↔ s.graph.Same a b) ∧ Sized w g := by
  induction bs generalizing s with
  | nil => exact ⟨s.graph, rfl, rfl, rfl, fun _ _ => Iff.rfl, hs⟩
  | cons b bs ih =>
    obtain ⟨hb, hnodup⟩ := nodup_cons.1 hnodup
    have hstep : s.setLabelClass b.label (blockSize profile b) =
        some { s with graph := s.graph.newClass b.label (blockSize profile b) } :=
      if_neg (hnew b mem_cons_self)
    have hsized : Sized w (s.graph.newClass b.label (blockSize profile b)) := by
      rw [← hw b mem_cons_self]
      exact hs.newClass (hnew b mem_cons_self)
    obtain ⟨g, hg, hclasses, hedges, hsame, hsized'⟩ := ih
      (fun b' hb' => hw b' (mem_cons_of_mem _ hb'))
      { s with graph := s.graph.newClass b.label (blockSize profile b) } hnodup (by
        intro b' hb' hmem
        rcases mem_cons.1 hmem with heq | hmem
        · exact hb (heq ▸ mem_map_of_mem hb')
        · exact hnew b' (mem_cons_of_mem _ hb') hmem) hsized
    refine ⟨g, by simp [foldlM_cons, hstep, hg], ?_, hedges, hsame, hsized'⟩
    rw [hclasses, map_cons, reverse_cons, append_assoc]
    rfl

/-- Joining the classes of pairs of labels that have one. -/
theorem foldlM_same (pairs : List (L × L)) (s : Classes F L)
    (hpairs : ∀ lj ∈ pairs, lj.1 ∈ s.graph.classes ∧ lj.2 ∈ s.graph.classes)
    (hs : Sized w s.graph) : ∃ g, pairs.foldlM same s = some { s with graph := g } ∧
      g.classes = s.graph.classes ∧ g.edges = s.graph.edges ∧
      g.sets = pairs.foldl (fun s p => s.merge p.1 p.2) s.graph.sets ∧ Sized w g := by
  induction pairs generalizing s with
  | nil => exact ⟨s.graph, rfl, rfl, rfl, rfl, hs⟩
  | cons lj pairs ih =>
    obtain ⟨hl, hj⟩ := hpairs lj mem_cons_self
    have hstep : same s lj = some { s with graph := s.graph.equate lj.1 lj.2 } := by
      simp [same, Classes.labelClass, hl, hj]
    obtain ⟨g, hg, hclasses, hedges, hsets, hsized⟩ := ih
      { s with graph := s.graph.equate lj.1 lj.2 }
      (fun lj' h => hpairs lj' (mem_cons_of_mem _ h)) (hs.equate hl hj)
    exact ⟨g, by simp [foldlM_cons, hstep, hg], hclasses, hedges, hsets, hsized⟩

omit [DecidableEq L] in
theorem sameLabels_eq (t : Transfer F L V ν) : sameLabels t = t.jumps := by
  cases t <;> rfl

variable {f : Function F L V ν}

omit [DecidableEq L] in
theorem mem_samePairs {l l' : L} : (l, l') ∈ samePairs f ↔ Jumps f l l' := by
  simp only [samePairs, mem_flatMap, mem_map, Prod.mk.injEq, sameLabels_eq, Jumps]
  grind

/-- An equivalence that is generated in two steps. -/
theorem eqvGen_or {α : Type} {r r' : α → α → Prop} {a b : α} :
    EqvGen (fun a b => EqvGen r a b ∨ r' a b) a b ↔ EqvGen (fun a b => r a b ∨ r' a b) a b := by
  constructor
  · intro h
    induction h with
    | rel a b h =>
      rcases h with h | h
      · exact h.mono fun _ _ => .inl
      · exact .rel _ _ (.inr h)
    | refl a => exact .refl a
    | symm a b _ ih => exact .symm _ _ ih
    | trans a b c _ _ ih ih' => exact .trans _ _ _ ih ih'
  · exact fun h => h.mono fun a b h => h.imp_left (.rel a b)

/-- The initial partition of the functions `fs`. -/
structure Built (w : L → ℕ) (fs : List (Function F L V ν)) (s : Classes F L) : Prop where
  classes : ∀ l, l ∈ s.graph.classes ↔ ∃ f ∈ fs, l ∈ f.labels
  edges : s.graph.edges = []
  funcs : ∀ f ∈ fs, s.funcClass f.name = some f.start
  other : ∀ n, n ∉ fs.map Function.name → s.funcClass n = none
  same : ∀ a b, s.graph.Same a b ↔ EqvGen (fun l l' => ∃ f ∈ fs, Jumps f l l') a b
  sized : Sized w s.graph

variable {s : Classes F L}

theorem Built.initFunction [DecidableEq F] {profile : Bool} {fs : List (Function F L V ν)}
    (h : Built w fs s) (f : Function F L V ν)
    (hw : ∀ b ∈ f.blocks, w b.label = blockSize profile b) (hnodup : f.labels.Nodup)
    (hlabels : ∀ l ∈ f.labels, ∀ f' ∈ fs, l ∉ f'.labels) (hname : f.name ∉ fs.map Function.name)
    (hstart : f.start ∈ f.labels) (hjumps : ∀ b ∈ f.blocks, ∀ l ∈ b.transfer.jumps, l ∈ f.labels) :
    ∃ s', initFunction profile s f = some s' ∧ Built w (fs ++ [f]) s' := by
  obtain ⟨g, hg, hclasses, hedges, hsame, hsized⟩ := foldlM_setLabelClass f.blocks hw s hnodup
    (fun b hb hmem => by
      obtain ⟨f', hf', hl⟩ := (h.classes _).1 hmem
      exact hlabels _ (mem_map_of_mem hb) f' hf' hl) h.sized
  have hmem (l : L) : l ∈ g.classes ↔ l ∈ f.labels ∨ ∃ f' ∈ fs, l ∈ f'.labels := by
    rw [hclasses, mem_append, mem_reverse, h.classes]
    rfl
  have hfunc : Classes.setFuncClass { s with graph := g } f.name f.start =
      some ⟨g, Function.update s.funcClass f.name (some f.start)⟩ := by
    simp [Classes.setFuncClass, h.other f.name hname]
  obtain ⟨g', hg', hclasses', hedges', hsets, hsized'⟩ := foldlM_same (samePairs f)
    (⟨g, Function.update s.funcClass f.name (some f.start)⟩ : Classes F L) (fun lj hlj => by
      obtain ⟨b, hb, hl, hj⟩ := mem_samePairs.1 hlj
      exact ⟨(hmem _).2 (.inl (hl ▸ mem_map_of_mem hb)),
        (hmem _).2 (.inl (hjumps b hb _ hj))⟩) hsized
  have hstart' : Classes.labelClass ({ s with graph := g } : Classes F L) f.start = some f.start :=
    if_pos ((hmem _).2 (.inl hstart))
  refine ⟨⟨g', Function.update s.funcClass f.name (some f.start)⟩, ?_, ?_⟩
  · simp [Chunkify.initFunction, hg, hstart', hfunc, hg']
  · refine ⟨?_, (hedges'.trans hedges).trans h.edges, ?_, ?_, ?_, hsized'⟩
    · intro l
      rw [hclasses', hmem]
      simp only [mem_append, mem_singleton]
      grind
    · intro f' hf'
      rcases mem_append.1 hf' with hf' | hf'
      · have hne : f'.name ≠ f.name := fun heq => hname (heq ▸ mem_map_of_mem hf')
        exact (update_of_ne hne _ _).trans (h.funcs f' hf')
      · obtain rfl := mem_singleton.1 hf'
        exact update_self ..
    · intro n hn
      simp only [map_append, mem_append, not_or, map_cons, map_nil,
        mem_singleton] at hn
      exact (update_of_ne hn.2 _ _).trans (h.other n hn.1)
    · intro a b
      have hrel : (fun l l' => ∃ f' ∈ fs ++ [f], Jumps f' l l') =
          fun l l' => (∃ f' ∈ fs, Jumps f' l l') ∨ Jumps f l l' := by
        funext l l'
        simp only [mem_append, mem_singleton, eq_iff_iff]
        grind
      have hstep : (fun a b => g.sets.Same a b ∨ (a, b) ∈ samePairs f) =
          fun a b => EqvGen (fun l l' => ∃ f' ∈ fs, Jumps f' l l') a b ∨ Jumps f a b := by
        funext a b
        rw [mem_samePairs]
        congr 1
        exact propext ((hsame a b).trans (h.same a b))
      rw [EquivalenceGraph.Same, hsets, hrel, ← eqvGen_or, ← hstep]
      exact DisjointSet.same_merges _ _

variable {p : Program F L V ν}

theorem labelSize_eq {profile : Bool} (h : p.labels.Nodup)
    (hf : f ∈ p.all) {b : Block F L V ν} (hb : b ∈ f.blocks) :
    labelSize profile p b.label = blockSize profile b := by
  have hmem : b ∈ p.all.flatMap blocks := mem_flatMap.2 ⟨f, hf, hb⟩
  have hnodup : ((p.all.flatMap blocks).map Block.label).Nodup := by
    rw [map_flatMap]
    exact h
  unfold labelSize
  cases hfind : (p.all.flatMap blocks).find? fun b' => decide (b'.label = b.label) with
  | none => simpa using find?_eq_none.1 hfind b hmem
  | some b' =>
    have hlabel : b'.label = b.label := by simpa using find?_some hfind
    rw [inj_on_of_nodup_map hnodup (mem_of_find?_eq_some hfind) hmem hlabel]

/-- The initial partition of all functions. -/
theorem foldlM_initFunction [DecidableEq F] (profile : Bool) (h : p.WellFormed) :
    ∃ s, p.all.foldlM (initFunction profile) ⟨.new, fun _ => none⟩ = some s ∧
      Built (labelSize profile p) p.all s := by
  suffices hrest : ∀ (rest done : List (Function F L V ν)) (s : Classes F L),
      p.all = done ++ rest → Built (labelSize profile p) done s →
      ∃ s', rest.foldlM (initFunction profile) s = some s' ∧
        Built (labelSize profile p) p.all s' by
    refine hrest p.all [] _ rfl ?_
    refine ⟨by simp [EquivalenceGraph.new], rfl, by simp, fun _ _ => rfl, fun a b => ?_, ?_⟩
    · simp only [not_mem_nil, false_and, exists_false]
      constructor
      · rintro rfl
        exact .refl a
      · intro h
        induction h with
        | rel a b h => exact h.elim
        | refl a => rfl
        | symm a b _ ih => exact ih.symm
        | trans a b c _ _ ih ih' => exact ih.trans ih'
    · exact ⟨fun a b h => .inl h, fun a ha => by simp [EquivalenceGraph.new] at ha⟩
  intro rest
  induction rest with
  | nil =>
    intro done s hall hs
    rw [append_nil] at hall
    exact ⟨s, rfl, hall ▸ hs⟩
  | cons f rest ih =>
    intro done s hall hs
    have hf : f ∈ p.all := by simp [hall]
    have hnodup := nodup_flatMap.1 h.labels_nodup
    have hnames := h.names_nodup
    have hpair := hnodup.2
    rw [hall, pairwise_append] at hpair
    rw [Program.names, hall, map_append, nodup_append] at hnames
    obtain ⟨s1, hs1, h1⟩ := hs.initFunction f (fun b hb => labelSize_eq h.labels_nodup hf hb)
      (hnodup.1 f hf)
      (fun l hl f' hf' hl' => hpair.2.2 f' hf' f mem_cons_self hl' hl)
      (fun hmem => hnames.2.2 f.name hmem f.name (by simp) rfl)
      (h.start_mem f hf)
      (fun b hb l hl => h.jumps_mem f hf b hb l (Transfer.mem_labels_of_mem_jumps hl))
    obtain ⟨s2, hs2, h2⟩ := ih (done ++ [f]) s1 (by simp [hall]) h1
    exact ⟨s2, by simp [foldlM_cons, hs1, hs2], h2⟩

/-! ### Edges -/

/-- Edges are between classes, and nothing else has changed. -/
structure Edged (s s' : Classes F L) : Prop where
  classes_eq : s'.graph.classes = s.graph.classes
  sets_eq : s'.graph.sets = s.graph.sets
  funcClass_eq : s'.funcClass = s.funcClass
  edges : ∀ e ∈ s'.graph.edges, e.1 ∈ s.graph.classes ∧ e.2 ∈ s.graph.classes

omit [DecidableEq L] in
theorem Edged.addEdge {s s' : Classes F L} (h : Edged s s') {c c' : L} (hc : c ∈ s.graph.classes)
    (hc' : c' ∈ s.graph.classes) : Edged s { s' with graph := s'.graph.addEdge c c' } := by
  refine ⟨h.classes_eq, h.sets_eq, h.funcClass_eq, fun e he => ?_⟩
  rcases mem_cons.1 he with rfl | he
  · exact ⟨hc, hc'⟩
  · exact h.edges e he

theorem Edged.addEdges {s s' : Classes F L} (h : Edged s s') {cs : List L}
    (hcs : ∀ c ∈ cs, c ∈ s.graph.classes) {b : Block F L V ν} (hb : b.label ∈ s.graph.classes)
    (hfunc : ∀ args func r, b.transfer = .call args func r →
      ∃ c, s.funcClass func = some c ∧ c ∈ s.graph.classes) :
    ∃ s'', addEdges cs s' b = some s'' ∧ Edged s s'' := by
  have hlabel : s'.labelClass b.label = some b.label := if_pos (by rwa [h.classes_eq])
  unfold Chunkify.addEdges
  split
  · next args func r htransfer =>
    obtain ⟨c, hc, hmem⟩ := hfunc _ _ _ htransfer
    rw [← h.funcClass_eq] at hc
    exact ⟨{ s' with graph := s'.graph.addEdge b.label c }, by simp [hlabel, hc],
      h.addEdge hb hmem⟩
  · refine ⟨{ s' with graph := cs.foldl (fun g c' => g.addEdge b.label c') s'.graph },
      by simp [hlabel], ?_⟩
    suffices hfold : ∀ (l : List L) (s1 : Classes F L), l ⊆ cs → Edged s s1 →
        Edged s { s1 with graph := l.foldl (fun g c' => g.addEdge b.label c') s1.graph } from
      hfold cs s' (List.Subset.refl cs) h
    intro l
    induction l with
    | nil => exact fun _ _ h => h
    | cons c l ih =>
      intro s1 hl hs1
      obtain ⟨hc, hl⟩ := cons_subset.1 hl
      exact ih { s1 with graph := s1.graph.addEdge b.label c } hl (hs1.addEdge hb (hcs c hc))
  · exact ⟨s', rfl, h⟩

theorem mapM_labelClass {ls : List L} (h : ∀ l ∈ ls, l ∈ s.graph.classes) :
    ls.mapM s.labelClass = some ls := by
  induction ls with
  | nil => rfl
  | cons l ls ih =>
    have hl : s.labelClass l = some l := if_pos (h l mem_cons_self)
    simp [mapM_cons, hl, ih fun l' hl' => h l' (mem_cons_of_mem _ hl')]

/-- The edges of all functions. -/
theorem foldlM_addFunctionEdges (h : p.WellFormed) (hs : Built w p.all s) {R : F → List L}
    (hR : ∀ f, ∀ l ∈ R f, l ∈ s.graph.classes) :
    ∃ s', p.all.foldlM (addFunctionEdges R) s = some s' ∧ Edged s s' := by
  have hrefl : Edged s s := ⟨rfl, rfl, rfl, fun e he => by simp [hs.edges] at he⟩
  refine foldlM_total (Edged s) (fun f hf s1 hs1 => ?_) hrefl
  have hlabels : (R f.name).reverse.mapM s1.labelClass = some (R f.name).reverse := by
    refine mapM_labelClass fun l hl => ?_
    rw [hs1.classes_eq]
    exact hR f.name l (mem_reverse.1 hl)
  obtain ⟨s2, hs2, h2⟩ := foldlM_total (f := addEdges (R f.name).reverse) (Edged s) (l := f.blocks)
    (fun b hb s1 hs1 => hs1.addEdges (fun c hc => hR f.name c (mem_reverse.1 hc))
      ((hs.classes _).2 ⟨f, hf, mem_map_of_mem hb⟩) (by
        intro args func r htransfer
        obtain ⟨g, hg, hname⟩ := mem_map.1 (h.func_mem f hf b hb args func r htransfer)
        exact ⟨g.start, hname ▸ hs.funcs g hg, (hs.classes _).2 ⟨g, hg, h.start_mem g hg⟩⟩)) hs1
  exact ⟨s2, by simp [addFunctionEdges, hlabels, hs2], h2⟩

/-! ### The chunks of the classes -/

/-- The chunks after the names `ns` and the labels `ls` have been put into the chunks of their
classes, the last first. -/
structure Collects (kf : F → L) (kl : L → L) (ns : List F) (ls : List L)
    (chunks : List (L × Chunk F L)) : Prop where
  nodup : (chunks.map Prod.fst).Nodup
  funcs : ∀ ch ∈ chunks, ch.2.funcs = ns.filter fun n => kf n = ch.1
  labels : ∀ ch ∈ chunks, ch.2.labels = ls.filter fun l => kl l = ch.1
  funcKey : ∀ n ∈ ns, kf n ∈ chunks.map Prod.fst
  labelKey : ∀ l ∈ ls, kl l ∈ chunks.map Prod.fst

variable {push : Chunk F L → Chunk F L} {chunks : List (L × Chunk F L)}

theorem map_fst_updateChunk {c : L} : (updateChunk c push chunks).map Prod.fst =
      if c ∈ chunks.map Prod.fst then chunks.map Prod.fst else c :: chunks.map Prod.fst := by
  unfold updateChunk
  split_ifs
  · rw [List.map_map]
    refine List.map_congr_left fun ch _ => ?_
    simp only [comp_apply]
    split_ifs <;> rfl
  · rfl

/-- An entry of the chunks after a push is an old one of another class, or the one pushed to. -/
theorem mem_updateChunk {c : L} {ch : L × Chunk F L} (h : ch ∈ updateChunk c push chunks) :
    (ch ∈ chunks ∧ ch.1 ≠ c) ∨
      ∃ ch', (ch' ∈ chunks ∧ ch'.1 = c ∨ c ∉ chunks.map Prod.fst ∧ ch' = (c, ⟨[], []⟩)) ∧
        ch = (c, push ch'.2) := by
  unfold updateChunk at h
  split_ifs at h with hc
  · obtain ⟨ch', hch', heq⟩ := mem_map.1 h
    split_ifs at heq with hkey
    · exact .inr ⟨ch', .inl ⟨hch', hkey⟩, by rw [← heq, hkey]⟩
    · exact .inl ⟨heq ▸ hch', heq ▸ hkey⟩
  · rcases mem_cons.1 h with rfl | h
    · exact .inr ⟨(c, ⟨[], []⟩), .inr ⟨hc, rfl⟩, rfl⟩
    · refine .inl ⟨h, fun heq => hc (heq ▸ mem_map_of_mem h)⟩

section Collects

variable {kf : F → L} {kl : L → L} {ns : List F} {ls : List L} {chunks : List (L × Chunk F L)}

/-- The chunk that is pushed to has what belongs to its class. -/
theorem Collects.entry (h : Collects kf kl ns ls chunks) {c : L} {ch : L × Chunk F L}
    (hch : ch ∈ chunks ∧ ch.1 = c ∨ c ∉ chunks.map Prod.fst ∧ ch = (c, ⟨[], []⟩)) :
    ch.2.funcs = ns.filter (fun n => kf n = c) ∧ ch.2.labels = ls.filter (fun l => kl l = c) := by
  rcases hch with ⟨hch, rfl⟩ | ⟨hc, rfl⟩
  · exact ⟨h.funcs ch hch, h.labels ch hch⟩
  · constructor
    · refine (filter_eq_nil_iff.2 fun n hn heq => hc ?_).symm
      exact of_decide_eq_true heq ▸ h.funcKey n hn
    · refine (filter_eq_nil_iff.2 fun l hl heq => hc ?_).symm
      exact of_decide_eq_true heq ▸ h.labelKey l hl

theorem mem_keys_updateChunk {c c' : L} :
    c' ∈ (updateChunk c push chunks).map Prod.fst ↔ c' = c ∨ c' ∈ chunks.map Prod.fst := by
  rw [map_fst_updateChunk]
  split_ifs with hc
  · constructor
    · exact .inr
    · rintro (rfl | h)
      · exact hc
      · exact h
  · exact mem_cons

theorem Collects.nodup_updateChunk (h : Collects kf kl ns ls chunks) {c : L}
    : ((updateChunk c push chunks).map Prod.fst).Nodup := by
  rw [map_fst_updateChunk]
  split_ifs with hc
  · exact h.nodup
  · exact nodup_cons.2 ⟨hc, h.nodup⟩

theorem Collects.pushFunc (h : Collects kf kl ns ls chunks) (n : F) :
    Collects kf kl (n :: ns) ls
      (updateChunk (kf n) (fun ch => { ch with funcs := n :: ch.funcs }) chunks) := by
  refine ⟨h.nodup_updateChunk, fun ch hch => ?_, fun ch hch => ?_, fun n' hn' => ?_,
    fun l hl => mem_keys_updateChunk.2 (.inr (h.labelKey l hl))⟩
  · rcases mem_updateChunk hch with ⟨hold, hne⟩ | ⟨ch', hch', rfl⟩
    · rw [filter_cons_of_neg (by simpa using hne.symm)]
      exact h.funcs ch hold
    · rw [filter_cons_of_pos (by simp)]
      exact congrArg (n :: ·) (h.entry hch').1
  · rcases mem_updateChunk hch with ⟨hold, -⟩ | ⟨ch', hch', rfl⟩
    · exact h.labels ch hold
    · exact (h.entry hch').2
  · rcases mem_cons.1 hn' with rfl | hn'
    · exact mem_keys_updateChunk.2 (.inl rfl)
    · exact mem_keys_updateChunk.2 (.inr (h.funcKey n' hn'))

theorem Collects.pushLabel (h : Collects kf kl ns ls chunks) (l : L) :
    Collects kf kl ns (l :: ls)
      (updateChunk (kl l) (fun ch => { ch with labels := l :: ch.labels }) chunks) := by
  refine ⟨h.nodup_updateChunk, fun ch hch => ?_, fun ch hch => ?_,
    fun n hn => mem_keys_updateChunk.2 (.inr (h.funcKey n hn)), fun l' hl' => ?_⟩
  · rcases mem_updateChunk hch with ⟨hold, -⟩ | ⟨ch', hch', rfl⟩
    · exact h.funcs ch hold
    · exact (h.entry hch').1
  · rcases mem_updateChunk hch with ⟨hold, hne⟩ | ⟨ch', hch', rfl⟩
    · rw [filter_cons_of_neg (by simpa using hne.symm)]
      exact h.labels ch hold
    · rw [filter_cons_of_pos (by simp)]
      exact congrArg (l :: ·) (h.entry hch').2
  · rcases mem_cons.1 hl' with rfl | hl'
    · exact mem_keys_updateChunk.2 (.inl rfl)
    · exact mem_keys_updateChunk.2 (.inr (h.labelKey l' hl'))

/-- The chunks of one function. -/
theorem Collects.pushFunction (h : Collects kf s.graph.sets.representative ns ls chunks) {c : L}
    (hfunc : s.funcClass f.name = some c) (hkf : kf f.name = s.graph.sets.representative c)
    (hlabels : ∀ l ∈ f.labels, l ∈ s.graph.classes) :
    ∃ chunks', pushFunction s chunks f = some chunks' ∧
      Collects kf s.graph.sets.representative (f.name :: ns) (f.labels.reverse ++ ls) chunks' := by
  have hpush := h.pushFunc f.name
  rw [hkf] at hpush
  suffices hfold : ∀ (bs : List (Block F L V ν)) (ls : List L) (chunks : List (L × Chunk F L)),
      (∀ b ∈ bs, b.label ∈ s.graph.classes) →
      Collects kf s.graph.sets.representative (f.name :: ns) ls chunks →
      ∃ chunks', bs.foldlM (fun chunks b => do
          let c ← s.labelClass b.label
          some (updateChunk (s.graph.sets.representative c)
            (fun ch => { ch with labels := b.label :: ch.labels }) chunks)) chunks = some chunks' ∧
        Collects kf s.graph.sets.representative (f.name :: ns)
          ((bs.map Block.label).reverse ++ ls) chunks' by
    obtain ⟨chunks', hchunks', h'⟩ := hfold f.blocks ls _
      (fun b hb => hlabels _ (mem_map_of_mem hb)) hpush
    refine ⟨chunks', ?_, h'⟩
    rw [Chunkify.pushFunction, hfunc]
    exact hchunks'
  intro bs
  induction bs with
  | nil => exact fun ls chunks _ h => ⟨chunks, rfl, h⟩
  | cons b bs ih =>
    intro ls chunks hbs h
    have hlabel : s.labelClass b.label = some b.label := if_pos (hbs b mem_cons_self)
    obtain ⟨chunks', hchunks', h'⟩ := ih (b.label :: ls) _
      (fun b' hb' => hbs b' (mem_cons_of_mem _ hb')) (h.pushLabel b.label)
    refine ⟨chunks', by simpa [foldlM_cons, hlabel] using hchunks', ?_⟩
    rwa [map_cons, reverse_cons, append_assoc, singleton_append]

/-- The chunks of some functions. -/
theorem Collects.pushFunctions (fs : List (Function F L V ν))
    (h : Collects kf s.graph.sets.representative ns ls chunks)
    (hfunc : ∀ f ∈ fs, ∃ c, s.funcClass f.name = some c ∧
      kf f.name = s.graph.sets.representative c)
    (hlabels : ∀ f ∈ fs, ∀ l ∈ f.labels, l ∈ s.graph.classes) :
    ∃ chunks', fs.foldlM (Chunkify.pushFunction s) chunks = some chunks' ∧
      Collects kf s.graph.sets.representative ((fs.map Function.name).reverse ++ ns)
        ((fs.flatMap Function.labels).reverse ++ ls) chunks' := by
  induction fs generalizing ns ls chunks with
  | nil => exact ⟨chunks, rfl, h⟩
  | cons f fs ih =>
    obtain ⟨c, hc, hkf⟩ := hfunc f mem_cons_self
    obtain ⟨chunks1, hchunks1, h1⟩ := h.pushFunction hc hkf (hlabels f mem_cons_self)
    obtain ⟨chunks2, hchunks2, h2⟩ := ih h1 (fun f' hf' => hfunc f' (mem_cons_of_mem _ hf'))
      (fun f' hf' => hlabels f' (mem_cons_of_mem _ hf'))
    refine ⟨chunks2, by simp [foldlM_cons, hchunks1, hchunks2], ?_⟩
    simpa using h2

end Collects

/-- Picking the elements by their keys finds each of them once. -/
theorem count_flatMap_filter {α : Type} [DecidableEq α] {k : α → L} (xs : List α) (ks : List L)
    (hks : ks.Nodup) {x : α} (hx : k x ∈ ks) :
    (ks.flatMap fun c => xs.filter fun y => k y = c).count x = xs.count x := by
  induction ks with
  | nil => cases hx
  | cons c ks ih =>
    obtain ⟨hc, hks⟩ := nodup_cons.1 hks
    rw [flatMap_cons, count_append]
    by_cases heq : k x = c
    · have hrest : (ks.flatMap fun c => xs.filter fun y => k y = c).count x = 0 := by
        rw [count_eq_zero, mem_flatMap]
        rintro ⟨c', hc', hmem⟩
        have hkey : k x = c' := by simpa using (mem_filter.1 hmem).2
        exact hc (heq ▸ hkey ▸ hc')
      rw [hrest, count_filter (by simpa using heq), Nat.add_zero]
    · have hfirst : (xs.filter fun y => k y = c).count x = 0 := by
        rw [count_eq_zero]
        exact fun hmem => heq (by simpa using (mem_filter.1 hmem).2)
      rw [hfirst, Nat.zero_add, ih hks ((mem_cons.1 hx).resolve_left heq)]

/-! ### All policies -/

variable [DecidableEq F]

/-- Chunks by a key of functions and labels, such that jumps stay in one chunk. -/
theorem Collects.isChunking (h : p.WellFormed) {kf : F → L} {kl : L → L}
    (hc : Collects kf kl (p.names.reverse ++ []) (p.labels.reverse ++ []) chunks)
    (hstart : ∀ f ∈ p.all, kf f.name = kl f.start)
    (hjumps : ∀ f ∈ p.all, ∀ l l', Jumps f l l' → kl l = kl l') :
    IsChunking p (chunks.map Prod.snd) := by
  have hname {f : Function F L V ν} (hf : f ∈ p.all) : f.name ∈ p.names.reverse ++ [] := by
    rw [append_nil, mem_reverse]
    exact mem_map_of_mem hf
  have hlabel {f : Function F L V ν} (hf : f ∈ p.all) {l : L} (hl : l ∈ f.labels) :
      l ∈ p.labels.reverse ++ [] := by
    rw [append_nil, mem_reverse]
    exact mem_flatMap.2 ⟨f, hf, hl⟩
  -- two labels with one key are in the chunk of that key
  have htogether {l l' : L} (hl : l ∈ p.labels.reverse ++ []) (hl' : l' ∈ p.labels.reverse ++ [])
      (hkey : kl l = kl l') : ∃ c ∈ chunks.map Prod.snd, l ∈ c.labels ∧ l' ∈ c.labels := by
    obtain ⟨ch, hch, hfst⟩ := mem_map.1 (hc.labelKey l hl)
    refine ⟨ch.2, mem_map_of_mem hch, ?_⟩
    rw [hc.labels ch hch]
    exact ⟨mem_filter.2 ⟨hl, by simp [hfst]⟩, mem_filter.2 ⟨hl', by simp [hfst, hkey]⟩⟩
  constructor
  · intro f hf
    have hfuncs : (chunks.map Prod.snd).flatMap Chunk.funcs =
        (chunks.map Prod.fst).flatMap fun c => (p.names.reverse ++ []).filter fun n => kf n = c := by
      rw [flatMap_map, flatMap_map]
      exact flatMap_congr fun ch hch => hc.funcs ch hch
    rw [hfuncs, count_flatMap_filter _ _ hc.nodup (hc.funcKey _ (hname hf))]
    refine count_eq_one_of_mem ?_ (hname hf)
    rw [append_nil, nodup_reverse]
    exact h.names_nodup
  · intro f hf l hl
    have hlabels : (chunks.map Prod.snd).flatMap Chunk.labels =
        (chunks.map Prod.fst).flatMap fun c =>
          (p.labels.reverse ++ []).filter fun l => kl l = c := by
      rw [flatMap_map, flatMap_map]
      exact flatMap_congr fun ch hch => hc.labels ch hch
    rw [hlabels, count_flatMap_filter _ _ hc.nodup (hc.labelKey _ (hlabel hf hl))]
    refine count_eq_one_of_mem ?_ (hlabel hf hl)
    rw [append_nil, nodup_reverse]
    exact h.labels_nodup
  · intro f hf
    obtain ⟨ch, hch, hfst⟩ := mem_map.1 (hc.funcKey _ (hname hf))
    refine ⟨ch.2, mem_map_of_mem hch, ?_, ?_⟩
    · rw [hc.funcs ch hch]
      exact mem_filter.2 ⟨hname hf, by simp [hfst]⟩
    · rw [hc.labels ch hch]
      exact mem_filter.2 ⟨hlabel hf (h.start_mem f hf), by simp [hfst, hstart f hf]⟩
  · intro f hf l hl l' hreach
    have hboth : kl l = kl l' ∧ l' ∈ f.labels := by
      induction hreach with
      | refl => exact ⟨rfl, hl⟩
      | tail _ hstep ih =>
        have ⟨b, hb, _, hmem⟩ := hstep
        exact ⟨ih.1.trans (hjumps f hf _ _ hstep),
          h.jumps_mem f hf b hb _ (Transfer.mem_labels_of_mem_jumps hmem)⟩
    exact htogether (hlabel hf hl) (hlabel hf hboth.2) hboth.1

omit [DecidableEq F] [DecidableEq L] in
/-- A function's labels contain what is reached from them by jumps. -/
theorem mem_labels_of_reach (h : p.WellFormed)
    (hf : f ∈ p.all) {l l' : L} (hl : l ∈ f.labels) (hreach : ReflTransGen (Jumps f) l l') :
    l' ∈ f.labels := by
  induction hreach with
  | refl => exact hl
  | tail _ hstep _ =>
    obtain ⟨b, hb, -, hmem⟩ := hstep
    exact h.jumps_mem f hf b hb _ (Transfer.mem_labels_of_mem_jumps hmem)

/-- Chunks that have the names and labels of the program, in some order, and every function with
all its labels. -/
theorem isChunking_of_functions (h : p.WellFormed)
    {chunks : List (Chunk F L)} (hfuncs : chunks.flatMap Chunk.funcs = p.names)
    (hlabels : chunks.flatMap Chunk.labels = p.labels)
    (hwhole : ∀ f ∈ p.all, ∃ c ∈ chunks, f.name ∈ c.funcs ∧ f.labels ⊆ c.labels) :
    IsChunking p chunks := by
  constructor
  · intro f hf
    rw [hfuncs]
    exact count_eq_one_of_mem h.names_nodup (mem_map_of_mem hf)
  · intro f hf l hl
    rw [hlabels]
    exact count_eq_one_of_mem h.labels_nodup (mem_flatMap.2 ⟨f, hf, hl⟩)
  · intro f hf
    obtain ⟨c, hc, hname, hsub⟩ := hwhole f hf
    exact ⟨c, hc, hname, hsub (h.start_mem f hf)⟩
  · intro f hf l hl l' hreach
    obtain ⟨c, hc, -, hsub⟩ := hwhole f hf
    exact ⟨c, hc, hsub hl, hsub (mem_labels_of_reach h hf hl hreach)⟩

theorem isChunking_chunkPerFunc (h : p.WellFormed) : IsChunking p (chunkPerFunc p) := by
  refine isChunking_of_functions h ?_ ?_ fun f hf => ?_
  · rw [chunkPerFunc, flatMap_map, Program.names, map_eq_flatMap]
  · rw [chunkPerFunc, flatMap_map, Program.labels]
  · exact ⟨_, mem_map_of_mem hf, mem_singleton_self _, List.Subset.refl _⟩

theorem isChunking_oneChunk (h : p.WellFormed) : IsChunking p (oneChunk p) := by
  refine isChunking_of_functions h ?_ ?_ fun f hf => ?_
  · simp [oneChunk, Program.names]
  · simp [oneChunk, Program.labels]
  · refine ⟨_, mem_singleton_self _, mem_map_of_mem hf, fun l hl => ?_⟩
    exact mem_flatMap.2 ⟨f, hf, hl⟩

omit [DecidableEq F] [DecidableEq L] in
/-- The continuations that are found are labels of the program. -/
theorem returnsTo_subset (h : p.WellFormed) {R : F → List L}
    (hR : IsLeast {R : F → Set L | Solves (namedBlocks p) R} (fun f => {l | l ∈ R f})) (f : F)
    {l : L} (hl : l ∈ R f) : ∃ f' ∈ p.all, l ∈ f'.labels := by
  have hsolves : Solves (namedBlocks p) (fun _ => {l | ∃ f' ∈ p.all, l ∈ f'.labels}) := by
    refine ⟨fun nb hnb args func cont handler ht => ?_, fun _ _ _ _ _ _ _ => Set.Subset.refl _⟩
    obtain ⟨f', hf', -, hb⟩ := mem_namedBlocks.1 hnb
    refine ⟨f', hf', h.jumps_mem f' hf' nb.2 hb cont ?_⟩
    rw [ht]
    cases handler <;> simp [Transfer.labels, Return.labels]
  exact hR.2 hsolves f hl

omit [DecidableEq F] in
/-- A chunk is a class of the graph: within the limit, or as it was before coarsening. -/
theorem Collects.withinLimit (h : p.WellFormed) {profile : Bool} {limit : ℕ}
    {g g' : EquivalenceGraph L} {kf : F → L}
    (hc : Collects kf g'.sets.representative (p.names.reverse ++ []) (p.labels.reverse ++ []) chunks)
    (hcoarsens : g.Coarsens limit g')
    (hweighs : g'.sets.Weighs g.classes.toFinset (labelSize profile p))
    (hsame : ∀ a b, g.Same a b ↔ Forced p a b) (hclasses : ∀ l, l ∈ g.classes ↔ l ∈ p.labels)
    (ch : L × Chunk F L) (hch : ch ∈ chunks) : (ch.2.labels.map (labelSize profile p)).sum ≤ limit ∨
      ∀ l ∈ ch.2.labels, ∀ l' ∈ ch.2.labels, Forced p l l' := by
  have hmem (l : L) : l ∈ ch.2.labels ↔ l ∈ p.labels ∧ g'.sets.representative l = ch.1 := by
    rw [hc.labels ch hch]
    simp
  rcases hlabels : ch.2.labels with _ | ⟨a, ls⟩
  · exact .inl (by simp)
  rw [← hlabels]
  obtain ⟨ha, hkey⟩ := (hmem a).1 (by simp [hlabels])
  have hin {l : L} (hl : l ∈ ch.2.labels) : g'.Same a l := hkey.trans ((hmem l).1 hl).2.symm
  rcases hcoarsens.bound a with hsize | hold
  · left
    have hnodup : ch.2.labels.Nodup := by
      rw [hc.labels ch hch, append_nil]
      exact (nodup_reverse.2 h.labels_nodup).filter _
    have hfilter : g.classes.toFinset.filter (fun l => g'.sets.Same a l) = ch.2.labels.toFinset := by
      ext l
      rw [Finset.mem_filter, mem_toFinset, mem_toFinset, hmem, hclasses]
      exact and_congr_right fun _ =>
        ⟨fun hl => Eq.trans (Eq.symm hl) hkey, fun hl => Eq.trans hkey (Eq.symm hl)⟩
    have hsum := hweighs a (mem_toFinset.2 ((hclasses a).2 ha))
    rw [hfilter, sum_toFinset _ hnodup] at hsum
    rw [← hsum]
    exact hsize
  · right
    intro l hl l' hl'
    exact .trans _ _ _ (.symm _ _ ((hsame a l).1 (hold l (hin hl))))
      ((hsame a l').1 (hold l' (hin hl')))

/-- Coalescing, step by step. -/
theorem coalesce_spec (S : Sorter) (profile : Bool) (h : p.WellFormed)
    (limit : ℕ) : ∃ chunks, coalesce S profile p limit = some chunks ∧ IsChunking p chunks ∧
      WithinLimit profile p limit chunks := by
  obtain ⟨s, hs, hbuilt⟩ := foldlM_initFunction profile h
  obtain ⟨R, hR, hleast⟩ := returnsTo_isLeast h
  obtain ⟨s1, hs1, hedged⟩ := foldlM_addFunctionEdges h hbuilt (fun f l hl =>
    (hbuilt.classes l).2 (returnsTo_subset h hleast f hl))
  have hmem {f : Function F L V ν} (hf : f ∈ p.all) {l : L} (hl : l ∈ f.labels) :
      l ∈ s1.graph.classes := by
    rw [hedged.classes_eq]
    exact (hbuilt.classes l).2 ⟨f, hf, hl⟩
  -- what coarsening leaves
  obtain ⟨s2, hs2, hfunc2, hcoarsens, hweighs⟩ : ∃ s2 : Classes F L,
      (if limit = 0 then s1 else { s1 with graph := s1.graph.coarsen S limit }) = s2 ∧
      s2.funcClass = s1.funcClass ∧ s1.graph.Coarsens limit s2.graph ∧
      s2.graph.sets.Weighs s1.graph.classes.toFinset (labelSize profile p) := by
    have hweighs : s1.graph.sets.Weighs s1.graph.classes.toFinset (labelSize profile p) := by
      rw [hedged.sets_eq, hedged.classes_eq]
      exact hbuilt.sized.weighs
    refine ⟨_, rfl, ?_⟩
    split_ifs
    · exact ⟨rfl, .refl limit, hweighs⟩
    · refine ⟨rfl, EquivalenceGraph.coarsens_coarsen S limit,
        EquivalenceGraph.weighs_coarsen hweighs (fun c hc => mem_toFinset.2 hc) fun e he => ?_⟩
      have hends := hedged.edges e he
      rw [← hedged.classes_eq] at hends
      exact ⟨mem_toFinset.2 hends.1, mem_toFinset.2 hends.2⟩
  have hsame (a b : L) : s1.graph.Same a b ↔ Forced p a b := by
    rw [EquivalenceGraph.Same, hedged.sets_eq]
    exact hbuilt.same a b
  have hclass {f : Function F L V ν} (hf : f ∈ p.all) : s2.funcClass f.name = some f.start := by
    rw [hfunc2, hedged.funcClass_eq]
    exact hbuilt.funcs f hf
  -- the chunks of the classes
  let kf (n : F) : L := s2.graph.sets.representative ((s2.funcClass n).getD p.main.start)
  have hempty : Collects kf s2.graph.sets.representative [] [] ([] : List (L × Chunk F L)) :=
    ⟨List.nodup_nil, by simp, by simp, by simp, by simp⟩
  obtain ⟨chunks, hchunks, hcollects⟩ := hempty.pushFunctions p.all
    (fun f hf => ⟨f.start, hclass hf, by simp [kf, hclass hf]⟩)
    (fun f hf l hl => by
      rw [hcoarsens.classes_eq]
      exact hmem hf hl)
  refine ⟨chunks.map Prod.snd, ?_, hcollects.isChunking h (fun f hf => by simp [kf, hclass hf]) ?_,
    ?_⟩
  · simp only [coalesce, hs, hR, hs1, Option.bind_eq_bind, Option.bind_some, hs2, hchunks]
  · exact fun f hf l l' hjump => hcoarsens.le l l' ((hsame l l').2 (.rel _ _ ⟨f, hf, hjump⟩))
  · intro c hc
    obtain ⟨ch, hch, rfl⟩ := mem_map.1 hc
    exact hcollects.withinLimit h hcoarsens hweighs hsame (fun l => by
      rw [hedged.classes_eq, hbuilt.classes]
      exact (mem_flatMap).symm) ch hch

/-- **Chunks**: whatever the policy, a well-formed program is divided into chunks, coalescing keeps
within its limit, and the continuations that it goes by are the least solution of their equations. -/
theorem chunkify_valid (S : Sorter) (profile : Bool) (policy : Policy) (p : Program F L V ν)
    (h : p.WellFormed) :
    ∃ chunks, chunkify S profile policy p = some chunks ∧ IsChunking p chunks ∧
      (∀ limit, policy = .coalesce limit → WithinLimit profile p limit chunks) ∧
      ∃ R, returnsTo p = some R ∧
        IsLeast {R : F → Set L | Solves (namedBlocks p) R} (fun f => {l | l ∈ R f}) := by
  have hreturns := returnsTo_isLeast h
  cases policy with
  | chunkPerFunc =>
    exact ⟨_, rfl, isChunking_chunkPerFunc h, fun limit h => (nomatch h), hreturns⟩
  | oneChunk => exact ⟨_, rfl, isChunking_oneChunk h, fun limit h => (nomatch h), hreturns⟩
  | coalesce limit =>
    obtain ⟨chunks, hchunks, hchunking, hlimit⟩ := coalesce_spec S profile h limit
    refine ⟨chunks, hchunks, hchunking, fun limit' heq => ?_, hreturns⟩
    cases heq
    exact hlimit

/-- The main function calls one that calls itself in tail position, in a block of its own. -/
def tailLoop : Program Bool ℕ Unit Unit where
  functions := [
    { args := []
      blocks := [⟨[], .jump, 3, [], .goto [] 4⟩, ⟨[], .jump, 4, [], .call [] true .tail⟩]
      name := true
      start := 3 }]
  main :=
    { args := []
      blocks := [⟨[], .jump, 0, [], .call [] true (.nonTail 1 (.handle 2))⟩,
        ⟨[], .cont (.handle 2), 1, [], .ret []⟩, ⟨[], .handler, 2, [], .raise []⟩]
      name := false
      start := 0 }

theorem chunkify_valid_tailLoop :
    ∃ chunks, chunkify ⟨fun _ l => l, fun _ l => .refl l⟩ false (.coalesce 1) tailLoop = some chunks ∧
      IsChunking tailLoop chunks ∧
      (∀ limit, Policy.coalesce 1 = .coalesce limit → WithinLimit false tailLoop limit chunks) ∧
      ∃ R, returnsTo tailLoop = some R ∧
        IsLeast {R : Bool → Set ℕ | Solves (namedBlocks tailLoop) R} (fun f => {l | l ∈ R f}) :=
  chunkify_valid _ false (.coalesce 1) tailLoop
    { names_nodup := by decide
      labels_nodup := by decide
      start_mem := by simp [tailLoop, Program.all, Function.labels]
      jumps_mem := by
        simp [tailLoop, Program.all, Function.labels, Transfer.labels, Transfer.jumps, Return.labels]
      func_mem := by simp [tailLoop, Program.all, Program.names] }

end Chunkify

end MultiMLton.Backend
