import MultiMLton.Ssa.LoopInvariant

/-!
# The blocks that the pass makes

A block that is visited becomes a `body` with its statements, and if it is split, a `head` with its
label, which jumps to the body. Only blocks that can be reached are visited, so what they use is bound
somewhere, and the new names are new.

* `mem_function`: the blocks of the new function;
* `repeats_of_visit`: what jumps back pass to invariant formals;
* `labels_nodup`, `defs_nodup`: nothing is bound twice.
-/

namespace MultiMLton.Ssa.LoopInvariant

open MultiMLton.Lib Dfs List

variable {P : Program} {Γ : Var → Ty} {f : Function} {b c : Block} {K : Label → Bool} {info : Info}
  {l : Label} {x : Var}

/-! ### Heads and bodies -/

def bodyLabel (P : Program) (info : Info) (l : Label) : Label :=
  if info.changed l then newLabel P l else l

def bodyFormals (info : Info) (b : Block) : List (Var × Ty) :=
  if info.changed b.label then innerFormals b.args (info.invariant b.label) else b.args

def body (P : Program) (info : Info) (K : Label → Bool) (b : Block) : Block :=
  ⟨bodyFormals info b, bodyLabel P info b.label, b.statements,
    redirect info (labelsAt P info K) b.transfer⟩

def head (P : Program) (info : Info) (b : Block) : Block :=
  ⟨outerFormals P b.args (info.invariant b.label), b.label, [],
    .goto (newLabel P b.label) (innerActuals P b.args (info.invariant b.label))⟩

theorem split_eq (hK : K b.label = true) : split P info (labelsAt P info K) b =
    if info.changed b.label then [head P info b, body P info K b] else [body P info K b] := by
  by_cases hc : info.changed b.label = true
  · have hlabel : labelsAt P info K b.label = some (newLabel P b.label) := by simp [labelsAt, hK, hc]
    rw [split, hlabel, if_pos hc, body, bodyFormals, bodyLabel, if_pos hc, if_pos hc]
    rfl
  · have hlabel : labelsAt P info K b.label = none := by simp [labelsAt, hc]
    rw [split, hlabel, if_neg hc, body, bodyFormals, bodyLabel, if_neg hc, if_neg hc]

theorem mem_function : c ∈ (function P f).blocks ↔ ∃ b K, (b, K) ∈ visitsOf f ∧
    (c = body P (infoOf f) K b ∨
      (infoOf f).changed b.label = true ∧ c = head P (infoOf f) b) := by
  rw [(blocks_perm f).mem_iff, mem_flatMap]
  constructor
  · rintro ⟨⟨b, K⟩, hv, hc⟩
    rw [split_eq (active_of_mem_visits hv)] at hc
    refine ⟨b, K, hv, ?_⟩
    split_ifs at hc with hchanged
    · rcases mem_cons.1 hc with rfl | hc
      · exact .inr ⟨hchanged, rfl⟩
      · exact .inl (mem_singleton.1 hc)
    · exact .inl (mem_singleton.1 hc)
  · rintro ⟨b, K, hv, hc⟩
    refine ⟨(b, K), hv, ?_⟩
    rw [split_eq (active_of_mem_visits hv)]
    rcases hc with rfl | ⟨hchanged, rfl⟩
    · split_ifs <;> simp
    · rw [if_pos hchanged]
      exact mem_cons_self

theorem body_mem (hv : (b, K) ∈ visitsOf f) : body P (infoOf f) K b ∈ (function P f).blocks :=
  mem_function.2 ⟨b, K, hv, .inl rfl⟩

theorem head_mem (hv : (b, K) ∈ visitsOf f) (hc : (infoOf f).changed b.label = true) :
    head P (infoOf f) b ∈ (function P f).blocks :=
  mem_function.2 ⟨b, K, hv, .inr ⟨hc, rfl⟩⟩

/-! ### The blocks that are visited -/

section Visits

variable (h : P.WellTyped Γ) (hf : f ∈ P.functions)

theorem mem_entered : b ∈ entered (events f) ↔ ∃ K, (b, K) ∈ visitsOf f := by
  rw [← map_fst_visits (fun _ => false), mem_map]
  constructor
  · rintro ⟨⟨b, K⟩, hv, rfl⟩
    exact ⟨K, hv⟩
  · rintro ⟨K, hv⟩
    exact ⟨_, hv, rfl⟩

include h hf

theorem exists_searched : ∃ visited,
    (∀ fuel, f.blocks.length < fuel → ∀ {σ : Type} (v v' : Block → σ → σ) (s : σ),
      f.dfs v v' fuel f.start (fun _ => false, s) =
        some (visited, (events f).foldl (act v v') s)) ∧
      Searched f [f.start] (fun _ => false) (events f) visited := by
  obtain ⟨b, hb, hl, -⟩ := h.exists_start hf
  exact dfs_events (fun b hb l hl => h.exists_block hf hb hl) ⟨b, hb, hl⟩

theorem mem_of_visit (hv : (b, K) ∈ visitsOf f) : b ∈ f.blocks ∧ f.Reaches b.label := by
  obtain ⟨visited, -, hs⟩ := exists_searched h hf
  have hb := mem_entered.2 ⟨K, hv⟩
  obtain ⟨l, hl, hreach⟩ := hs.reach b hb
  rw [mem_singleton.1 hl] at hreach
  exact ⟨(hs.mem b hb).1, hreach⟩

theorem exists_visit (hv : (b, K) ∈ visitsOf f) (hl : l ∈ b.transfer.labels) :
    ∃ c K, (c, K) ∈ visitsOf f ∧ c.label = l := by
  obtain ⟨visited, -, hs⟩ := exists_searched h hf
  have hvisited := (hs.iff l).1 (hs.succ b (mem_entered.2 ⟨K, hv⟩) l hl)
  obtain ⟨c, hc, rfl⟩ := hvisited.resolve_left nofun
  obtain ⟨K', hv'⟩ := mem_entered.1 hc
  exact ⟨c, K', hv', rfl⟩

theorem exists_visit_of_reaches (hl : f.Reaches l) : ∃ c K, (c, K) ∈ visitsOf f ∧ c.label = l := by
  induction hl with
  | refl =>
    obtain ⟨visited, -, hs⟩ := exists_searched h hf
    have hvisited := (hs.iff f.start).1 (hs.self f.start (mem_singleton_self _))
    obtain ⟨c, hc, hl⟩ := hvisited.resolve_left nofun
    obtain ⟨K, hv⟩ := mem_entered.1 hc
    exact ⟨c, K, hv, hl⟩
  | tail _ hedge ih =>
    obtain ⟨b, K, hv, rfl⟩ := ih
    obtain ⟨b', hb', hlabel, hl⟩ := hedge
    obtain rfl := h.block_unique (Program.mem_blocks.2 ⟨f, hf, hb'⟩)
      (Program.mem_blocks.2 ⟨f, hf, (mem_of_visit h hf hv).1⟩) hlabel
    exact exists_visit h hf hv hl

theorem visit_of_reaches (hb : b ∈ f.blocks) (hl : f.Reaches b.label) : ∃ K, (b, K) ∈ visitsOf f := by
  obtain ⟨c, K, hv, hlabel⟩ := exists_visit_of_reaches h hf hl
  obtain rfl := h.block_unique (Program.mem_blocks.2 ⟨f, hf, (mem_of_visit h hf hv).1⟩)
    (Program.mem_blocks.2 ⟨f, hf, hb⟩) hlabel
  exact ⟨K, hv⟩

/-! ### What the first search finds -/

theorem find_block (hb : b ∈ f.blocks) : f.blocks.find? (·.label = b.label) = some b := by
  have hlabels := h.labels
  rw [Program.blocks, map_flatMap] at hlabels
  exact (find?_key_iff ((nodup_flatMap.1 hlabels).1 f hf)).2 ⟨hb, rfl⟩

/-- What a jump passes. -/
theorem goto_typed (hb : b ∈ f.blocks) (hc : c ∈ f.blocks) {args : List Var}
    (ht : b.transfer = .goto c.label args) : args.map Γ = c.args.map Prod.snd := by
  have htyped := (h.functions f hf).transfers b hb
  rw [ht, Function.TransferTyped, Function.labelTypes, find_block h hf hc] at htyped
  exact (Option.some.inj htyped).symm

theorem init_invariant (hb : b ∈ f.blocks) :
    (Info.init f).invariant b.label = b.args.map fun x => (x.1, true) := by
  rw [Info.init]
  dsimp only
  rw [find_block h hf hb]
  rfl

theorem later_infoOf : Info.Later (.init f) (infoOf f) ∧
    ∀ b K, (b, K) ∈ visitsOf f → ∀ dst args, b.transfer = .goto dst args → K dst = true →
      (infoOf f).Repeats dst args := by
  refine Info.later_foldl fun b hb dst args ht => ?_
  obtain ⟨K, hv⟩ := mem_entered.1 hb
  obtain ⟨hb, -⟩ := mem_of_visit h hf hv
  obtain ⟨c, hc, rfl⟩ := h.exists_block hf hb (l := dst) (by simp [ht, Transfer.labels])
  rw [init_invariant h hf hc, length_map]
  simpa using congrArg List.length (goto_typed h hf hb hc ht)

theorem invariant_formals (hb : b ∈ f.blocks) :
    ((infoOf f).invariant b.label).map Prod.fst = b.formals := by
  rw [(later_infoOf h hf).1.formals, init_invariant h hf hb, map_map]
  rfl

theorem length_invariant (hb : b ∈ f.blocks) :
    ((infoOf f).invariant b.label).length = b.args.length := by
  have hlen := congrArg List.length (invariant_formals h hf hb)
  rwa [length_map, Block.formals, length_map] at hlen

/-- A jump back passes the invariant formals themselves. -/
theorem repeats_of_visit (hv : (b, K) ∈ visitsOf f) {dst : Label} {args : List Var}
    (ht : b.transfer = .goto dst args) (hK : K dst = true) : (infoOf f).Repeats dst args :=
  (later_infoOf h hf).2 b K hv dst args ht hK

/-- A block that is split is visited. -/
theorem visit_of_changed (hb : b ∈ f.blocks) (hc : (infoOf f).changed b.label = true) :
    ∃ K, (b, K) ∈ visitsOf f := by
  rcases Info.callsSelf_foldl (Bool.and_eq_true_iff.1 hc).1 with hnot | ⟨c, hc, args, ht⟩
  · cases hnot
  · obtain ⟨K, hv⟩ := mem_entered.1 hc
    obtain ⟨b', K', hv', hl⟩ := exists_visit h hf hv (l := b.label) (by simp [ht, Transfer.labels])
    obtain rfl := h.block_unique (Program.mem_blocks.2 ⟨f, hf, (mem_of_visit h hf hv').1⟩)
      (Program.mem_blocks.2 ⟨f, hf, hb⟩) hl
    exact ⟨K', hv'⟩

/-! ### New names -/

omit h hf in
theorem lt_varBound (hx : x ∈ P.defs) : x < varBound P :=
  Nat.lt_succ_of_le (le_max_of_le hx le_rfl)

omit h hf in
theorem lt_labelBound (hb : b ∈ P.blocks) : b.label < labelBound P :=
  Nat.lt_succ_of_le (le_max_of_le (mem_map_of_mem hb) le_rfl)

omit h in
theorem label_lt (hb : b ∈ f.blocks) : b.label < labelBound P :=
  lt_labelBound (Program.mem_blocks.2 ⟨f, hf, hb⟩)

omit h in
theorem arg_lt (hx : x ∈ f.args.map Prod.fst) : x < varBound P :=
  lt_varBound (Program.mem_defs.2 (.inr (.inl ⟨_, Program.args_mem_formalLists hf, hx⟩)))

omit h in
theorem bound_lt (hb : b ∈ f.blocks) (hx : x ∈ b.formals ∨ x ∈ b.binds) : x < varBound P := by
  refine lt_varBound (Program.mem_defs.2 (.inr ?_))
  rcases hx with hx | hx
  · exact .inl ⟨_, Program.formals_mem_formalLists hf hb, hx⟩
  · exact .inr ⟨b, Program.mem_blocks.2 ⟨f, hf, hb⟩, hx⟩

omit h in
theorem inScope_lt (hx : f.InScope P.globalVars l x) : x < varBound P := by
  cases hx with
  | global hg => exact lt_varBound (Program.mem_defs.2 (.inl hg))
  | arg ha => exact arg_lt hf ha
  | formal b hb hx _ => exact bound_lt hf hb (.inl hx)
  | statement b hb hx _ _ => exact bound_lt hf hb (.inr hx)

section Scoped

variable (hscoped : P.WellScoped) (hv : (b, K) ∈ visitsOf f)

include hscoped hv

theorem statement_lt {s : Statement} (hs : s ∈ b.statements) (hx : x ∈ s.exp.vars) :
    x < varBound P := by
  obtain ⟨hb, hreach⟩ := mem_of_visit h hf hv
  obtain ⟨pre, post, heq⟩ := append_of_mem hs
  rcases (hscoped.functions f hf).statements b hb hreach pre s post heq x hx with hx | hx
  · exact inScope_lt hf hx
  · refine bound_lt hf hb (.inr ?_)
    rw [Block.binds, heq, filterMap_append]
    exact mem_append_left _ hx

theorem transfer_lt (hx : x ∈ b.transfer.vars) : x < varBound P := by
  obtain ⟨hb, hreach⟩ := mem_of_visit h hf hv
  rcases (hscoped.functions f hf).transfers b hb hreach x hx with hx | hx
  · exact inScope_lt hf hx
  · exact bound_lt hf hb (.inr hx)

/-- A formal that is used is that of a block on every way. -/
theorem dominates_of_formal (hc : c ∈ f.blocks) (hx : x ∈ c.formals) (hused : x ∈ b.transfer.vars) :
    f.Dominates c.label b.label := by
  obtain ⟨hb, hreach⟩ := mem_of_visit h hf hv
  exact h.dominates_of_formal hf hc hb hx ((hscoped.functions f hf).transfers b hb hreach x hused)

end Scoped

end Visits

/-! ### Nothing is bound twice -/

section Nodup

theorem subperm_flatMap {α β : Type} {l : List α} {g g' : α → List β}
    (h : ∀ a ∈ l, List.Subperm (g a) (g' a)) : List.Subperm (l.flatMap g) (l.flatMap g') := by
  induction l with
  | nil => exact .refl _
  | cons a l ih =>
    rw [forall_mem_cons] at h
    exact h.1.append (ih h.2)

/-- Some names with new ones. -/
theorem nodup_append_new {xs ys zs : List ℕ} {n : ℕ} (hxs : List.Subperm xs zs)
    (hys : List.Subperm ys zs) (hzs : zs.Nodup) (hlt : ∀ z ∈ zs, z < n) :
    (xs ++ ys.map (n + ·)).Nodup := by
  have hnodup {xs : List ℕ} (h : List.Subperm xs zs) : xs.Nodup := by
    obtain ⟨xs', hperm, hsub⟩ := h
    exact hperm.nodup_iff.1 (hzs.sublist hsub)
  refine nodup_append.2 ⟨hnodup hxs, (hnodup hys).map (add_right_injective n), ?_⟩
  rintro x hx _ hy rfl
  obtain ⟨y, -, heq⟩ := mem_map.1 hy
  have hx := hlt x (hxs.subset hx)
  omega

/-- The blocks that are visited and those that are split. -/
theorem flatMap_visits_perm {g : Block → List ℕ} {g' : Block → List ℕ} {n : ℕ}
    {k : Block → List ℕ} (hk : ∀ b K, (b, K) ∈ visitsOf f →
      ((split P (infoOf f) (labelsAt P (infoOf f) K) b).flatMap k).Perm
        (g b ++ (g' b).map (n + ·))) :
    ((function P f).blocks.flatMap k).Perm
      ((entered (events f)).flatMap g ++ ((entered (events f)).flatMap g').map (n + ·)) := by
  refine ((blocks_perm f).flatMap_right k).trans ?_
  rw [flatMap_assoc]
  refine (List.Perm.flatMap_left _ fun v hv => hk v.1 v.2 hv).trans ?_
  rw [← map_fst_visits (fun _ => false), flatMap_map, flatMap_map, map_flatMap]
  exact (flatMap_append_perm _ _ _).symm

variable (h : P.WellTyped Γ)

include h

theorem entered_subperm (hf : f ∈ P.functions) : List.Subperm (entered (events f)) f.blocks := by
  obtain ⟨visited, -, hs⟩ := exists_searched h hf
  exact subperm_of_subset hs.nodup.of_map fun b hb => (hs.mem b hb).1

theorem entered_flatMap_subperm (hf : f ∈ P.functions) (g : Block → List ℕ) :
    List.Subperm ((entered (events f)).flatMap g) (f.blocks.flatMap g) := by
  obtain ⟨bs, hperm, hsub⟩ := entered_subperm h hf
  exact ⟨bs.flatMap g, hperm.flatMap_right g, hsub.flatMap g⟩

theorem labels_nodup : ((transform P).blocks.map Block.label).Nodup := by
  have hsplit (f : Function) (b : Block) (K : Label → Bool) (hv : (b, K) ∈ visitsOf f) :
      ((split P (infoOf f) (labelsAt P (infoOf f) K) b).flatMap fun c => [c.label]).Perm
        ([b.label] ++ (if (infoOf f).changed b.label then [b.label] else []).map
          (labelBound P + ·)) := by
    rw [split_eq (active_of_mem_visits hv), body, bodyLabel]
    split_ifs <;> exact .refl _
  have hperm : ((transform P).blocks.map Block.label).Perm
      (P.functions.flatMap (fun f => (entered (events f)).flatMap fun b => [b.label]) ++
        (P.functions.flatMap fun f => (entered (events f)).flatMap fun b =>
          if (infoOf f).changed b.label then [b.label] else []).map (labelBound P + ·)) := by
    refine (Program.labels_revMap P (function P)).trans ?_
    rw [map_flatMap]
    refine (List.Perm.flatMap_left _ fun f _ => ?_).trans (flatMap_append_perm _ _ _).symm
    rw [map_eq_flatMap]
    exact flatMap_visits_perm (hsplit f)
  rw [hperm.nodup_iff]
  have hlabels : P.blocks.map Block.label =
      P.functions.flatMap fun f => f.blocks.flatMap fun b => [b.label] := by
    rw [Program.blocks, map_flatMap]
    exact flatMap_congr fun f _ => map_eq_flatMap
  refine nodup_append_new ?_ ?_ h.labels ?_
  · rw [hlabels]
    exact subperm_flatMap fun f hf => entered_flatMap_subperm h hf _
  · rw [hlabels]
    refine subperm_flatMap fun f hf => (entered_flatMap_subperm h hf _).trans ?_
    refine (List.Sublist.flatMap_right _ fun b _ => ?_).subperm
    split_ifs
    · exact .refl _
    · exact nil_sublist _
  · intro l hl
    obtain ⟨b, hb, rfl⟩ := mem_map.1 hl
    exact lt_labelBound hb

omit h in
theorem remove_sublist {β γ : Type} (xs : List β) (invariant : List (γ × Bool)) :
    (remove xs invariant).Sublist xs := by
  induction xs generalizing invariant with
  | nil => exact .refl _
  | cons x xs ih =>
    cases invariant with
    | nil => exact nil_sublist _
    | cons y invariant =>
      obtain ⟨y, i⟩ := y
      cases i with
      | true => exact (ih invariant).cons x
      | false => exact (ih invariant).cons_cons x

omit h in
/-- The variables that are bound for some formals. -/
theorem outer_inner_perm (args : List (Var × Ty)) (invariant : List (Var × Bool))
    (hlen : invariant.length = args.length) :
    ((outerFormals P args invariant).map Prod.fst ++ (remove args invariant).map Prod.fst).Perm
      (args.map Prod.fst ++ ((remove args invariant).map Prod.fst).map (varBound P + ·)) := by
  induction args generalizing invariant with
  | nil => simp [outerFormals, remove]
  | cons a args ih =>
    cases invariant with
    | nil => cases hlen
    | cons y invariant =>
      have ih := ih invariant (by simpa using hlen)
      obtain ⟨y, i⟩ := y
      cases i with
      | true => exact ih.cons a.1
      | false =>
        show (newVar P a.1 :: (outerFormals P args invariant).map Prod.fst ++
          a.1 :: (remove args invariant).map Prod.fst).Perm
            (a.1 :: args.map Prod.fst ++
              (varBound P + a.1) :: ((remove args invariant).map Prod.fst).map (varBound P + ·))
        refine List.Perm.trans ?_ perm_middle.symm
        refine List.Perm.cons _ ?_
        exact perm_middle.trans (ih.cons a.1)

theorem defs_nodup : (transform P).defs.Nodup := by
  let fresh (f : Function) (b : Block) : List Var :=
    if (infoOf f).changed b.label then
      (remove b.args ((infoOf f).invariant b.label)).map Prod.fst
    else []
  have hsplit {f : Function} (hf : f ∈ P.functions) (b : Block) (K : Label → Bool)
      (hv : (b, K) ∈ visitsOf f) :
      ((split P (infoOf f) (labelsAt P (infoOf f) K) b).flatMap fun c => c.formals ++ c.binds).Perm
        ((b.formals ++ b.binds) ++ (fresh f b).map (varBound P + ·)) := by
    rw [split_eq (active_of_mem_visits hv)]
    dsimp only [fresh]
    split_ifs with hc
    · have hperm := outer_inner_perm (P := P) b.args _
        (length_invariant h hf (mem_of_visit h hf hv).1)
      rw [flatMap_cons, flatMap_singleton, body, bodyFormals, if_pos hc]
      show ((outerFormals P b.args _).map Prod.fst ++ [] ++
        ((remove b.args _).map Prod.fst ++ b.binds)).Perm _
      rw [append_nil, ← append_assoc]
      refine (hperm.append_right _).trans ?_
      rw [append_assoc, append_assoc]
      exact List.Perm.append_left _ perm_append_comm
    · rw [flatMap_singleton, body, bodyFormals, if_neg hc, map_nil, append_nil]
      exact .refl _
  have hperm : (transform P).defs.Perm
      ((P.globalVars ++ P.functions.flatMap fun f => f.args.map Prod.fst ++
          (entered (events f)).flatMap fun b => b.formals ++ b.binds) ++
        (P.functions.flatMap fun f => (entered (events f)).flatMap (fresh f)).map
          (varBound P + ·)) := by
    refine (Program.defs_revMap P (function P)).trans ?_
    rw [append_assoc]
    refine List.Perm.append_left _ ?_
    rw [map_flatMap]
    refine (List.Perm.flatMap_left _ fun f hf => ?_).trans (flatMap_append_perm _ _ _).symm
    rw [append_assoc]
    exact List.Perm.append_left _ (flatMap_visits_perm (hsplit hf))
  rw [hperm.nodup_iff]
  have hdefs := P.defs_perm
  refine nodup_append_new ?_ ?_ h.defs fun x hx => lt_varBound hx
  · refine List.Subperm.trans ?_ hdefs.symm.subperm
    refine (List.Subperm.refl _).append (subperm_flatMap fun f hf => ?_)
    exact (List.Subperm.refl _).append (entered_flatMap_subperm h hf _)
  · refine List.Subperm.trans ?_ hdefs.symm.subperm
    refine List.Subperm.trans (subperm_flatMap fun f hf => ?_) (sublist_append_right _ _).subperm
    refine List.Subperm.trans ?_ (sublist_append_right _ _).subperm
    refine (entered_flatMap_subperm h hf _).trans ?_
    refine (List.Sublist.flatMap_right _ fun b _ => ?_).subperm
    dsimp only [fresh]
    split_ifs
    · refine List.Sublist.trans (List.Sublist.map _ ?_) (sublist_append_left _ _)
      exact remove_sublist _ _
    · exact nil_sublist _

end Nodup

end MultiMLton.Ssa.LoopInvariant
