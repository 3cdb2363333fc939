import MultiMLton.Ssa.LoopInvariantValues

/-!
# The program with split blocks is well formed

A new variable has the type of the variable that it is made for. On every way in the new function the
head of a block comes before its body, so a variable that is in scope in a block is in scope in its
body.

* `project`: ways in the new function are ways in the original one;
* `head_mem_path`: the head comes before the body;
* `dominates_body`: bodies dominate as their blocks do.
-/

namespace MultiMLton.Ssa.LoopInvariant

open MultiMLton.Lib Dfs List

variable {P : Program} {Γ : Var → Ty} {f : Function} {b c : Block} {K K' : Label → Bool} {info : Info}
  {l l' : Label} {x : Var}

/-! ### Types -/

/-- The types of the variables of the new program. -/
def newTypes (P : Program) (Γ : Var → Ty) (x : Var) : Ty :=
  if x < varBound P then Γ x else Γ (x - varBound P)

theorem newTypes_of_lt (hx : x < varBound P) : newTypes P Γ x = Γ x := if_pos hx

theorem newTypes_newVar : newTypes P Γ (newVar P x) = Γ x := by
  rw [newTypes, newVar, if_neg (not_lt.2 (Nat.le_add_right _ _)), Nat.add_sub_cancel_left]

theorem redirect_of_ne {newLabel : Label → Option Label} {t : Transfer}
    (h : ∀ dst args, t ≠ .goto dst args) : redirect info newLabel t = t := by
  cases t with
  | goto dst args => exact absurd rfl (h dst args)
  | _ => rfl

theorem outerFormals_types {args : List (Var × Ty)} {invariant : List (Var × Bool)}
    (hlen : invariant.length = args.length) :
    (outerFormals P args invariant).map Prod.snd = args.map Prod.snd := by
  have hsnd : (outerFormals P args invariant).map Prod.snd =
      ((args.zip invariant).map Prod.fst).map Prod.snd := by
    rw [outerFormals, map_map, map_map]
    refine map_congr_left fun a _ => ?_
    obtain ⟨⟨y, t⟩, z, i⟩ := a
    cases i <;> rfl
  rw [hsnd, map_fst_zip hlen.ge]

section Typed

variable (h : P.WellTyped Γ) (hf : f ∈ P.functions)

include h hf

theorem labelTypes_function (hc : c ∈ (function P f).blocks) :
    (function P f).labelTypes c.label = some (c.args.map Prod.snd) := by
  have hlabels := labels_nodup h
  rw [Program.blocks, map_flatMap] at hlabels
  have hnodup := (nodup_flatMap.1 hlabels).1 (function P f) (Program.mem_revMap.2 ⟨f, hf, rfl⟩)
  rw [Function.labelTypes, (find?_key_iff hnodup).2 ⟨hc, rfl⟩]
  rfl

/-- The label of a block has the formals of the block. -/
theorem labelTypes_of_visit (hv : (b, K) ∈ visitsOf f) :
    (function P f).labelTypes b.label = f.labelTypes b.label := by
  obtain ⟨hb, -⟩ := mem_of_visit h hf hv
  rw [Function.labelTypes.eq_def f, find_block h hf hb]
  by_cases hc : (infoOf f).changed b.label = true
  · refine (labelTypes_function h hf (head_mem hv hc)).trans ?_
    exact congrArg some (outerFormals_types (length_invariant h hf hb))
  · have htypes := labelTypes_function h hf (body_mem (P := P) hv)
    rw [body, bodyLabel, if_neg hc, bodyFormals, if_neg hc] at htypes
    exact htypes

theorem transform_seenAlike (hv : (b, K) ∈ visitsOf f) :
    SeenAlike P (transform P) f (function P f) b.transfer.labels where
  datatypes := rfl
  funcs _ g hg :=
    ⟨function P g, Program.func?_revMap (g := function P) h (fun _ => rfl) hg, rfl, rfl, rfl⟩
  raises := rfl
  returns := rfl
  labels l hl := by
    obtain ⟨c, K', hv', rfl⟩ := exists_visit h hf hv hl
    exact labelTypes_of_visit h hf hv'

variable (hscoped : P.WellScoped)

include hscoped

theorem body_typed (hv : (b, K) ∈ visitsOf f) :
    (function P f).TransferTyped (transform P) (newTypes P Γ) (body P (infoOf f) K b).transfer := by
  have hvars (x : Var) (hx : x ∈ b.transfer.vars) : newTypes P Γ x = Γ x :=
    newTypes_of_lt (transfer_lt h hf hscoped hv hx)
  obtain ⟨hb, -⟩ := mem_of_visit h hf hv
  have htyped := ((h.functions f hf).transfers b hb).congr (transform_seenAlike h hf hv) hvars
  rw [body]
  by_cases hgoto : ∀ dst args, b.transfer ≠ .goto dst args
  · rw [redirect_of_ne hgoto]
    exact htyped
  · push Not at hgoto
    obtain ⟨dst, args, ht⟩ := hgoto
    rw [ht] at htyped hvars ⊢
    dsimp only [redirect]
    by_cases hback : (K dst && (infoOf f).changed dst) = true
    · rw [labelsAt, if_pos hback]
      obtain ⟨-, hc⟩ := Bool.and_eq_true_iff.1 hback
      obtain ⟨c, K', hv', rfl⟩ := exists_visit h hf hv (l := dst) (by simp [ht, Transfer.labels])
      have htypes := labelTypes_function h hf (body_mem (P := P) hv')
      rw [body, bodyLabel, if_pos hc, bodyFormals, if_pos hc] at htypes
      refine htypes.trans (congrArg some ?_)
      rw [innerFormals, ← remove_map, ← remove_map,
        show args.map (newTypes P Γ) = args.map Γ from map_congr_left hvars,
        goto_typed h hf hb (mem_of_visit h hf hv').1 ht]
    · rw [labelsAt, if_neg hback]
      exact htyped

omit hscoped in
theorem head_typed (hv : (b, K) ∈ visitsOf f) (hc : (infoOf f).changed b.label = true) :
    (function P f).TransferTyped (transform P) (newTypes P Γ) (head P (infoOf f) b).transfer := by
  have htypes := labelTypes_function h hf (body_mem (P := P) hv)
  rw [body, bodyLabel, if_pos hc, bodyFormals, if_pos hc] at htypes
  refine htypes.trans (congrArg some ?_)
  rw [innerActuals, innerFormals, map_map]
  refine map_congr_left fun a ha => ?_
  have ha := (remove_sublist _ _).subset ha
  rw [Function.comp_apply, newTypes_newVar]
  exact ((h.functions f hf).formals b (mem_of_visit h hf hv).1 a ha).symm

omit hscoped in
theorem formals_typed (hb : b ∈ f.blocks) {a : Var × Ty} (ha : a ∈ b.args) :
    newTypes P Γ a.1 = a.2 := by
  rw [newTypes_of_lt (bound_lt hf hb (.inl (mem_map_of_mem ha)))]
  exact (h.functions f hf).formals b hb a ha

theorem function_wellTyped : (function P f).WellTyped (transform P) (newTypes P Γ) where
  args x hx := by
    rw [newTypes_of_lt (arg_lt hf (mem_map_of_mem hx))]
    exact (h.functions f hf).args x hx
  formals c hc a ha := by
    obtain ⟨b, K, hv, rfl | ⟨hchanged, rfl⟩⟩ := mem_function.1 hc
    · have hb := (mem_of_visit h hf hv).1
      rw [body, bodyFormals] at ha
      split_ifs at ha
      · exact formals_typed h hf hb ((remove_sublist _ _).subset ha)
      · exact formals_typed h hf hb ha
    · have hb := (mem_of_visit h hf hv).1
      obtain ⟨⟨⟨y, t⟩, z, i⟩, hzip, rfl⟩ := mem_map.1 ha
      have hy := formals_typed h hf hb (of_mem_zip hzip).1
      cases i with
      | true => exact hy
      | false =>
        refine newTypes_newVar.trans ?_
        exact (h.functions f hf).formals b hb _ (of_mem_zip hzip).1
  statements c hc s hs := by
    obtain ⟨b, K, hv, rfl | ⟨hchanged, rfl⟩⟩ := mem_function.1 hc
    · have hb := (mem_of_visit h hf hv).1
      have hstatement := (h.functions f hf).statements b hb s hs
      refine ⟨hstatement.exp.congr' rfl fun x hx =>
        newTypes_of_lt (statement_lt h hf hscoped hv hs hx), fun x hx => ?_⟩
      rw [newTypes_of_lt (bound_lt hf hb (.inr (mem_filterMap.2 ⟨s, hs, hx⟩)))]
      exact hstatement.var x hx
    · cases hs
  transfers c hc := by
    obtain ⟨b, K, hv, rfl | ⟨hchanged, rfl⟩⟩ := mem_function.1 hc
    · exact body_typed h hf hscoped hv
    · exact head_typed h hf hv hchanged
  start := by
    obtain ⟨b, K, hv, hl⟩ := exists_visit_of_reaches h hf (l := f.start) .refl
    have hstart := labelTypes_of_visit h hf hv
    rw [hl] at hstart
    exact hstart.trans (h.functions f hf).start

end Typed

theorem transform_wellTyped (h : P.WellTyped Γ) (hscoped : P.WellScoped) :
    (transform P).WellTyped (newTypes P Γ) where
  defs := defs_nodup h
  labels := labels_nodup h
  funcs := Program.funcs_revMap (g := function P) h fun _ => rfl
  main := by
    obtain ⟨f, hf, hargs⟩ := h.main
    exact ⟨function P f, Program.func?_revMap (g := function P) h (fun _ => rfl) hf, hargs⟩
  globals s hs := by
    have hlt {x : Var} (hx : x ∈ P.globalVars) : newTypes P Γ x = Γ x :=
      newTypes_of_lt (lt_varBound (Program.mem_defs.2 (.inl hx)))
    obtain ⟨pre, post, heq⟩ := append_of_mem hs
    refine ⟨(h.globals s hs).exp.congr' rfl fun x hx => hlt ?_, fun x hx => ?_⟩
    · have heq : P.globals = pre ++ s :: post := heq
      rw [Program.globalVars, heq, filterMap_append]
      exact mem_append_left _ (hscoped.globals pre s post heq x hx)
    · rw [hlt (mem_filterMap.2 ⟨s, hs, hx⟩)]
      exact (h.globals s hs).var x hx
  functions f' hf' := by
    obtain ⟨f, hf, rfl⟩ := Program.mem_revMap.1 hf'
    exact function_wellTyped h hf hscoped

/-! ### Ways in the new function -/

/-- The label of the block that a head or a body has been made of. -/
def oldLabel (P : Program) (l : Label) : Label :=
  if l < labelBound P then l else l - labelBound P

theorem oldLabel_of_lt (hl : l < labelBound P) : oldLabel P l = l := if_pos hl

theorem oldLabel_newLabel : oldLabel P (newLabel P l) = l := by
  rw [oldLabel, newLabel, if_neg (not_lt.2 (Nat.le_add_right _ _)), Nat.add_sub_cancel_left]

theorem eq_of_oldLabel (h : oldLabel P l = l') : l = l' ∨ l = newLabel P l' := by
  rw [oldLabel] at h
  split_ifs at h with hlt
  · exact .inl h
  · refine .inr ?_
    rw [newLabel, ← h]
    exact (Nat.add_sub_cancel' (not_lt.1 hlt)).symm

theorem newLabel_inj (h : newLabel P l = newLabel P l') : l = l' := add_left_cancel h

theorem oldLabel_bodyLabel (hl : l < labelBound P) : oldLabel P (bodyLabel P info l) = l := by
  rw [bodyLabel]
  split_ifs
  · exact oldLabel_newLabel
  · exact oldLabel_of_lt hl

theorem labels_redirect {t : Transfer} (hl : l ∈ (redirect info (labelsAt P info K) t).labels) :
    l ∈ t.labels ∨ ∃ dst args, t = .goto dst args ∧ K dst = true ∧ info.changed dst = true ∧
      l = newLabel P dst := by
  by_cases hgoto : ∀ dst args, t ≠ .goto dst args
  · rw [redirect_of_ne hgoto] at hl
    exact .inl hl
  · push Not at hgoto
    obtain ⟨dst, args, rfl⟩ := hgoto
    dsimp only [redirect] at hl
    by_cases hback : (K dst && info.changed dst) = true
    · rw [labelsAt, if_pos hback] at hl
      obtain ⟨hK, hc⟩ := Bool.and_eq_true_iff.1 hback
      exact .inr ⟨dst, args, rfl, hK, hc, mem_singleton.1 hl⟩
    · rw [labelsAt, if_neg hback] at hl
      exact .inl hl

/-- An edge leads from a head to its body, or from a body to where its block leads, or back. -/
inductive NewEdge (P : Program) (f : Function) : Label → Label → Prop
  | split (b : Block) (K : Label → Bool) (hv : (b, K) ∈ visitsOf f)
    (hc : (infoOf f).changed b.label = true) : NewEdge P f b.label (newLabel P b.label)
  | forward (b : Block) (K : Label → Bool) (l : Label) (hv : (b, K) ∈ visitsOf f)
    (hl : l ∈ b.transfer.labels) : NewEdge P f (bodyLabel P (infoOf f) b.label) l
  | back (b : Block) (K : Label → Bool) (dst args) (hv : (b, K) ∈ visitsOf f) (ht : b.transfer = .goto dst args)
    (hK : K dst = true) (hc : (infoOf f).changed dst = true) :
    NewEdge P f (bodyLabel P (infoOf f) b.label) (newLabel P dst)

theorem newEdge_of_edge (h : (function P f).Edge l l') : NewEdge P f l l' := by
  obtain ⟨c, hc, rfl, hl⟩ := h
  obtain ⟨b, K, hv, rfl | ⟨hchanged, rfl⟩⟩ := mem_function.1 hc
  · rcases labels_redirect hl with hl | ⟨dst, args, ht, hK, hchanged, rfl⟩
    · exact .forward b K l' hv hl
    · exact .back b K dst args hv ht hK hchanged
  · rw [mem_singleton.1 (show l' ∈ [newLabel P b.label] from hl)]
    exact .split b K hv hchanged

section Paths

variable (h : P.WellTyped Γ) (hf : f ∈ P.functions)

include h hf

theorem visit_label_lt (hv : (b, K) ∈ visitsOf f) : b.label < labelBound P :=
  label_lt hf (mem_of_visit h hf hv).1

/-- A way in the new function is one in the original function. -/
theorem project {p : List Label} (hp : PathTo (function P f).Edge f.start p l) :
    ∃ q, PathTo f.Edge f.start q (oldLabel P l) ∧ ∀ d ∈ q, d ∈ p.map (oldLabel P) := by
  induction hp with
  | root =>
    obtain ⟨b, K, hv, hl⟩ := exists_visit_of_reaches h hf (l := f.start) .refl
    have hlt : f.start < labelBound P := hl ▸ visit_label_lt h hf hv
    rw [oldLabel_of_lt hlt]
    refine ⟨[f.start], .root, fun d hd => ?_⟩
    rw [map_singleton, oldLabel_of_lt hlt]
    exact hd
  | @step p l l' path hedge ih =>
    obtain ⟨q, hq, hsub⟩ := ih
    have hedge (he : f.Edge (oldLabel P l) (oldLabel P l')) :
        ∃ q, PathTo f.Edge f.start q (oldLabel P l') ∧ ∀ d ∈ q, d ∈ (l' :: p).map (oldLabel P) :=
      ⟨_, .step hq he, fun d hd => by
        rcases mem_cons.1 hd with rfl | hd
        · exact mem_cons_self
        · exact mem_cons_of_mem _ (hsub d hd)⟩
    cases newEdge_of_edge ‹_› with
    | split b K hv hc =>
      rw [oldLabel_of_lt (visit_label_lt h hf hv)] at hq
      rw [oldLabel_newLabel]
      exact ⟨q, hq, fun d hd => mem_cons_of_mem _ (hsub d hd)⟩
    | forward b K l hv hl =>
      refine hedge ?_
      obtain ⟨c, K', hv', rfl⟩ := exists_visit h hf hv hl
      rw [oldLabel_bodyLabel (visit_label_lt h hf hv), oldLabel_of_lt (visit_label_lt h hf hv')]
      exact ⟨b, (mem_of_visit h hf hv).1, rfl, hl⟩
    | back b K dst args hv ht hK hc =>
      refine hedge ?_
      rw [oldLabel_bodyLabel (visit_label_lt h hf hv), oldLabel_newLabel]
      exact ⟨b, (mem_of_visit h hf hv).1, rfl, by simp [ht, Transfer.labels]⟩

variable (hscoped : P.WellScoped)

include hscoped

/-- A way to a body passes through its head. A jump back comes from a block that the head's block
dominates, because it uses an invariant formal, so the head or the body has been there before; by
induction on the length of the way. -/
theorem head_mem_path {p : List Label} (hp : PathTo (function P f).Edge f.start p (newLabel P l)) :
    l ∈ p := by
  induction hn : p.length using Nat.strong_induction_on generalizing p l with
  | _ n ih =>
    generalize hl : newLabel P l = l' at hp
    cases hp with
    | root =>
      obtain ⟨b, K, hv, hstart⟩ := exists_visit_of_reaches h hf (l := f.start) .refl
      have hlt := visit_label_lt h hf hv
      rw [hstart, ← hl] at hlt
      exact absurd hlt (not_lt.2 (Nat.le_add_right _ _))
    | @step p a _ path hedge =>
      cases newEdge_of_edge hedge with
      | split b K hv hc =>
        rw [newLabel_inj hl]
        exact mem_cons_of_mem _ path.mem
      | forward b K l'' hv hmem =>
        obtain ⟨c, K', hv', heq⟩ := exists_visit h hf hv hmem
        have hlt := visit_label_lt h hf hv'
        rw [heq, ← hl] at hlt
        exact absurd hlt (not_lt.2 (Nat.le_add_right _ _))
      | back b K dst args hv ht hK hc =>
        obtain rfl := newLabel_inj hl
        obtain ⟨c, K', hv', rfl⟩ := exists_visit h hf hv (l := l) (by simp [ht, Transfer.labels])
        -- an invariant formal, which is passed
        obtain ⟨⟨y, i⟩, hy, hi⟩ := any_eq_true.1 (Bool.and_eq_true_iff.1 hc).2
        dsimp only at hi
        subst hi
        obtain ⟨j, hj⟩ := mem_iff_getElem?.1 hy
        have hused : y ∈ b.transfer.vars := by
          rw [ht]
          exact mem_of_getElem? ((repeats_of_visit h hf hv ht hK).2 j y hj)
        have hcb := (mem_of_visit h hf hv').1
        have hformal : y ∈ c.formals := by
          rw [← invariant_formals h hf hcb]
          exact mem_map_of_mem hy
        have hdom := dominates_of_formal h hf hscoped hv hcb hformal hused
        obtain ⟨q, hq, hsub⟩ := project h hf path
        rw [oldLabel_bodyLabel (visit_label_lt h hf hv)] at hq
        obtain ⟨e, he, heq⟩ := mem_map.1 (hsub _ (hdom q hq))
        rcases eq_of_oldLabel heq with rfl | rfl
        · exact mem_cons_of_mem _ he
        · obtain ⟨p', hsuffix, hp'⟩ := path.of_mem he
          have hle := hsuffix.length_le
          rw [length_cons] at hn
          exact mem_cons_of_mem _ (hsuffix.subset (ih p'.length (by omega) hp' rfl))

/-- A head dominates what its block dominates. -/
theorem dominates_head (hdom : f.Dominates l (oldLabel P l')) : (function P f).Dominates l l' := by
  intro p hp
  obtain ⟨q, hq, hsub⟩ := project h hf hp
  obtain ⟨e, he, heq⟩ := mem_map.1 (hsub _ (hdom q hq))
  rcases eq_of_oldLabel heq with rfl | rfl
  · exact he
  · obtain ⟨p', hsuffix, hp'⟩ := hp.of_mem he
    exact hsuffix.subset (head_mem_path h hf hscoped hp')

/-- Bodies dominate as their blocks do: a way goes on from a head to its body. -/
theorem dominates_body (hv : (b, K) ∈ visitsOf f) (hv' : (c, K') ∈ visitsOf f)
    (hdom : f.Dominates b.label c.label) : (function P f).Dominates
      (bodyLabel P (infoOf f) b.label) (bodyLabel P (infoOf f) c.label) := by
  have hlt := visit_label_lt h hf hv
  have hold : oldLabel P (bodyLabel P (infoOf f) c.label) = c.label :=
    oldLabel_bodyLabel (visit_label_lt h hf hv')
  have hhead : (function P f).Dominates b.label (bodyLabel P (infoOf f) c.label) := by
    refine dominates_head h hf hscoped ?_
    rwa [hold]
  by_cases hc : (infoOf f).changed b.label = true
  · by_cases heq : b.label = c.label
    · rw [heq]
      exact Dominates.refl _ _ _
    · intro p hp
      rw [bodyLabel, if_pos hc]
      refine hp.mem_next (hhead p hp) ?_ fun l hedge => ?_
      · intro hbl
        rw [← hbl, oldLabel_of_lt hlt] at hold
        exact heq hold
      · -- the only edge of a head
        have honly {l₁ l₂ : Label} (he : NewEdge P f l₁ l₂) (hl₁ : l₁ = b.label) :
            l₂ = newLabel P b.label := by
          have hbody {b' : Block} {K : Label → Bool} (hv : (b', K) ∈ visitsOf f) :
              bodyLabel P (infoOf f) b'.label ≠ b.label := by
            intro hbl
            have hold : oldLabel P (bodyLabel P (infoOf f) b'.label) = _ :=
              oldLabel_bodyLabel (visit_label_lt h hf hv)
            rw [hbl, oldLabel_of_lt hlt] at hold
            rw [← hold, bodyLabel, if_pos hc] at hbl
            exact absurd (hbl.trans_lt hlt) (not_lt.2 (Nat.le_add_right _ _))
          cases he with
          | split b' K hv hc => rw [hl₁]
          | forward b' K l hv hl | back b' K dst args hv ht hK hc => exact absurd hl₁ (hbody hv)
        exact honly (newEdge_of_edge hedge) rfl
  · rw [bodyLabel, if_neg hc]
    exact hhead

/-! ### Scopes -/

/-- What is in scope in a block is in scope in its body. -/
theorem inScope_body (hv : (b, K) ∈ visitsOf f) (hx : f.InScope P.globalVars b.label x) :
    (function P f).InScope P.globalVars (bodyLabel P (infoOf f) b.label) x := by
  have hold : oldLabel P (bodyLabel P (infoOf f) b.label) = b.label :=
    oldLabel_bodyLabel (visit_label_lt h hf hv)
  have hreach := (mem_of_visit h hf hv).2
  cases hx with
  | global hg => exact .global hg
  | arg ha => exact .arg ha
  | formal c hc hx hdom =>
    obtain ⟨K', hv'⟩ := visit_of_reaches h hf hc (hdom.reach hreach)
    have hbody := dominates_body h hf hscoped hv' hv hdom
    by_cases hchanged : (infoOf f).changed c.label = true
    · have hperm := outer_inner_perm (P := P) c.args _ (length_invariant h hf hc)
      have hmem := hperm.mem_iff.2 (mem_append_left _ hx)
      rcases mem_append.1 hmem with hx | hx
      · exact .formal (head P (infoOf f) c) (head_mem hv' hchanged) hx
          (dominates_head h hf hscoped (by rwa [hold]))
      · refine .formal (body P (infoOf f) K' c) (body_mem hv') ?_ hbody
        rw [Block.formals, body, bodyFormals, if_pos hchanged]
        exact hx
    · refine .formal (body P (infoOf f) K' c) (body_mem hv') ?_ hbody
      rw [Block.formals, body, bodyFormals, if_neg hchanged]
      exact hx
  | statement c hc hx hdom hne =>
    obtain ⟨K', hv'⟩ := visit_of_reaches h hf hc (hdom.reach hreach)
    refine .statement (body P (infoOf f) K' c) (body_mem hv') hx
      (dominates_body h hf hscoped hv' hv hdom) fun heq => hne ?_
    have hold' : oldLabel P (bodyLabel P (infoOf f) c.label) = _ :=
      oldLabel_bodyLabel (visit_label_lt h hf hv')
    rw [← hold', ← hold]
    exact congrArg (oldLabel P) heq

theorem function_wellScoped : (function P f).WellScoped P.globalVars where
  statements c hc _ pre s post heq x hx := by
    obtain ⟨b, K, hv, rfl | ⟨hchanged, rfl⟩⟩ := mem_function.1 hc
    · obtain ⟨hb, hreach⟩ := mem_of_visit h hf hv
      rcases (hscoped.functions f hf).statements b hb hreach pre s post heq x hx with hx | hx
      · exact .inl (inScope_body h hf hscoped hv hx)
      · exact .inr hx
    · simp [head] at heq
  transfers c hc _ x hx := by
    obtain ⟨b, K, hv, rfl | ⟨hchanged, rfl⟩⟩ := mem_function.1 hc
    · obtain ⟨hb, hreach⟩ := mem_of_visit h hf hv
      have hx : x ∈ b.transfer.vars := by
        rw [body] at hx
        by_cases hgoto : ∀ dst args, b.transfer ≠ .goto dst args
        · rwa [redirect_of_ne hgoto] at hx
        · push Not at hgoto
          obtain ⟨dst, args, ht⟩ := hgoto
          rw [ht] at hx ⊢
          dsimp only [redirect] at hx
          cases hl : labelsAt P (infoOf f) K dst with
          | none =>
            rw [hl] at hx
            exact hx
          | some dst' =>
            rw [hl] at hx
            exact (remove_sublist _ _).subset hx
      rcases (hscoped.functions f hf).transfers b hb hreach x hx with hx | hx
      · exact .inl (inScope_body h hf hscoped hv hx)
      · exact .inr hx
    · -- the head passes on what it binds
      have hb := (mem_of_visit h hf hv).1
      have hperm := outer_inner_perm (P := P) b.args _ (length_invariant h hf hb)
      obtain ⟨a, ha, rfl⟩ := mem_map.1 (show x ∈ innerActuals P b.args _ from hx)
      have hmem : newVar P a.1 ∈ ((remove b.args ((infoOf f).invariant b.label)).map Prod.fst).map
          (varBound P + ·) := mem_map_of_mem (mem_map_of_mem ha)
      rcases mem_append.1 (hperm.mem_iff.2 (mem_append_right _ hmem)) with hx | hx
      · exact .inl (.formal (head P (infoOf f) b) hc hx (Dominates.refl _ _ _))
      · have hformal := ((remove_sublist b.args _).map Prod.fst).subset hx
        exact absurd (bound_lt hf hb (.inl hformal)) (not_lt.2 (Nat.le_add_right _ _))

end Paths

theorem transform_wellScoped (h : P.WellTyped Γ) (hscoped : P.WellScoped) :
    (transform P).WellScoped where
  globals := hscoped.globals
  functions f' hf' := by
    obtain ⟨f, hf, rfl⟩ := Program.mem_revMap.1 hf'
    exact function_wellScoped h hf hscoped

end MultiMLton.Ssa.LoopInvariant
