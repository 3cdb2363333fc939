import MultiMLton.Backend.Live

/-!
# Paths to uses

What it means to be live, and what the pass over the blocks collects.

* `LiveAt`: some path leads to a use, and to no definition before it;
* `controlFlow`, `reportedFlow`: the labels after a block, and those by which liveness is propagated:
  a handler comes after the continuation of its calls;
* `Ssa`: what is required of a function;
* `mem_preds_foldl`, `mem_used_foldl`, `foldl_collect`, `defined_foldl`: what effects leave in the
  state;
* `edge_mem_effects`, `use_mem_effects`, `defn_mem_effects`, `filterMap_definedBy_effects`,
  `code_visitBlock`, `link_visitBlock`: the effects of a function.
-/

namespace MultiMLton.Backend

open Lib Rssa List

namespace Live

variable {F L V ν β : Type}

/-! ### Paths -/

/-- An access to a variable or to a slot. -/
inductive Access (β : Type)
  | defn (y : β)
  | use (y : β)

/-- The first access is a use. -/
def Exposes (y : β) : List (Access β) → Prop
  | [] => False
  | .use z :: as => z = y ∨ Exposes y as
  | .defn z :: as => z ≠ y ∧ Exposes y as

/-- Before the formals of a label get their values, and after that. -/
inductive Point (L : Type)
  | entry (l : L)
  | begin (l : L)

/-- Some path from the point leads to a use of `y` before any definition of it. -/
inductive LiveAt (f : Function F L V ν) (succ : Block F L V ν → List L)
    (formals : Block F L V ν → List β) (accesses : Block F L V ν → List (Access β)) (y : β) :
    Point L → Prop
  | use {b} (hb : b ∈ f.blocks) (hexposes : Exposes y (accesses b)) :
    LiveAt f succ formals accesses y (.begin b.label)
  | pass {b l} (hb : b ∈ f.blocks) (hdefn : .defn y ∉ accesses b) (hl : l ∈ succ b)
    (hlive : LiveAt f succ formals accesses y (.entry l)) :
    LiveAt f succ formals accesses y (.begin b.label)
  | bind {b} (hb : b ∈ f.blocks) (hy : y ∉ formals b)
    (hlive : LiveAt f succ formals accesses y (.begin b.label)) :
    LiveAt f succ formals accesses y (.entry b.label)

def useOf : Visit V L → Option V
  | .use x => some x
  | _ => none

def defnOf : Visit V L → Option V
  | .defn x => some x
  | _ => none

/-- A statement or a transfer defines variables when it has used others. -/
def inOrder (vs : List (Visit V L)) : List (Access V) :=
  (vs.filterMap useOf).map .use ++ (vs.filterMap defnOf).map .defn

/-- The accesses to variables in the body of a block. -/
def varAccesses (b : Block F L V ν) : List (Access V) :=
  (b.statements.flatMap fun s => inOrder (L := L) (foreachDefUse s)) ++
    inOrder (foreachDefLabelUse b.transfer)

def linkAccess : Statement V L ν → Option (Access Unit)
  | .setExnStackSlot => some (.use ())
  | .setSlotExnStack => some (.defn ())
  | _ => none

def linkAccesses (b : Block F L V ν) : List (Access Unit) := b.statements.filterMap linkAccess

def codeAccess : Statement V L ν → Option (Access Unit)
  | .setHandler _ => some (.defn ())
  | _ => none

section

variable [DecidableEq L]

def isHandler (f : Function F L V ν) (l : L) : Bool :=
  match block? f l with
  | none => false
  | some b =>
    match b.kind with
    | .handler => true
    | _ => false

/-- A call uses the slot with the code of its handler. -/
def codeAccesses (f : Function F L V ν) (b : Block F L V ν) : List (Access Unit) :=
  b.statements.filterMap codeAccess ++
    (b.transfer.labels.filter (isHandler f)).map fun _ => .use ()

end

/-- The labels that come after a block. -/
def controlFlow (b : Block F L V ν) : List L := b.transfer.labels

def handlerOf : Kind L → List L
  | .cont (.handle l) => [l]
  | _ => []

/-- A handler comes after the continuation of its calls, and not after these. -/
def reportedFlow [DecidableEq L] (f : Function F L V ν) (b : Block F L V ν) : List L :=
  b.transfer.labels.filter (fun l => !isHandler f l) ++ handlerOf b.kind

/-! ### Functions in SSA form -/

/-- The variables that a function defines. -/
def definitions (f : Function F L V ν) : List V :=
  f.args ++ f.blocks.flatMap fun b =>
    b.args ++ (varAccesses b).filterMap fun
      | .defn x => some x
      | .use _ => none

/-- Labels are labels of blocks, and the variables that count are defined once, and before they are
used. -/
structure Ssa (f : Function F L V ν) (shouldConsider : V → Bool) : Prop where
  labels_nodup : f.labels.Nodup
  labels_mem : ∀ b ∈ f.blocks, ∀ l ∈ b.transfer.labels ++ handlerOf b.kind, l ∈ f.labels
  defined_once : ((definitions f).filter shouldConsider).Nodup
  defined_before : ∀ b ∈ f.blocks, ∀ x, shouldConsider x → .defn x ∈ varAccesses b →
    ¬ Exposes x (varAccesses b)
  defined : ∀ b ∈ f.blocks, ∀ x, shouldConsider x → .use x ∈ varAccesses b → x ∈ definitions f

/-! ### What the pass collects -/

section

variable [DecidableEq V] [DecidableEq L] {shouldConsider : V → Bool} {s : State V L}
  {es : List (Effect V L)} {n m : Node L} {x : V}

theorem mem_preds_foldl :
    n ∈ (es.foldl (State.perform shouldConsider) s).preds m ↔
      n ∈ s.preds m ∨ .edge n m ∈ es := by
  induction es generalizing s with
  | nil => simp
  | cons e es ih =>
    rw [foldl_cons, ih, mem_cons]
    have hstep : n ∈ (s.perform shouldConsider e).preds m ↔ n ∈ s.preds m ∨ .edge n m = e := by
      cases e with
      | edge b b' =>
        simp only [State.perform, Effect.edge.injEq]
        split_ifs with h
        · constructor
          · exact Or.inl
          · rintro (hn | ⟨rfl, rfl⟩)
            · exact hn
            · exact h
        · by_cases hm : m = b'
          · subst hm
            simp [or_comm]
          · simp [hm]
      | defn y b | use y b =>
        simp only [State.perform]
        split_ifs <;> simp
      | code du | link du => simp [State.perform]
    rw [hstep, or_assoc]

theorem mem_used_foldl (hx : shouldConsider x = true) :
    n ∈ (es.foldl (State.perform shouldConsider) s).used x ↔ n ∈ s.used x ∨ .use x n ∈ es := by
  induction es generalizing s with
  | nil => simp
  | cons e es ih =>
    rw [foldl_cons, ih, mem_cons]
    have hstep : n ∈ (s.perform shouldConsider e).used x ↔ n ∈ s.used x ∨ .use x n = e := by
      cases e with
      | use y b =>
        simp only [State.perform, Effect.use.injEq]
        split_ifs with hy hhead
        · constructor
          · exact Or.inl
          · rintro (hn | ⟨rfl, rfl⟩)
            · exact hn
            · exact mem_of_mem_head? hhead
        · by_cases hxy : x = y
          · subst hxy
            simp [or_comm]
          · simp [hxy]
        · have hxy : x ≠ y := by
            rintro rfl
            exact hy hx
          simp [hxy]
      | edge b b' | defn y b =>
        simp only [State.perform]
        split_ifs <;> simp
      | code du | link du => simp [State.perform]
    rw [hstep, or_assoc]

/-- What effects push on a list of the state. -/
theorem foldl_collect {γ : Type} (g : State V L → List γ) (h : Effect V L → Option γ)
    (hstep : ∀ s e, g (s.perform shouldConsider e) = (h e).toList ++ g s) :
    g (es.foldl (State.perform shouldConsider) s) = (es.filterMap h).reverse ++ g s := by
  induction es generalizing s with
  | nil => rfl
  | cons e es ih =>
    rw [foldl_cons, ih, hstep]
    cases he : h e with
    | none => simp [he]
    | some y => simp [he]

/-- The variables that an effect defines, among those that count. -/
def definedBy (shouldConsider : V → Bool) : Effect V L → Option V
  | .defn x _ => if shouldConsider x then some x else none
  | _ => none

def codeOf : Effect V L → Option (DefUse L (Node L))
  | .code du => some du
  | _ => none

def linkOf : Effect V L → Option (DefUse Unit (Node L))
  | .link du => some du
  | _ => none

theorem allVars_perform (s : State V L) (e : Effect V L) :
    (s.perform shouldConsider e).allVars = (definedBy shouldConsider e).toList ++ s.allVars := by
  cases e <;> simp only [State.perform, definedBy] <;> (try split_ifs) <;> rfl

theorem code_perform (s : State V L) (e : Effect V L) :
    (s.perform shouldConsider e).handlerCodeDefUses =
      (codeOf e).toList ++ s.handlerCodeDefUses := by
  cases e <;> simp only [State.perform, codeOf] <;> (try split_ifs) <;> rfl

theorem link_perform (s : State V L) (e : Effect V L) :
    (s.perform shouldConsider e).handlerLinkDefUses =
      (linkOf e).toList ++ s.handlerLinkDefUses := by
  cases e <;> simp only [State.perform, linkOf] <;> (try split_ifs) <;> rfl

/-- The node at which an effect defines a variable. -/
def definedAt (x : V) : Effect V L → Option (Node L)
  | .defn y b => if y = x then some b else none
  | _ => none

theorem defined_perform (hx : shouldConsider x = true) (s : State V L) (e : Effect V L) :
    (s.perform shouldConsider e).defined x = (definedAt x e).or (s.defined x) := by
  cases e with
  | defn y b =>
    simp only [State.perform, definedAt]
    by_cases hxy : y = x
    · subst hxy
      simp [hx]
    · split_ifs <;> simp [Ne.symm hxy]
  | _ =>
    simp only [State.perform, definedAt]
    (try split_ifs) <;> rfl

/-- A variable is defined at a node of one of its definitions. -/
theorem defined_foldl (hx : shouldConsider x = true) (es : List (Effect V L)) (s : State V L) :
    (∀ n, (es.foldl (State.perform shouldConsider) s).defined x = some n →
        s.defined x = some n ∨ .defn x n ∈ es) ∧
      ((s.defined x).isSome ∨ (∃ n, .defn x n ∈ es) →
        ((es.foldl (State.perform shouldConsider) s).defined x).isSome) := by
  induction es generalizing s with
  | nil => simp
  | cons e es ih =>
    rw [foldl_cons]
    obtain ⟨hspec, hsome⟩ := ih (s.perform shouldConsider e)
    rw [defined_perform hx] at hspec hsome
    have hat : ∀ n, definedAt x e = some n → e = .defn x n := by
      intro n hn
      cases e with
      | defn y b =>
        simp only [definedAt] at hn
        split_ifs at hn with hxy
        cases hn
        rw [hxy]
      | _ => cases hn
    constructor
    · intro n hn
      rcases hspec n hn with hn | hn
      · rcases Option.or_eq_some_iff.mp hn with hn | ⟨-, hn⟩
        · exact Or.inr (hat n hn ▸ mem_cons_self)
        · exact Or.inl hn
      · exact Or.inr (mem_cons_of_mem e hn)
    · rintro (hn | ⟨n, hn⟩)
      · exact hsome (Or.inl (by simp [hn]))
      · rcases mem_cons.mp hn with rfl | hn
        · exact hsome (Or.inl (by simp [definedAt]))
        · exact hsome (Or.inr ⟨n, hn⟩)

end

/-! ### The effects of a function -/

section

variable [DecidableEq L] {shouldConsider : V → Bool} {n m d : Node L} {x : V}
  {f : Function F L V ν} {b b' : Block F L V ν} {l : L} {v : Visit V L} {vs : List (Visit V L)}

omit [DecidableEq L] in
@[simp] theorem use_mem_inOrder : .use x ∈ inOrder vs ↔ .use x ∈ vs := by
  simp only [inOrder, mem_append, mem_map, mem_filterMap, reduceCtorEq, and_false,
    exists_false, or_false, Access.use.injEq, exists_eq_right]
  constructor
  · rintro ⟨v, hv, heq⟩
    cases v <;> cases heq
    exact hv
  · exact fun h => ⟨_, h, rfl⟩

omit [DecidableEq L] in
@[simp] theorem defn_mem_inOrder : .defn x ∈ inOrder vs ↔ .defn x ∈ vs := by
  simp only [inOrder, mem_append, mem_map, mem_filterMap, reduceCtorEq, and_false,
    exists_false, false_or, Access.defn.injEq, exists_eq_right]
  constructor
  · rintro ⟨v, hv, heq⟩
    cases v <;> cases heq
    exact hv
  · exact fun h => ⟨_, h, rfl⟩

omit [DecidableEq L] in
theorem label_not_mem_useOperands (zs : List (Operand V)) :
    (.label l : Visit V L) ∉ useOperands zs := by
  simp [useOperands, useOperand]

omit [DecidableEq L] in
theorem label_not_mem_foreachDefUse (a : Statement V L ν) :
    (.label l : Visit V L) ∉ foreachDefUse a := by
  cases a <;> simp [foreachDefUse, useOperands, useOperand]

omit [DecidableEq L] in
theorem label_mem_foreachDefLabelUse (t : Transfer F L V ν) :
    (.label l : Visit V L) ∈ foreachDefLabelUse t ↔ l ∈ t.labels := by
  cases t <;> simp [foreachDefLabelUse, useOperands, useOperand, Transfer.labels, Transfer.jumps]

theorem edge_mem_visit :
    .edge n m ∈ visit f d v ↔ n = d ∧ ∃ l, v = .label l ∧ isHandler f l = false ∧
      ∃ b, block? f l = some b ∧ m = argInfo b := by
  cases v with
  | defn y | use y => simp [visit]
  | label l =>
    simp only [visit, label, Visit.label.injEq, isHandler]
    cases hblock : block? f l with
    | none => simp [hblock]
    | some b => cases hkind : b.kind <;> simp [hblock, hkind]

theorem use_mem_visit : .use x n ∈ visit f d v ↔ n = d ∧ v = .use x := by
  cases v with
  | defn y => simp [visit]
  | use y => simp [visit, and_comm, eq_comm]
  | label l =>
    simp only [visit, label]
    cases block? f l with
    | none => simp
    | some b => cases hkind : b.kind <;> simp [hkind]

theorem defn_mem_visit : .defn x n ∈ visit f d v ↔ n = d ∧ v = .defn x := by
  cases v with
  | defn y => simp [visit, and_comm, eq_comm]
  | use y => simp [visit]
  | label l =>
    simp only [visit, label]
    cases block? f l with
    | none => simp
    | some b => cases hkind : b.kind <;> simp [hkind]

theorem edge_mem_visitKind {k : Kind L} :
    (.edge n m : Effect V L) ∈ visitKind f d k ↔ n = d ∧ ∃ l ∈ handlerOf k,
      ∃ b, block? f l = some b ∧ m = argInfo b := by
  cases k with
  | cont h =>
    cases h with
    | handle l =>
      simp only [visitKind, goto, handlerOf, mem_singleton, exists_eq_left]
      cases hblock : block? f l with
      | none => simp
      | some b => simp
    | _ => simp [visitKind, handlerOf]
  | _ => simp [visitKind, handlerOf]

theorem not_mem_visitKind {k : Kind L} {e : Effect V L} (h : ∀ n m, e ≠ .edge n m) :
    e ∉ visitKind f d k := by
  cases k with
  | cont h' =>
    cases h' with
    | handle l =>
      simp only [visitKind, goto]
      cases block? f l with
      | none => simp
      | some b => simpa using h _ _
    | _ => simp [visitKind]
  | _ => simp [visitKind]

omit [DecidableEq L] in
theorem not_mem_visitSlots {a : Statement V L ν} {e : Effect V L} (hcode : ∀ du, e ≠ .code du)
    (hlink : ∀ du, e ≠ .link du) : e ∉ visitSlots d a := by
  cases a <;> simp [visitSlots, hcode, hlink]

/-- Liveness is propagated against the flow, from a label to its formals. -/
theorem edge_mem_effects :
    .edge n m ∈ effects f ↔
      (∃ b ∈ f.blocks, b.args ≠ [] ∧ n = .formals b.label ∧ m = .body b.label) ∨
        ∃ b ∈ f.blocks, n = .body b.label ∧ ∃ l ∈ reportedFlow f b,
          ∃ b', block? f l = some b' ∧ m = argInfo b' := by
  have hformals : (.edge n m : Effect V L) ∈ f.blocks.flatMap formalsEdge ↔
      ∃ b ∈ f.blocks, b.args ≠ [] ∧ n = .formals b.label ∧ m = .body b.label := by
    rw [mem_flatMap]
    refine exists_congr fun b => and_congr_right fun _ => ?_
    unfold formalsEdge
    cases b.args <;> simp
  have hblocks : (.edge n m : Effect V L) ∈ f.blocks.flatMap (visitBlock f) ↔
      ∃ b ∈ f.blocks, n = .body b.label ∧ ∃ l ∈ reportedFlow f b,
        ∃ b', block? f l = some b' ∧ m = argInfo b' := by
    rw [mem_flatMap]
    refine exists_congr fun b => and_congr_right fun _ => ?_
    have hslots : ∀ a : Statement V L ν,
        (.edge n m : Effect V L) ∉ visitSlots (.body b.label) a := fun a =>
      not_mem_visitSlots (by simp) (by simp)
    simp only [visitBlock, mem_append, mem_map, mem_flatMap, edge_mem_visit,
      edge_mem_visitKind, hslots, or_false, reduceCtorEq, and_false, exists_false, false_or,
      reportedFlow, mem_filter, Bool.not_eq_eq_eq_not, Bool.not_true]
    constructor
    · rintro ((⟨hn, l, hl, hb'⟩ | ⟨a, -, v, hv, -, l, rfl, -⟩) | ⟨v, hv, hn, l, rfl, hno, hb'⟩)
      · exact ⟨hn, l, Or.inr hl, hb'⟩
      · exact absurd hv (label_not_mem_foreachDefUse a)
      · exact ⟨hn, l, Or.inl ⟨(label_mem_foreachDefLabelUse _).mp hv, hno⟩, hb'⟩
    · rintro ⟨hn, l, ⟨hl, hno⟩ | hl, hb'⟩
      · exact Or.inr ⟨_, (label_mem_foreachDefLabelUse _).mpr hl, hn, l, rfl, hno, hb'⟩
      · exact Or.inl (Or.inl ⟨hn, l, hl, hb'⟩)
  rw [effects, mem_append, mem_append, hformals, hblocks]
  simp

/-- The accesses among the effects. -/
theorem access_mem_effects {e : Effect V L} (hedge : ∀ n m, e ≠ .edge n m)
    (hcode : ∀ du, e ≠ .code du) (hlink : ∀ du, e ≠ .link du) :
    e ∈ effects f ↔ e ∈ f.args.map (.defn · .head) ∨ ∃ b ∈ f.blocks,
      e ∈ b.args.map (.defn · (argInfo b)) ∨
        (∃ a ∈ b.statements, ∃ v ∈ foreachDefUse a, e ∈ visit f (.body b.label) v) ∨
        ∃ v ∈ foreachDefLabelUse b.transfer, e ∈ visit f (.body b.label) v := by
  have hformals (b : Block F L V ν) : e ∉ formalsEdge b := by
    unfold formalsEdge
    split_ifs <;> simp [hedge]
  have hslots (d : Node L) (a : Statement V L ν) : e ∉ visitSlots d a :=
    not_mem_visitSlots hcode hlink
  simp only [effects, visitBlock, mem_append, mem_flatMap (b := e), hslots,
    not_mem_visitKind hedge, or_false, or_assoc, hformals, and_false, exists_false, false_or]

/-- A variable is used at the bodies of the blocks that have uses of it. -/
theorem use_mem_effects :
    .use x n ∈ effects f ↔ ∃ b ∈ f.blocks, n = .body b.label ∧ .use x ∈ varAccesses b := by
  rw [access_mem_effects (by simp) (by simp) (by simp)]
  simp only [varAccesses, mem_append, mem_map, mem_flatMap, use_mem_visit,
    reduceCtorEq, and_false, exists_false, false_or, use_mem_inOrder]
  grind

/-- A variable is defined at the function, at formals or at bodies. -/
theorem defn_mem_effects :
    .defn x n ∈ effects f ↔ (x ∈ f.args ∧ n = .head) ∨ ∃ b ∈ f.blocks,
      (x ∈ b.args ∧ n = argInfo b) ∨ (n = .body b.label ∧ .defn x ∈ varAccesses b) := by
  rw [access_mem_effects (by simp) (by simp) (by simp)]
  simp only [varAccesses, mem_append, mem_map, mem_flatMap, defn_mem_visit,
    Effect.defn.injEq, defn_mem_inOrder]
  grind

/-! ### Lists of effects -/

theorem filterMap_definedBy_visits (vs : List (Visit V L)) :
    (vs.flatMap (visit f d)).filterMap (definedBy shouldConsider) =
      (vs.filterMap defnOf).filter shouldConsider := by
  induction vs with
  | nil => rfl
  | cons v vs ih =>
    rw [flatMap_cons, filterMap_append, ih]
    cases v with
    | defn x =>
      rw [filterMap_cons]
      by_cases hx : shouldConsider x <;> simp [visit, definedBy, defnOf, hx]
    | use x =>
      rw [filterMap_cons]
      simp [visit, definedBy, defnOf]
    | label l =>
      have hnone : (label f d l : List (Effect V L)).filterMap (definedBy shouldConsider) = [] := by
        unfold label
        cases block? f l with
        | none => rfl
        | some b => cases hkind : b.kind <;> simp [hkind, definedBy]
      rw [filterMap_cons]
      simp [visit, defnOf, hnone]

/-- The variable that an access defines. -/
def definedVar : Access V → Option V
  | .defn x => some x
  | .use _ => none

omit [DecidableEq L] in
theorem filterMap_definedVar_inOrder (vs : List (Visit V L)) :
    (inOrder vs).filterMap definedVar = vs.filterMap defnOf := by
  have huse : (definedVar ∘ Access.use : V → Option V) = fun _ => none := rfl
  have hdefn : (definedVar ∘ Access.defn : V → Option V) = some := rfl
  rw [inOrder, filterMap_append, filterMap_map, filterMap_map, huse, hdefn]
  simp

theorem filterMap_visitKind {γ : Type} (h : Effect V L → Option γ)
    (hedge : ∀ n m, h (.edge n m) = none) (k : Kind L) :
    (visitKind f d k).filterMap h = [] := by
  rw [filterMap_eq_nil_iff]
  intro e he
  cases e with
  | edge n m => exact hedge n m
  | _ => exact absurd he (not_mem_visitKind (by simp))

omit [DecidableEq L] in
theorem filterMap_formalsEdge {γ : Type} (h : Effect V L → Option γ)
    (hedge : ∀ n m, h (.edge n m) = none) (b : Block F L V ν) :
    (formalsEdge b).filterMap h = [] := by
  unfold formalsEdge
  split_ifs
  · rfl
  · simp [hedge]

omit [DecidableEq L] in
theorem filterMap_definedBy_map (shouldConsider : V → Bool) (xs : List V) (n : Node L) :
    (xs.map fun x => Effect.defn x n).filterMap (definedBy shouldConsider) =
      xs.filter shouldConsider := by
  rw [filterMap_map, ← filterMap_eq_filter]
  rfl

theorem filterMap_definedBy_visitBlock (b : Block F L V ν) :
    (visitBlock f b).filterMap (definedBy shouldConsider) =
      (b.args ++ (varAccesses b).filterMap definedVar).filter shouldConsider := by
  have hargs := filterMap_definedBy_map (L := L) shouldConsider b.args (argInfo b)
  have hslots : ∀ a : Statement V L ν,
      (visitSlots (Node.body b.label) a).filterMap (definedBy shouldConsider) = [] := by
    intro a
    cases a <;> rfl
  have hbody : (b.statements.flatMap fun s => (foreachDefUse s).flatMap
      (visit f (.body b.label)) ++ visitSlots (.body b.label) s).filterMap
        (definedBy shouldConsider) =
      b.statements.flatMap fun s => ((foreachDefUse s).filterMap defnOf).filter shouldConsider := by
    rw [filterMap_flatMap]
    apply congrArg (fun g => List.flatMap g b.statements)
    funext s
    rw [filterMap_append, filterMap_definedBy_visits, hslots, append_nil]
  rw [visitBlock, filterMap_append, filterMap_append, filterMap_append, hargs,
    filterMap_visitKind (definedBy shouldConsider) (fun _ _ => rfl), append_nil, hbody,
    filterMap_definedBy_visits, varAccesses, filterMap_append, filterMap_flatMap,
    filterMap_definedVar_inOrder, filter_append, filter_append, filter_flatMap]
  simp only [filterMap_definedVar_inOrder, append_assoc]

/-- The pass meets the definitions that count, each of them once. -/
theorem filterMap_definedBy_effects :
    (effects f).filterMap (definedBy shouldConsider) = (definitions f).filter shouldConsider := by
  have hformals : (f.blocks.flatMap formalsEdge).filterMap
      (definedBy (L := L) shouldConsider) = [] := by
    rw [filterMap_flatMap, flatMap_eq_nil_iff]
    exact fun b _ => filterMap_formalsEdge (definedBy shouldConsider) (fun _ _ => rfl) b
  rw [effects, filterMap_append, filterMap_append, hformals, nil_append,
    filterMap_definedBy_map, filterMap_flatMap, definitions, filter_append,
    filter_flatMap]
  simp only [filterMap_definedBy_visitBlock]
  rfl

/-! ### The accesses to the slots -/

def labelOf : Visit V L → Option L
  | .label l => some l
  | _ => none

omit [DecidableEq L] in
theorem filterMap_labelOf_useOperands (zs : List (Operand V)) :
    (useOperands zs : List (Visit V L)).filterMap labelOf = [] := by
  rw [filterMap_eq_nil_iff]
  intro v hv
  cases v with
  | label l => exact absurd hv (label_not_mem_useOperands zs)
  | _ => rfl

omit [DecidableEq L] in
theorem filterMap_labelOf_foreachDefUse (a : Statement V L ν) :
    (foreachDefUse a : List (Visit V L)).filterMap labelOf = [] := by
  rw [filterMap_eq_nil_iff]
  intro v hv
  cases v with
  | label l => exact absurd hv (label_not_mem_foreachDefUse a)
  | _ => rfl

omit [DecidableEq L] in
theorem filterMap_labelOf_map (ls : List L) :
    (ls.map .label : List (Visit V L)).filterMap labelOf = ls := by
  have hlabel : (labelOf ∘ Visit.label (V := V) : L → Option L) = some := rfl
  rw [filterMap_map, hlabel, filterMap_some]

omit [DecidableEq L] in
theorem filterMap_labelOf_foreachDefLabelUse (t : Transfer F L V ν) :
    (foreachDefLabelUse t).filterMap labelOf = t.labels := by
  have huses := filterMap_labelOf_useOperands (V := V) (L := L)
  cases t with
  | «switch» c =>
    have huse := huses [c.test]
    rw [useOperands, flatMap_singleton] at huse
    rw [foreachDefLabelUse, filterMap_append, huse, filterMap_labelOf_map]
    rfl
  | _ =>
    simp only [foreachDefLabelUse, filterMap_append, huses, filterMap_labelOf_map,
      append_nil, nil_append]
    rfl

/-- What is collected from effects on slots only. -/
structure Slotted {γ : Type} (h : Effect V L → Option γ) : Prop where
  edge : ∀ n m, h (.edge n m) = none
  defn : ∀ x n, h (.defn x n) = none
  use : ∀ x n, h (.use x n) = none

variable {γ : Type} {h : Effect V L → Option γ}

theorem Slotted.filterMap_visits (hh : Slotted h) (vs : List (Visit V L)) :
    (vs.flatMap (visit f d)).filterMap h =
      (vs.filterMap labelOf).flatMap fun l => (label f d l).filterMap h := by
  induction vs with
  | nil => rfl
  | cons v vs ih =>
    rw [flatMap_cons, filterMap_append, ih, filterMap_cons]
    cases v with
    | defn x => simp [visit, labelOf, hh.defn]
    | use x => simp [visit, labelOf, hh.use]
    | label l => rfl

theorem Slotted.filterMap_visitBlock (hh : Slotted h) (b : Block F L V ν) :
    (visitBlock f b).filterMap h =
      (b.statements.flatMap fun a => (visitSlots (.body b.label) a).filterMap h) ++
        b.transfer.labels.flatMap fun l => (label f (.body b.label) l).filterMap h := by
  have hargs : (b.args.map fun x => Effect.defn x (argInfo b)).filterMap h = [] := by
    rw [filterMap_map, filterMap_eq_nil_iff]
    exact fun x _ => hh.defn x _
  rw [visitBlock, filterMap_append, filterMap_append, filterMap_append, hargs,
    filterMap_visitKind h hh.edge, nil_append, nil_append, filterMap_flatMap,
    hh.filterMap_visits, filterMap_labelOf_foreachDefLabelUse]
  simp only [filterMap_append, hh.filterMap_visits, filterMap_labelOf_foreachDefUse,
    flatMap_nil, nil_append]

theorem Slotted.filterMap_effects (hh : Slotted h) :
    (effects f).filterMap h = f.blocks.flatMap fun b => (visitBlock f b).filterMap h := by
  have hformals : (f.blocks.flatMap formalsEdge).filterMap h = [] := by
    rw [filterMap_flatMap, flatMap_eq_nil_iff]
    exact fun b _ => filterMap_formalsEdge h hh.edge b
  have hargs : (f.args.map fun x => Effect.defn x Node.head).filterMap h = [] := by
    rw [filterMap_map, filterMap_eq_nil_iff]
    exact fun x _ => hh.defn x _
  rw [effects, filterMap_append, filterMap_append, hformals, hargs, nil_append,
    nil_append, filterMap_flatMap]

def DefUse.node {α N : Type} : DefUse α N → N
  | .defn b => b
  | .use _ b => b

def DefUse.access {α N : Type} : DefUse α N → Access Unit
  | .defn _ => .defn ()
  | .use _ _ => .use ()

omit [DecidableEq L] in
theorem slotted_codeOf : Slotted (codeOf (V := V) (L := L)) :=
  ⟨fun _ _ => rfl, fun _ _ => rfl, fun _ _ => rfl⟩

omit [DecidableEq L] in
theorem slotted_linkOf : Slotted (linkOf (V := V) (L := L)) :=
  ⟨fun _ _ => rfl, fun _ _ => rfl, fun _ _ => rfl⟩

theorem codeOf_label :
    (label f d l : List (Effect V L)).filterMap codeOf =
      if isHandler f l then [.use l d] else [] := by
  unfold label isHandler
  cases block? f l with
  | none => rfl
  | some b => cases hkind : b.kind <;> simp [hkind, codeOf]

theorem linkOf_label : (label f d l : List (Effect V L)).filterMap linkOf = [] := by
  unfold label
  cases block? f l with
  | none => rfl
  | some b => cases hkind : b.kind <;> simp [hkind, linkOf]

omit [DecidableEq L] in
theorem map_flatMap_toList {α δ : Type} {g : α → List γ} {k : γ → δ} {o : α → Option δ}
    (hg : ∀ a, (g a).map k = (o a).toList) (as : List α) :
    (as.flatMap g).map k = as.filterMap o := by
  rw [map_flatMap, filterMap_eq_flatMap_toList]
  simp only [hg]

/-- The accesses of a block to the code slot, in order and all at its body. -/
theorem code_visitBlock (b : Block F L V ν) :
    ((visitBlock f b).filterMap codeOf).map DefUse.access = codeAccesses f b ∧
      ∀ e ∈ (visitBlock f b).filterMap codeOf, e.node = .body b.label := by
  rw [slotted_codeOf.filterMap_visitBlock]
  simp only [codeOf_label]
  constructor
  · rw [map_append, map_flatMap_toList (o := codeAccess) (fun a => ?_),
      map_flatMap_toList (o := fun l => if isHandler f l then some (.use ()) else none) (fun l => ?_),
      codeAccesses]
    · congr 1
      induction b.transfer.labels with
      | nil => rfl
      | cons l ls ih => by_cases hl : isHandler f l <;> simp [hl, ih]
    · by_cases hl : isHandler f l <;> simp [hl, DefUse.access]
    · cases a <;> rfl
  · intro e he
    rcases mem_append.mp he with he | he
    · obtain ⟨a, -, ha⟩ := mem_flatMap.mp he
      cases a <;> simp [visitSlots, codeOf] at ha
      rw [ha, DefUse.node]
    · obtain ⟨l, -, hl⟩ := mem_flatMap.mp he
      split_ifs at hl
      · rw [mem_singleton.mp hl, DefUse.node]
      · cases hl

theorem link_visitBlock (b : Block F L V ν) :
    ((visitBlock f b).filterMap linkOf).map DefUse.access = linkAccesses b ∧
      ∀ e ∈ (visitBlock f b).filterMap linkOf, e.node = .body b.label := by
  have hlabels : (b.transfer.labels.flatMap fun l =>
      (label f (.body b.label) l : List (Effect V L)).filterMap linkOf) = [] :=
    flatMap_eq_nil_iff.mpr fun l _ => linkOf_label
  rw [slotted_linkOf.filterMap_visitBlock, hlabels, append_nil]
  constructor
  · apply map_flatMap_toList
    intro a
    cases a <;> rfl
  · intro e he
    obtain ⟨a, -, ha⟩ := mem_flatMap.mp he
    cases a <;> simp [visitSlots, linkOf] at ha <;> rw [ha, DefUse.node]

end

end Live

end MultiMLton.Backend
