import MultiMLton.Ssa.Dfs
import MultiMLton.Ssa.WellFormed

/-!
# Loop-invariant formals

`loopInvariant` of `ssa/loop-invariant.fun`. A `goto` to a block that has not been left by a depth-first
search is a jump back. A formal to which all jumps back to its block pass the formal itself is invariant.
A block with such formals is split: the outer block has the label and binds the invariant formals, and
jumps to the inner one, which has a new label and binds the others. Jumps back go to the inner block.

There are two searches: the first one finds the invariant formals, the second one makes the blocks.
The shrinker that runs over every function at the end is a parameter.
-/

namespace MultiMLton.Ssa.LoopInvariant

open MultiMLton.Lib Dfs List

section Names

variable (P : Program)

/-- The variables from here on are new. -/
def varBound : Var := P.defs.foldr max 0 + 1

/-- The labels from here on are new. -/
def labelBound : Label := (P.blocks.map Block.label).foldr max 0 + 1

/-- `Var.new` -/
def newVar (x : Var) : Var := varBound P + x

/-- `Label.new` -/
def newLabel (l : Label) : Label := labelBound P + l

end Names

/-! ### The first search -/

/-- `labelInfo` of all labels, but for `newLabel` -/
structure Info where
  callsSelf : Label → Bool
  visited : Label → Bool
  invariant : Label → List (Var × Bool)

namespace Info

def init (f : Function) : Info where
  callsSelf _ := false
  visited _ := false
  invariant l :=
    ((f.blocks.find? (·.label = l)).map fun b => b.args.map fun x => (x.1, true)).getD []

/-- The first `visit`: jumps back make formals variant. -/
def visit (b : Block) (info : Info) : Info :=
  let info := { info with visited := Function.update info.visited b.label true }
  match b.transfer with
  | .goto dst args =>
    if info.visited dst then
      { info with
        callsSelf := Function.update info.callsSelf dst true
        invariant := Function.update info.invariant dst
          ((args.zip (info.invariant dst)).map fun (x, y, b) => (y, b && decide (x = y))) }
    else info
  | _ => info

def leave (b : Block) (info : Info) : Info :=
  { info with visited := Function.update info.visited b.label false }

/-- A block that is split. -/
def changed (info : Info) (l : Label) : Bool := info.callsSelf l && (info.invariant l).any Prod.snd

end Info

/-! ### The second search -/

/-- `remove` -/
def remove {β γ : Type} (xs : List β) (invariant : List (γ × Bool)) : List β :=
  ((xs.zip invariant).filter fun x => !x.2.2).map Prod.fst

section Split

variable (P : Program) (info : Info)

def outerFormals (args : List (Var × Ty)) (invariant : List (Var × Bool)) : List (Var × Ty) :=
  (args.zip invariant).map fun ((x, t), _, b) => if b then (x, t) else (newVar P x, t)

def innerFormals (args : List (Var × Ty)) (invariant : List (Var × Bool)) : List (Var × Ty) :=
  remove args invariant

def innerActuals (args : List (Var × Ty)) (invariant : List (Var × Bool)) : List Var :=
  (remove args invariant).map fun x => newVar P x.1

/-- A jump to a block that is being split goes to the inner block. -/
def redirect (newLabel : Label → Option Label) : Transfer → Transfer
  | .goto dst args =>
    match newLabel dst with
    | none => .goto dst args
    | some dst' => .goto dst' (remove args (info.invariant dst))
  | t => t

/-- What becomes of a block. -/
def split (newLabel : Label → Option Label) (b : Block) : List Block :=
  match newLabel b.label with
  | none => [⟨b.args, b.label, b.statements, redirect info newLabel b.transfer⟩]
  | some label' =>
    [⟨outerFormals P b.args (info.invariant b.label), b.label, [],
        .goto label' (innerActuals P b.args (info.invariant b.label))⟩,
      ⟨innerFormals b.args (info.invariant b.label), label', b.statements,
        redirect info newLabel b.transfer⟩]

/-- The new labels of the blocks that have not been left, and the blocks that have been made. -/
structure Rewritten where
  newLabel : Label → Option Label
  newBlocks : List Block

/-- The second `visit`. -/
def Rewritten.visit (b : Block) (st : Rewritten) : Rewritten :=
  let labels := if info.changed b.label then
      Function.update st.newLabel b.label (some (LoopInvariant.newLabel P b.label))
    else st.newLabel
  ⟨labels, split P info labels b ++ st.newBlocks⟩

def Rewritten.leave (b : Block) (st : Rewritten) : Rewritten :=
  { st with newLabel := Function.update st.newLabel b.label none }

end Split

section Pass

variable (P : Program) (shrink : List Statement → Function → Function) (fuel : ℕ)

def simplifyFunction (f : Function) : Option Function := do
  let (_, info) ← f.dfs Info.visit Info.leave fuel f.start (fun _ => false, .init f)
  let (_, st) ← f.dfs (Rewritten.visit P info) Rewritten.leave fuel f.start
    (fun _ => false, ⟨fun _ => none, []⟩)
  some (shrink P.globals { f with blocks := st.newBlocks })

def loopInvariant : Option Program := do
  let functions ← P.functions.mapM (simplifyFunction P shrink fuel)
  some { P with functions := functions.reverse }

/-- What the first search finds. -/
def infoOf (f : Function) : Info := (events f).foldl (act Info.visit Info.leave) (.init f)

/-- A function before it is shrunk. -/
def function (f : Function) : Function :=
  { f with
    blocks := ((events f).foldl (act (Rewritten.visit P (infoOf f)) Rewritten.leave)
      ⟨fun _ => none, []⟩).newBlocks }

/-- The program before its functions are shrunk. -/
abbrev transform : Program := P.revMap (function P)

/-- The blocks of a function in the order they are visited, each with those that have not been left. -/
abbrev visitsOf (f : Function) : List (Block × (Label → Bool)) := visits (fun _ => false) (events f)

/-- A jump from `l` to `l'`, while the block of `l'` has not been left. -/
def jumpsBack (f : Function) (l l' : Label) : Bool :=
  (visitsOf f).any fun v => v.1.label = l && v.2 l' &&
    match v.1.transfer with
    | .goto dst _ => decide (dst = l')
    | _ => false

end Pass

/-! ### What the first search finds -/

namespace Info

variable {info info' info'' : Info}

/-- What the search has found is not lost. -/
structure Later (info info' : Info) : Prop where
  callsSelf : ∀ l, info.callsSelf l = true → info'.callsSelf l = true
  formals : ∀ l, (info'.invariant l).map Prod.fst = (info.invariant l).map Prod.fst
  invariant : ∀ (l : Label) (i : ℕ) (y : Var), (info'.invariant l)[i]? = some (y, true) →
    (info.invariant l)[i]? = some (y, true)

theorem Later.refl (info : Info) : Later info info := ⟨fun _ h => h, fun _ => rfl, fun _ _ _ h => h⟩

theorem Later.trans (h : Later info info') (h' : Later info' info'') : Later info info'' where
  callsSelf l hl := h'.callsSelf l (h.callsSelf l hl)
  formals l := (h'.formals l).trans (h.formals l)
  invariant l i y hy := h.invariant l i y (h'.invariant l i y hy)

/-- Jumps have as many arguments as their blocks have formals. -/
def GotosFit (info : Info) (b : Block) : Prop :=
  ∀ dst args, b.transfer = .goto dst args → args.length = (info.invariant dst).length

theorem GotosFit.later {b : Block} (h : info.GotosFit b) (hlater : Later info info') :
    info'.GotosFit b := by
  intro dst args ht
  have hlen := congrArg List.length (hlater.formals dst)
  rw [length_map, length_map] at hlen
  rw [h dst args ht, hlen]

theorem visited_visit (b : Block) (info : Info) :
    (visit b info).visited = Function.update info.visited b.label true := by
  rw [visit]
  split
  · split_ifs <;> rfl
  · rfl

/-- The arguments of a jump back. -/
def Repeats (info : Info) (dst : Label) (args : List Var) : Prop :=
  info.callsSelf dst = true ∧
    ∀ (i : ℕ) (y : Var), (info.invariant dst)[i]? = some (y, true) → args[i]? = some y

theorem Repeats.later {dst : Label} {args : List Var} (h : info.Repeats dst args)
    (hlater : Later info info') : info'.Repeats dst args :=
  ⟨hlater.callsSelf dst h.1, fun i y hy => h.2 i y (hlater.invariant dst i y hy)⟩

theorem later_visit {b : Block} (hfit : info.GotosFit b) : Later info (visit b info) ∧
    ∀ dst args, b.transfer = .goto dst args → (visit b info).visited dst = true →
      (visit b info).Repeats dst args := by
  have hvisited := visited_visit b info
  rw [visit] at hvisited ⊢
  cases ht : b.transfer with
  | goto dst args =>
    dsimp only
    have hlen := hfit dst args ht
    split_ifs with hdst
    · refine ⟨⟨fun l hl => ?_, fun l => ?_, fun l i y hy => ?_⟩, ?_⟩
      · by_cases hl' : l = dst
        · subst hl'
          exact Function.update_self ..
        · exact (Function.update_of_ne hl' _ _).trans hl
      · by_cases hl' : l = dst
        · subst hl'
          dsimp only
          rw [Function.update_self, List.map_map]
          refine Eq.trans ?_ (congrArg (List.map Prod.fst)
            (map_snd_zip hlen.ge))
          rw [List.map_map]
          rfl
        · dsimp only
          rw [Function.update_of_ne hl']
      · by_cases hl' : l = dst
        · subst hl'
          dsimp only at hy
          rw [Function.update_self, List.getElem?_map, Option.map_eq_some_iff] at hy
          obtain ⟨⟨x, y', b'⟩, hzip, heq⟩ := hy
          cases hb : b' <;> simp [hb] at heq
          obtain ⟨rfl, -⟩ := heq
          rw [(getElem?_zip_eq_some.1 hzip).2, hb]
        · dsimp only at hy
          rwa [Function.update_of_ne hl'] at hy
      · rintro dst' args' ⟨⟩ -
        refine ⟨Function.update_self .., fun i y hy => ?_⟩
        dsimp only at hy
        rw [Function.update_self, List.getElem?_map, Option.map_eq_some_iff] at hy
        obtain ⟨⟨x, y', b'⟩, hzip, heq⟩ := hy
        cases hb : b' <;> simp [hb] at heq
        obtain ⟨rfl, rfl⟩ := heq
        exact (getElem?_zip_eq_some.1 hzip).1
    · refine ⟨⟨fun _ h => h, fun _ => rfl, fun _ _ _ h => h⟩, ?_⟩
      rintro dst' args' ⟨⟩ hvisit
      exact absurd hvisit hdst
  | _ => exact ⟨⟨fun _ h => h, fun _ => rfl, fun _ _ _ h => h⟩, nofun⟩

/-- What is found at each jump back. By induction on the events. -/
theorem later_foldl {es : List Event} (hfit : ∀ b ∈ entered es, info.GotosFit b) :
    Later info (es.foldl (act visit leave) info) ∧
      ∀ b K, (b, K) ∈ visits info.visited es → ∀ dst args, b.transfer = .goto dst args →
        K dst = true → (es.foldl (act visit leave) info).Repeats dst args := by
  induction es generalizing info with
  | nil => exact ⟨.refl _, nofun⟩
  | cons e es ih =>
    cases e with
    | enter b =>
      have hb : info.GotosFit b := hfit b mem_cons_self
      obtain ⟨hlater, hrepeats⟩ := later_visit hb
      have hfit' (c : Block) (hc : c ∈ entered es) : (visit b info).GotosFit c :=
        (hfit c (mem_cons_of_mem _ hc)).later hlater
      obtain ⟨hlater', hrepeats'⟩ := ih hfit'
      refine ⟨hlater.trans hlater', fun c K hmem dst args ht hK => ?_⟩
      rcases mem_cons.1 hmem with heq | hmem
      · cases heq
        exact (hrepeats dst args ht (by rwa [visited_visit])).later hlater'
      · rw [← visited_visit] at hmem
        exact hrepeats' c K hmem dst args ht hK
    | leave b =>
      obtain ⟨hlater, hrepeats⟩ := @ih (leave b info) hfit
      exact ⟨⟨hlater.callsSelf, hlater.formals, hlater.invariant⟩, hrepeats⟩

theorem callsSelf_visit {b : Block} {l : Label} (h : (visit b info).callsSelf l = true) :
    info.callsSelf l = true ∨ ∃ args, b.transfer = .goto l args := by
  rw [visit] at h
  cases ht : b.transfer with
  | goto dst args =>
    rw [ht] at h
    dsimp only at h
    split_ifs at h
    · by_cases hl : l = dst
      · exact .inr ⟨args, by rw [hl]⟩
      · exact .inl ((Function.update_of_ne hl _ _).symm.trans h)
    · exact .inl h
  | _ =>
    rw [ht] at h
    exact .inl h

/-- Only labels that are jumped to call themselves. -/
theorem callsSelf_foldl {es : List Event} {l : Label}
    (h : (es.foldl (act visit leave) info).callsSelf l = true) :
    info.callsSelf l = true ∨ ∃ b ∈ entered es, ∃ args, b.transfer = .goto l args := by
  induction es generalizing info with
  | nil => exact .inl h
  | cons e es ih =>
    cases e with
    | enter b =>
      rcases ih h with h | ⟨c, hc, ht⟩
      · exact (callsSelf_visit h).imp_right fun ht => ⟨b, mem_cons_self, ht⟩
      · exact .inr ⟨c, mem_cons_of_mem _ hc, ht⟩
    | leave b => exact @ih (leave b info) h

end Info

/-! ### What the second search makes -/

section Rewrite

variable {P : Program} {info : Info} {K : Label → Bool}

/-- The new labels, where `K` have not been left. -/
def labelsAt (P : Program) (info : Info) (K : Label → Bool) (l : Label) : Option Label :=
  if K l && info.changed l then some (newLabel P l) else none

theorem labelsAt_visit (b : Block) :
    (if info.changed b.label then
        Function.update (labelsAt P info K) b.label (some (newLabel P b.label))
      else labelsAt P info K) = labelsAt P info (Function.update K b.label true) := by
  funext l
  by_cases hl : l = b.label
  · subst hl
    by_cases hc : info.changed b.label <;> simp [labelsAt, hc]
  · by_cases hc : info.changed b.label <;> simp [labelsAt, hc, hl]

theorem labelsAt_leave (b : Block) :
    Function.update (labelsAt P info K) b.label none =
      labelsAt P info (Function.update K b.label false) := by
  funext l
  by_cases hl : l = b.label
  · subst hl
    simp [labelsAt]
  · simp [labelsAt, hl]

/-- The blocks are those that the visits make. -/
theorem newBlocks_perm (es : List Event) (bs : List Block) :
    (es.foldl (act (Rewritten.visit P info) Rewritten.leave) ⟨labelsAt P info K, bs⟩).newBlocks.Perm
      ((visits K es).flatMap (fun v => split P info (labelsAt P info v.2) v.1) ++ bs) := by
  induction es generalizing K bs with
  | nil => exact .refl _
  | cons e es ih =>
    cases e with
    | enter b =>
      rw [foldl_cons, act, Rewritten.visit]
      dsimp only
      rw [labelsAt_visit]
      refine (ih _).trans ?_
      rw [visits, flatMap_cons, ← append_assoc]
      exact perm_append_comm.append_right _
    | leave b =>
      rw [foldl_cons, act, Rewritten.leave]
      dsimp only
      rw [labelsAt_leave]
      exact ih _

theorem blocks_perm (f : Function) : (function P f).blocks.Perm
    ((visitsOf f).flatMap fun v => split P (infoOf f) (labelsAt P (infoOf f) v.2) v.1) := by
  have h := @newBlocks_perm P (infoOf f) (fun _ => false) (events f) []
  rw [append_nil] at h
  exact h

end Rewrite

end MultiMLton.Ssa.LoopInvariant
