import MultiMLton.Ssa.PolyEqualVectors

/-!
# Polymorphic equality is structural equality

The pass succeeds on every program whose types are declared, with fuel for each type that may need a
function. The comparison that is put in place of an `MLton_equal` and each function that is made
return, for all values that variables of the type may stand for, whether the values are equal.
-/

namespace MultiMLton.Ssa

open MultiMLton.Atoms List

namespace PolyEqual

variable {I : Info} {U : List Ty} {s : State}

/-! ### Functions that are there already -/

theorem mem_keys_tycon {t : Tycon} :
    .datatype t ∈ s.entries.map Prod.fst ↔ ∃ f, (t, f) ∈ s.tyconEqualFunc := by
  simp [State.entries]

theorem mem_keys_vector {t : Ty} :
    .vector t ∈ s.entries.map Prod.fst ↔ ∃ f, (t, f) ∈ s.vectorEqualFunc := by
  simp [State.entries]

theorem makes_getTyconEqualFunc {t : Tycon} {make : Gen Func} (hs : s.Valid I)
    (hmake : .datatype t ∉ s.entries.map Prod.fst →
      Makes I s make fun f s' => (.datatype t, f) ∈ s'.entries) :
    Makes I s (getTyconEqualFunc t make) fun f s' => (.datatype t, f) ∈ s'.entries := by
  cases hfind : s.tyconEqualFunc.find? fun p => decide (p.1 = t) with
  | some p =>
    have hp : p.1 = t := by simpa using find?_some hfind
    refine ⟨p.2, s, by simp only [getTyconEqualFunc, hfind], .refl hs, ?_⟩
    rw [← hp]
    exact mem_append_left _ (mem_map_of_mem (mem_of_find?_eq_some hfind))
  | none =>
    have hnew : .datatype t ∉ s.entries.map Prod.fst := fun hmem => by
      obtain ⟨f, hf⟩ := mem_keys_tycon.1 hmem
      simpa using find?_eq_none.1 hfind _ hf
    obtain ⟨f, s', hf, hadds, hmem⟩ := hmake hnew
    exact ⟨f, s', by simp only [getTyconEqualFunc, hfind, hf], hadds, hmem⟩

theorem makes_getVectorEqualFunc {t : Ty} {make : Gen Func} (hs : s.Valid I)
    (hmake : .vector t ∉ s.entries.map Prod.fst →
      Makes I s make fun f s' => (.vector t, f) ∈ s'.entries) :
    Makes I s (getVectorEqualFunc t make) fun f s' => (.vector t, f) ∈ s'.entries := by
  cases hfind : s.vectorEqualFunc.find? fun p => decide (p.1 = t) with
  | some p =>
    have hp : p.1 = t := by simpa using find?_some hfind
    refine ⟨p.2, s, by simp only [getVectorEqualFunc, hfind], .refl hs, ?_⟩
    rw [← hp]
    exact mem_append_right _
      (mem_map.2 ⟨p, mem_of_find?_eq_some hfind, rfl⟩)
  | none =>
    have hnew : .vector t ∉ s.entries.map Prod.fst := fun hmem => by
      obtain ⟨f, hf⟩ := mem_keys_vector.1 hmem
      simpa using find?_eq_none.1 hfind _ hf
    obtain ⟨f, s', hf, hadds, hmem⟩ := hmake hnew
    exact ⟨f, s', by simp only [getVectorEqualFunc, hfind, hf], hadds, hmem⟩

/-- A type without a function is left. -/
theorem left_pos {ty : Ty} (hty : ty ∈ U) (hnew : ty ∉ s.entries.map Prod.fst) : 0 < left U s :=
  Finset.card_pos.2 ⟨ty, Finset.mem_sdiff.2
    ⟨mem_toFinset.2 hty, fun hold => hnew (mem_toFinset.1 hold)⟩⟩

/-! ### Fuel -/

/-- With fuel for the types that are left, functions are found or made. -/
theorem makes_funcs (hI : I.ConsNodup) (hU : Closed I U) (n : ℕ) :
    (∀ t s, s.Valid I → .datatype t ∈ U → left U s ≤ n →
      Makes I s (equalTyconFunc I n t) fun f s' => (.datatype t, f) ∈ s'.entries) ∧
    ∀ t s, s.Valid I → .vector t ∈ U → left U s ≤ n →
      Makes I s (vectorEqualFunc I n t) fun f s' => (.vector t, f) ∈ s'.entries := by
  induction n with
  | zero =>
    refine ⟨fun t s hs ht hleft => ?_, fun t s hs ht hleft => ?_⟩
    · rw [equalTyconFunc]
      exact makes_getTyconEqualFunc hs fun hnew => absurd (left_pos ht hnew) (by omega)
    · rw [vectorEqualFunc]
      exact makes_getVectorEqualFunc hs fun hnew => absurd (left_pos ht hnew) (by omega)
  | succ n ih =>
    have hequal : EqualOk I U n (equal I (equalTyconFunc I n) (vectorEqualFunc I n)) :=
      fun ty s x1 x2 => makes_equal hI hU ih.1 ih.2 ty s x1 x2
    refine ⟨fun t s hs ht hleft => ?_, fun t s hs ht hleft => ?_⟩
    · rw [equalTyconFunc]
      exact makes_getTyconEqualFunc hs (makes_newTyconFunc hequal hI hU ht hs hleft)
    · rw [vectorEqualFunc]
      exact makes_getVectorEqualFunc hs (makes_newVectorFunc hequal hI hU ht hs hleft)

/-! ### Statements -/

/-- A statement is `MLton_equal` of two variables at a type. -/
def IsEqual (s : Statement) (ty : Ty) (x1 x2 : Var) : Prop :=
  s.exp = .primApp .mltonEqual [ty] [x1, x2]

theorem makes_doit (hI : I.ConsNodup) (hU : Closed I U) (fuel : ℕ) (ss : List Statement)
    (s : State) (hs : s.Valid I) (hleft : left U s ≤ fuel)
    (hss : ∀ st ∈ ss, ∀ ty x1 x2, IsEqual st ty x1 x2 →
      ty.keys ⊆ U ∧ x1 < s.nextVar ∧ x2 < s.nextVar) :
    Makes I s (doit I fuel ss) fun es s' =>
      (∀ st ∈ ss, ∀ ty x1 x2, IsEqual st ty x1 x2 → ∃ e, (st, e) ∈ es) ∧
      ∀ st e, (st, e) ∈ es → ∃ ty x1 x2, IsEqual st ty x1 x2 ∧ Compares I s' e x1 x2 ty := by
  induction ss generalizing s with
  | nil =>
    rw [doit]
    exact .pure hs ⟨fun st hst => absurd hst not_mem_nil,
      fun st e he => absurd he not_mem_nil⟩
  | cons st ss ih =>
    rw [doit]
    split
    next ty x1 x2 hexp =>
      obtain ⟨hkeys, hx1, hx2⟩ := hss st mem_cons_self ty x1 x2 hexp
      obtain ⟨htycon, hvector⟩ := makes_funcs hI hU fuel
      refine (makes_equal hI hU htycon hvector ty s x1 x2 hs hkeys hleft hx1 hx2).bind
        fun e s₁ hgrows hs₁ he => (ih s₁ hs₁ ((left_mono hgrows).trans hleft)
          fun st' hst' ty' y1 y2 heq => ?_).bind fun es s₂ hgrows' hs₂ hes => .pure hs₂ ⟨?_, ?_⟩
      · obtain ⟨hkeys', hy1, hy2⟩ := hss st' (mem_cons_of_mem _ hst') ty' y1 y2 heq
        exact ⟨hkeys', hy1.trans_le hgrows.nextVar, hy2.trans_le hgrows.nextVar⟩
      · refine forall_mem_cons.2 ⟨fun _ _ _ _ => ⟨e, mem_cons_self⟩, ?_⟩
        intro st' hst' ty' y1 y2 heq
        obtain ⟨e', he'⟩ := hes.1 st' hst' ty' y1 y2 heq
        exact ⟨e', mem_cons_of_mem _ he'⟩
      · intro st' e' he'
        rcases mem_cons.1 he' with heq | he'
        · cases heq
          exact ⟨ty, x1, x2, hexp, he.mono hgrows'⟩
        · exact hes.2 st' e' he'
    next hexp =>
      refine (ih s hs hleft fun st' hst' => hss st' (mem_cons_of_mem _ hst')).imp
        fun es s' _ _ hes => ⟨forall_mem_cons.2 ⟨fun ty x1 x2 heq => ?_, hes.1⟩, hes.2⟩
      exact absurd heq (hexp ty x1 x2)

theorem lt_above {l : List ℕ} {x : ℕ} (h : x ∈ l) : x < above l := by
  induction l with
  | nil => cases h
  | cons y l ih =>
    rcases mem_cons.1 h with rfl | h
    · exact Nat.lt_of_lt_of_le (Nat.lt_succ_self _) (le_max_left _ _)
    · exact (ih h).trans_le (le_max_right _ _)

end PolyEqual

mutual

/-- Vectors inside a type are compared with the types inside them. -/
theorem Ty.keys_of_vector (ty : Ty) {t : Ty} (h : .vector t ∈ ty.keys) : t.keys ⊆ ty.keys := by
  cases ty with
  | vector u =>
    rw [keys, mem_cons] at h
    rw [keys]
    rcases h with h | h
    · cases h
      exact subset_cons_self _ _
    · exact fun k hk => mem_cons_of_mem _ (keys_of_vector u h hk)
  | tuple ts =>
    rw [keys] at h ⊢
    exact keysList_of_vector ts h
  | _ => simp [keys] at h

theorem Ty.keysList_of_vector (ts : List Ty) {t : Ty} (h : .vector t ∈ keysList ts) :
    t.keys ⊆ keysList ts := by
  cases ts with
  | nil => simp [keysList] at h
  | cons u us =>
    rw [keysList, mem_append] at h
    rw [keysList]
    rcases h with h | h
    · exact fun k hk => mem_append_left _ (keys_of_vector u h hk)
    · exact fun k hk => mem_append_right _ (keysList_of_vector us h hk)

end

namespace Program

open PolyEqual

variable (P : Program) (T : Target)

/-- The types inside the types that `MLton_equal` is used at. -/
def equalKeys (s : Statement) : List Ty :=
  match s.exp with
  | .primApp .mltonEqual [ty] _ => ty.keys
  | _ => []

/-- The types that may need a function of equality, and those of reals among them. -/
def equalTypes : List Ty :=
  P.datatypes.flatMap (fun d => .datatype d.tycon :: d.cons.flatMap fun c => Ty.keysList c.2) ++
    P.blockStatements.flatMap equalKeys

/-- Constructors are not declared twice in a datatype, datatypes that occur are declared, and reals
have 32 or 64 bits. -/
structure EqualTyped : Prop where
  cons : ∀ d ∈ P.datatypes, (d.cons.map Prod.fst).Nodup
  declared : ∀ t, .datatype t ∈ P.equalTypes → t ∈ P.datatypes.map Datatype.tycon
  real : ∀ bits, .real bits ∈ P.equalTypes → bits = 32 ∨ bits = 64

variable {P T}

theorem tyconCons_eq_some {t : Tycon} {cons : List (Con × List Ty)}
    (h : (P.equalInfo T).tyconCons t = some cons) :
    ∃ d ∈ P.datatypes, d.tycon = t ∧ d.cons = cons := by
  obtain ⟨d, hd, rfl⟩ := Option.map_eq_some_iff.1 h
  obtain ⟨hmem, htycon⟩ := find?_key hd
  exact ⟨d, hmem, htycon, rfl⟩

theorem consNodup (hP : P.EqualTyped) : (P.equalInfo T).ConsNodup := fun t cons h => by
  obtain ⟨d, hd, -, rfl⟩ := tyconCons_eq_some h
  exact hP.cons d hd

theorem closed (hP : P.EqualTyped) : Closed (P.equalInfo T) P.equalTypes where
  datatype t ht := by
    have hdeclared := hP.declared t ht
    cases hcons : (P.equalInfo T).tyconCons t with
    | none =>
      obtain ⟨d, hd, hdt⟩ := mem_map.1 hdeclared
      have hnone := find?_eq_none.1 (Option.map_eq_none_iff.1 hcons) d hd
      simp [hdt] at hnone
    | some cons =>
      obtain ⟨d, hd, -, rfl⟩ := tyconCons_eq_some hcons
      refine ⟨_, rfl, fun c hc ty hty k hk => mem_append_left _ ?_⟩
      exact mem_flatMap.2 ⟨d, hd, mem_cons_of_mem _
        (mem_flatMap.2 ⟨c, hc, Ty.keys_subset_keysList hty hk⟩)⟩
  real bits h := by
    rcases hP.real bits h with rfl | rfl <;> decide
  vector t h := by
    intro k hk
    rcases mem_append.1 h with h | h
    · obtain ⟨d, hd, h⟩ := mem_flatMap.1 h
      rcases mem_cons.1 h with heq | h
      · cases heq
      · obtain ⟨c, hc, h⟩ := mem_flatMap.1 h
        exact mem_append_left _ (mem_flatMap.2 ⟨d, hd, mem_cons_of_mem _
          (mem_flatMap.2 ⟨c, hc, Ty.keysList_of_vector c.2 h hk⟩)⟩)
    · obtain ⟨s, hs, h⟩ := mem_flatMap.1 h
      refine mem_append_right _ (mem_flatMap.2 ⟨s, hs, ?_⟩)
      unfold equalKeys at h ⊢
      split at h
      next => exact Ty.keys_of_vector _ h hk
      next => cases h

/-! ### The pass -/

/-- The value of an expression that is known to be a constant. -/
def constant? (T : Target) : Exp → Option Val
  | .const c => constVal T c
  | .conApp c [] => some (.con c [])
  | _ => none

/-- Variables hold the constants that are bound to them. -/
def Holds (P : Program) (T : Target) (env : ValEnv) : Prop :=
  ∀ s ∈ P.statements, ∀ x u v, s.var = some x → env x = some u → constant? T s.exp = some v → u = v

theorem immediate_of_isConst {e : Exp} (h : isConst T e = true) :
    ∃ v, constant? T e = some v ∧ v.Immediate := by
  unfold isConst at h
  split at h
  next i =>
    split at h
    next w hw => exact ⟨.word w, by rw [constant?, constVal, hw], trivial⟩
    next => cases h
  next w => exact ⟨.word w, rfl, trivial⟩
  next c args =>
    obtain rfl := isEmpty_iff.1 h
    exact ⟨.con c [], rfl, trivial⟩
  next => cases h

theorem Holds.immediate {env : ValEnv} (h : P.Holds T env) {x : Var} {u : Val} (hx : env x = some u)
    (hconst : (P.equalInfo T).isConst x = true) : u.Immediate := by
  obtain ⟨s, hs, hsx⟩ := any_eq_true.1 hconst
  rw [Bool.and_eq_true, decide_eq_true_eq] at hsx
  obtain ⟨v, hv, himmediate⟩ := immediate_of_isConst hsx.2
  rwa [h s hs x u v hsx.1 hx hv]

theorem valid_equalStart : P.equalStart.Valid (P.equalInfo T) where
  nodup := nodup_nil
  lt fn hfn := absurd hfn not_mem_nil
  const x hx := by
    obtain ⟨s, hs, hsx⟩ := any_eq_true.1 hx
    rw [Bool.and_eq_true, decide_eq_true_eq] at hsx
    refine lt_above (mem_append_right _ (mem_flatMap.2 ⟨s, hs, ?_⟩))
    rw [hsx.1]
    exact mem_append_left _ mem_cons_self

/-- The variables of a block's statement are not used for new ones. -/
theorem lt_nextVar {s : Statement} (hs : s ∈ P.blockStatements) {x : Var} (hx : x ∈ s.exp.vars) :
    x < P.equalStart.nextVar :=
  lt_above (mem_append_right _ (mem_flatMap.2
    ⟨s, mem_append_right _ hs, mem_append_right _ hx⟩))

/-- Polymorphic equality is structural. The pass comes to an end, each `MLton_equal` has a comparison
in its place, and comparisons and functions return, for all values that the variables of the type may
stand for, whether these are equal. -/
theorem polyEqual_structural (hP : P.EqualTyped) :
    ∃ fuel es s', P.polyEqual T fuel = some (es, s') ∧
      (∀ s ∈ P.blockStatements, ∀ ty x1 x2, IsEqual s ty x1 x2 → ∃ e, (s, e) ∈ es) ∧
      (∀ s e, (s, e) ∈ es → ∃ ty x1 x2, IsEqual s ty x1 x2 ∧ ∀ H env v1 v2 m1 m2,
        P.Holds T env → env x1 = some v1 → env x2 = some v2 →
        Rep (P.equalInfo T) H ty m1 v1 → Rep (P.equalInfo T) H ty m2 v2 →
        Returns (fun n => e.eval T H s'.func? n env) (m1 = m2)) ∧
      ∀ ty f, (ty, f) ∈ s'.entries → ∀ H v1 v2 m1 m2,
        Rep (P.equalInfo T) H ty m1 v1 → Rep (P.equalInfo T) H ty m2 v2 →
        Returns (fun n => run T H s'.func? n f [v1, v2]) (m1 = m2) := by
  obtain ⟨es, s', hdoit, hadds, hhas, hcompares⟩ := makes_doit (consNodup (T := T) hP) (closed hP)
    (left P.equalTypes P.equalStart) P.blockStatements P.equalStart valid_equalStart le_rfl
    fun s hs ty x1 x2 heq => by
      have hvars : s.exp.vars = [x1, x2] := by rw [heq]; rfl
      refine ⟨fun k hk => List.mem_append_right _ (List.mem_flatMap.2 ⟨s, hs, ?_⟩),
        lt_nextVar hs (by simp [hvars]), lt_nextVar hs (by simp [hvars])⟩
      rwa [equalKeys, heq]
  have hdefined : ∀ e ∈ s'.entries, Defined (P.equalInfo T) s' e.1 e.2 := fun e he =>
    (hadds.defined e he).resolve_left List.not_mem_nil
  have hfuncs := funcsAt_of_defined hadds.valid hdefined
  refine ⟨_, es, s', hdoit, hhas, fun s e he => ?_, fun ty f hf H v1 v2 m1 m2 h1 h2 => ?_⟩
  · obtain ⟨ty, x1, x2, heq, hcompare⟩ := hcompares s e he
    refine ⟨ty, x1, x2, heq, fun H env v1 v2 m1 m2 hholds hv1 hv2 h1 h2 => ?_⟩
    exact hcompare s' (.refl s') hadds.valid (sizeOf m1) (hfuncs _) H env v1 v2 m1 m2 hv1 hv2
      (hholds.immediate hv1) (hholds.immediate hv2) h1 h2 le_rfl
  · exact hfuncs (sizeOf m1) (ty, f) hf H v1 v2 m1 m2 h1 h2 le_rfl

section Trees

/-- The comparison of two trees, with integers at the leaves and vectors of trees at the nodes. -/
def equalTrees : Statement := ⟨some 2, .bool, .primApp .mltonEqual [.datatype 1] [0, 1]⟩

def trees : Program where
  datatypes := [⟨0, [(.bool false, []), (.bool true, [])]⟩,
    ⟨1, [(.named 0, [.intInf]), (.named 1, [.vector (.datatype 1)])]⟩]
  globals := []
  functions := [{
    args := [(0, .datatype 1), (1, .datatype 1)]
    blocks := [⟨[], 0, [equalTrees], .ret [2]⟩]
    mayInline := false
    name := 0
    raises := none
    returns := some [.bool]
    start := 0 }]
  main := 0

theorem trees_equalTyped : trees.EqualTyped where
  cons := by decide
  declared t h := by
    have htycon : t = 0 ∨ t = 1 := by
      simpa [trees, equalTypes, blockStatements, blocks, equalTrees, equalKeys, Ty.keys,
        Ty.keysList] using h
    rcases htycon with rfl | rfl <;> decide
  real bits h := by
    simp [trees, equalTypes, blockStatements, blocks, equalTrees, equalKeys, Ty.keys,
      Ty.keysList] at h

/-- The leaf with the integer five, as an immediate and as an object. -/
theorem polyEqual_structural_trees :
    let size : WordSize := ⟨64, by decide, by decide⟩
    let T : Target := ⟨size, size, size, by decide, false, .allNan⟩
    let five : Val := .word (WordX.make 11 size)
    let H : Heap := fun _ => some (.con (.named 0) [five])
    let env : ValEnv := fun x => if x = 0 then some (.con (.named 0) [five]) else some (.ptr 0)
    ∃ fuel es s' e, trees.polyEqual T fuel = some (es, s') ∧ (equalTrees, e) ∈ es ∧
      ∃ n, e.eval T H s'.func? n env = some (.bool true) := by
  intro size T five H env
  obtain ⟨fuel, es, s', hrun, hhas, hcompares, -⟩ := polyEqual_structural (T := T) trees_equalTyped
  obtain ⟨e, he⟩ := hhas equalTrees (by decide) (.datatype 1) 0 1 rfl
  obtain ⟨ty, x1, x2, heq, hcompare⟩ := hcompares equalTrees e he
  cases heq
  have hfive : Reps (trees.equalInfo T) H [.intInf] [.intInf 5] [five] :=
    .cons (.small ((Prim.toWord_of_fits (by decide)).trans (by rw [WordX.make_eq]; rfl))) .nil
  have hholds : trees.Holds T env := fun s hs x u v _ _ hv => by
    obtain rfl : s = equalTrees := by
      simpa [trees, statements, blockStatements, blocks] using hs
    cases hv
  have hcons : (trees.equalInfo T).tyconCons 1 =
      some [(.named 0, [.intInf]), (.named 1, [.vector (.datatype 1)])] := rfl
  obtain ⟨b, hb, hreturns⟩ := hcompare H env _ _ _ _ hholds rfl rfl (.con hcons mem_cons_self hfive)
    (.conObj hcons mem_cons_self (List.cons_ne_nil _ _) hfive rfl)
  obtain ⟨n, hn⟩ := hreturns.exists
  exact ⟨fuel, es, s', e, hrun, he, n, hb.2 rfl ▸ hn⟩

end Trees

end Program

end MultiMLton.Ssa
