import MultiMLton.Ssa.EqualEval

/-!
# What the generator of equality keeps

`Makes I s x Q`: from the state `s` the computation `x` succeeds, only adds to the tables, and each
function it adds is `Defined`: it compares values rightly as soon as all functions of the tables
compare smaller values rightly. What is said of an expression or of a function is said for all
states that the tables may still grow to, since functions refer to others that are made later.

* `EqualAt`, `FuncAt`: an expression or a function compares values up to a size;
* `Compares`, `Defined`: it does so in all later states where the functions do;
* `funcAt_of_defined`: where all functions are defined, they compare all values.
-/

namespace MultiMLton.Ssa

open MultiMLton.Atoms List Nat

namespace PolyEqual

namespace State

/-- The types that have a function of equality, with its name. -/
def entries (s : State) : List (Ty × Func) :=
  s.tyconEqualFunc.map (fun p => (.datatype p.1, p.2)) ++
    s.vectorEqualFunc.map fun p => (.vector p.1, p.2)

/-- The new function with a name. -/
def func? (s : State) (f : Func) : Option DFunction :=
  s.newFunctions.find? fun fn => decide (fn.name = f)

/-- Nothing is lost. -/
structure Grows (s s' : State) : Prop where
  nextVar : s.nextVar ≤ s'.nextVar
  nextFunc : s.nextFunc ≤ s'.nextFunc
  entries : s.entries ⊆ s'.entries
  funcs : s.newFunctions ⊆ s'.newFunctions

/-- Names are not used twice, and the variables that are known to be constants are the program's. -/
structure Valid (I : Info) (s : State) : Prop where
  nodup : (s.newFunctions.map DFunction.name).Nodup
  lt : ∀ fn ∈ s.newFunctions, fn.name < s.nextFunc
  const : ∀ x, I.isConst x = true → x < s.nextVar

variable {I : Info} {s s' s'' : State}

theorem Grows.refl (s : State) : s.Grows s :=
  ⟨le_rfl, le_rfl, fun _ h => h, fun _ h => h⟩

theorem Grows.trans (h : s.Grows s') (h' : s'.Grows s'') : s.Grows s'' where
  nextVar := h.nextVar.trans h'.nextVar
  nextFunc := h.nextFunc.trans h'.nextFunc
  entries := fun _ he => h'.entries (h.entries he)
  funcs := fun _ hfn => h'.funcs (h.funcs hfn)

theorem Valid.func? (h : s.Valid I) {fn : DFunction} (hfn : fn ∈ s.newFunctions) :
    s.func? fn.name = some fn := (find?_key_iff h.nodup).2 ⟨hfn, rfl⟩

/-- A new variable is not known to be a constant. -/
theorem Valid.isConst_eq_false (h : s.Valid I) {x : Var} (hx : s.nextVar ≤ x) :
    I.isConst x = false :=
  Bool.eq_false_iff.2 fun hconst => absurd (h.const x hconst) (not_lt.2 hx)

end State

variable (I : Info)

/-- A function decides equality for values of a size up to `k`. -/
def FuncAt (S : State) (k : ℕ) (ty : Ty) (f : Func) : Prop :=
  ∀ H v1 v2 m1 m2, Rep I H ty m1 v1 → Rep I H ty m2 v2 → sizeOf m1 ≤ k →
    Returns (fun n => run I.target H S.func? n f [v1, v2]) (m1 = m2)

/-- All functions of the tables do. -/
def FuncsAt (S : State) (k : ℕ) : Prop := ∀ e ∈ S.entries, FuncAt I S k e.1 e.2

/-- An expression decides equality of what two variables hold, up to a size. -/
def EqualAt (S : State) (k : ℕ) (d : Dexp) (x1 x2 : Var) (ty : Ty) : Prop :=
  ∀ H env v1 v2 m1 m2, env x1 = some v1 → env x2 = some v2 →
    (I.isConst x1 = true → v1.Immediate) → (I.isConst x2 = true → v2.Immediate) →
    Rep I H ty m1 v1 → Rep I H ty m2 v2 → sizeOf m1 ≤ k →
    Returns (fun n => d.eval I.target H S.func? n env) (m1 = m2)

/-- The function compares values if the functions compare smaller ones, now and later. -/
def Defined (s : State) (ty : Ty) (f : Func) : Prop :=
  ∀ S, s.Grows S → S.Valid I → ∀ k, FuncsAt I S k → FuncAt I S (k + 1) ty f

/-- The expression compares values that the functions compare, now and later. -/
def Compares (s : State) (d : Dexp) (x1 x2 : Var) (ty : Ty) : Prop :=
  ∀ S, s.Grows S → S.Valid I → ∀ k, FuncsAt I S k → EqualAt I S k d x1 x2 ty

/-- The functions that are added have new names and are defined. -/
structure Adds (s s' : State) : Prop where
  grows : s.Grows s'
  valid : s'.Valid I
  fresh : ∀ fn ∈ s'.newFunctions, fn ∈ s.newFunctions ∨ s.nextFunc ≤ fn.name
  defined : ∀ e ∈ s'.entries, e ∈ s.entries ∨ Defined I s' e.1 e.2

/-- A computation that succeeds and defines the functions that it adds. -/
def Makes {α : Type} (s : State) (x : Gen α) (Q : α → State → Prop) : Prop :=
  ∃ a s', x s = some (a, s') ∧ Adds I s s' ∧ Q a s'

variable {I} {s s' : State}

theorem Defined.mono {ty : Ty} {f : Func} (h : Defined I s ty f) (hgrows : s.Grows s') :
    Defined I s' ty f := fun S hS => h S (hgrows.trans hS)

theorem Compares.mono {d : Dexp} {x1 x2 : Var} {ty : Ty} (h : Compares I s d x1 x2 ty)
    (hgrows : s.Grows s') : Compares I s' d x1 x2 ty := fun S hS => h S (hgrows.trans hS)

/-- Where all functions are defined, they compare all values. -/
theorem funcsAt_of_defined (hs : s.Valid I) (h : ∀ e ∈ s.entries, Defined I s e.1 e.2) (k : ℕ) :
    FuncsAt I s k := by
  induction k with
  | zero =>
    intro e he H v1 v2 m1 m2 h1 h2 hsize
    cases m1 <;> simp at hsize
  | succ k ih => exact fun e he => h e he s (.refl s) hs k ih

/-! ### Rules -/

theorem Adds.refl (hs : s.Valid I) : Adds I s s :=
  ⟨.refl s, hs, fun _ h => .inl h, fun _ h => .inl h⟩

theorem Adds.trans {s'' : State} (h : Adds I s s') (h' : Adds I s' s'') : Adds I s s'' where
  grows := h.grows.trans h'.grows
  valid := h'.valid
  fresh fn hfn := by
    rcases h'.fresh fn hfn with hold | hnew
    · exact h.fresh fn hold
    · exact .inr (h.grows.nextFunc.trans hnew)
  defined e he := by
    rcases h'.defined e he with hold | hnew
    · exact (h.defined e hold).imp id fun hdefined => hdefined.mono h'.grows
    · exact .inr hnew

section Rules

variable {α β : Type} {x : Gen α} {f : α → Gen β} {Q : α → State → Prop} {R : β → State → Prop}

theorem Makes.pure {a : α} (hs : s.Valid I) (h : Q a s) : Makes I s (Pure.pure a) Q :=
  ⟨a, s, rfl, .refl hs, h⟩

theorem Makes.bind (h : Makes I s x Q)
    (hf : ∀ a s', s.Grows s' → s'.Valid I → Q a s' → Makes I s' (f a) R) :
    Makes I s (x >>= f) R := by
  obtain ⟨a, s', hx, hadds, hQ⟩ := h
  obtain ⟨b, s'', hfa, hadds', hR⟩ := hf a s' hadds.grows hadds.valid hQ
  refine ⟨b, s'', ?_, hadds.trans hadds', hR⟩
  change (x s).bind (fun r => f r.1 r.2) = _
  rw [hx]
  exact hfa

theorem Makes.imp {Q' : α → State → Prop} (h : Makes I s x Q)
    (hQ : ∀ a s', s.Grows s' → s'.Valid I → Q a s' → Q' a s') : Makes I s x Q' := by
  obtain ⟨a, s', hx, hadds, h⟩ := h
  exact ⟨a, s', hx, hadds, hQ a s' hadds.grows hadds.valid h⟩

theorem Makes.lift {o : Option α} {a : α} (hs : s.Valid I) (ho : o = some a) :
    Makes I s (liftM o : Gen α) fun a' s' => a' = a ∧ s' = s := by
  subst ho
  exact ⟨a, s, rfl, .refl hs, rfl, rfl⟩

end Rules

theorem makes_newVar (hs : s.Valid I) :
    Makes I s newVar fun x s' => s.nextVar ≤ x ∧ x < s'.nextVar := by
  refine ⟨s.nextVar, _, rfl, ⟨⟨le_succ _, le_rfl, fun _ h => h, fun _ h => h⟩, ?_,
    fun _ h => .inl h, fun _ h => .inl h⟩, le_rfl, lt_succ_self _⟩
  exact ⟨hs.nodup, hs.lt, fun x hx => (hs.const x hx).trans (lt_succ_self _)⟩

/-- The arguments of a constructor are new variables. -/
theorem makes_makeArgs (hs : s.Valid I) (tys : List Ty) :
    Makes I s (makeArgs tys) fun xs s' => xs.map Prod.snd = tys ∧ (xs.map Prod.fst).Nodup ∧
      ∀ x ∈ xs.map Prod.fst, s.nextVar ≤ x ∧ x < s'.nextVar := by
  induction tys generalizing s with
  | nil => exact .pure hs ⟨rfl, nodup_nil, fun x hx => by cases hx⟩
  | cons ty tys ih =>
    rw [makeArgs]
    refine (makes_newVar hs).bind fun x s₁ hgrows hs₁ hx => (ih hs₁).bind
      fun xs s₂ hgrows' hs₂ hxs => .pure hs₂ ?_
    obtain ⟨rfl, hnodup, hfresh⟩ := hxs
    refine ⟨rfl, nodup_cons.2 ⟨fun hmem => ?_, hnodup⟩, forall_mem_cons.2
      ⟨⟨hx.1, hx.2.trans_le hgrows'.nextVar⟩, fun y hy => ?_⟩⟩
    · exact absurd hx.2 (not_lt.2 (hfresh x hmem).1)
    · exact ⟨hgrows.nextVar.trans (hfresh y hy).1, (hfresh y hy).2⟩

end PolyEqual

end MultiMLton.Ssa

/-!
## The comparison of two variables

`equal` at each type, where the functions it asks for are there or are made. `Ty.keys` are the types
that a comparison may ask a function for, and `Closed` says that a list of types has all that its
functions ask for; `left` counts the types of the list that have no function yet, and is the fuel
that is needed.
-/

namespace MultiMLton.Ssa

open MultiMLton.Atoms

mutual

/-- The types inside a type that are compared by functions, and those of reals. -/
def Ty.keys : Ty → List Ty
  | .datatype t => [.datatype t]
  | .real bits => [.real bits]
  | .tuple ts => keysList ts
  | .vector t => .vector t :: keys t
  | _ => []

def Ty.keysList : List Ty → List Ty
  | [] => []
  | t :: ts => keys t ++ keysList ts

end

theorem Ty.keys_subset_keysList {t : Ty} {ts : List Ty} (h : t ∈ ts) : t.keys ⊆ keysList ts := by
  induction ts with
  | nil => cases h
  | cons u us ih =>
    rw [keysList]
    rcases List.mem_cons.1 h with rfl | h
    · exact List.subset_append_left _ _
    · exact fun k hk => List.mem_append_right _ (ih h hk)

namespace PolyEqual

/-- All that functions for the types of `U` may ask for is in `U`, and can be compared. -/
structure Closed (I : Info) (U : List Ty) : Prop where
  datatype : ∀ t, .datatype t ∈ U → ∃ cons, I.tyconCons t = some cons ∧
    ∀ c ∈ cons, ∀ ty ∈ c.2, ty.keys ⊆ U
  real : ∀ bits, .real bits ∈ U → 0 < bits ∧ bits ≤ 64
  vector : ∀ t, .vector t ∈ U → t.keys ⊆ U

/-- The number of types of `U` without a function. -/
def left (U : List Ty) (s : State) : ℕ := (U.toFinset \ (s.entries.map Prod.fst).toFinset).card

theorem left_mono {U : List Ty} {s s' : State} (h : s.Grows s') : left U s' ≤ left U s := by
  refine Finset.card_le_card (Finset.sdiff_subset_sdiff subset_rfl fun ty hty => ?_)
  rw [List.mem_toFinset] at hty ⊢
  exact List.map_subset _ h.entries hty

/-- A function for another type takes fuel. -/
theorem left_lt {U : List Ty} {s s' : State} (h : s.Grows s') {ty : Ty} (hty : ty ∈ U)
    (hnew : ty ∉ s.entries.map Prod.fst) (hmem : ty ∈ s'.entries.map Prod.fst) :
    left U s' < left U s := by
  refine Finset.card_lt_card (Finset.ssubset_iff_of_subset
    (Finset.sdiff_subset_sdiff subset_rfl fun ty hty => ?_) |>.2 ⟨ty, ?_, ?_⟩)
  · rw [List.mem_toFinset] at hty ⊢
    exact List.map_subset _ h.entries hty
  · exact Finset.mem_sdiff.2 ⟨List.mem_toFinset.2 hty, fun hold => hnew (List.mem_toFinset.1 hold)⟩
  · exact fun hold => (Finset.mem_sdiff.1 hold).2 (List.mem_toFinset.2 hmem)

variable {I : Info} {U : List Ty} {s : State}

/-! ### Sizes of values -/

theorem sizeOf_lt_of_mem {ms : List Value} {m : Value} (h : m ∈ ms) : sizeOf m < sizeOf ms :=
  List.sizeOf_lt_of_mem h

/-! ### Expressions that compare bits -/

section Bits

variable {S : State} {k : ℕ} {x1 x2 : Var}

/-- `eq` compares rightly where values have only one representation, as far as a constant is
known. -/
theorem equalAt_eq (hI : I.ConsNodup) {ty : Ty}
    (hbits : ∀ H m v1 v2, (I.isConst x1 = true → v1.Immediate) →
      (I.isConst x2 = true → v2.Immediate) → Rep I H ty m v1 → Rep I H ty m v2 → v1 = v2) :
    EqualAt I S k (.eq (.var x1 ty) (.var x2 ty) ty) x1 x2 ty :=
  fun H _ v1 v2 m1 _ hx1 hx2 hc1 hc2 h1 h2 _ =>
    (returns_eq (fun n => (Dexp.eval_var n x1 ty).trans hx1)
      fun n => (Dexp.eval_var n x2 ty).trans hx2).congr
        (h1.eq_iff hI h2 fun h => hbits H m1 v1 v2 hc1 hc2 h1 h)

/-- Constants are compared by their bits. -/
theorem equalAt_const (hI : I.ConsNodup) {ty : Ty} (hty : ty = .intInf ∨ ∃ t, ty = .datatype t)
    (hconst : I.hasConstArg x1 x2 = true) :
    EqualAt I S k (.eq (.var x1 ty) (.var x2 ty) ty) x1 x2 ty := by
  refine equalAt_eq hI fun H m v1 v2 hc1 hc2 h1 h2 => ?_
  rw [Info.hasConstArg, Bool.or_eq_true] at hconst
  rcases hty with rfl | ⟨t, rfl⟩
  · rcases hconst with hconst | hconst
    · exact h1.eq_of_small (hc1 hconst) h2
    · exact (h2.eq_of_small (hc2 hconst) h1).symm
  · rcases hconst with hconst | hconst
    · exact h1.eq_of_immediate (hc1 hconst) h2
    · exact (h2.eq_of_immediate (hc2 hconst) h1).symm

/-- Enumerations are compared by their bits. -/
theorem equalAt_enum (hI : I.ConsNodup) {t : Tycon} (henum : I.isEnum t = some true) :
    EqualAt I S k (.eq (.var x1 (.datatype t)) (.var x2 (.datatype t)) (.datatype t)) x1 x2
      (.datatype t) :=
  equalAt_eq hI fun _ _ _ _ _ _ h1 h2 => h1.eq_of_immediate (h1.immediate_of_enum henum) h2

theorem equalAt_intInf : EqualAt I S k
    (.primApp .intInfEqual [] [.var x1 .intInf, .var x2 .intInf] .bool) x1 x2 .intInf := by
  intro H env v1 v2 m1 m2 hx1 hx2 _ _ h1 h2 _
  obtain ⟨i1, rfl, hi1⟩ := h1.intInf_inv
  obtain ⟨i2, rfl, hi2⟩ := h2.intInf_inv
  refine (returns_intInfEqual (fun n => (Dexp.eval_var n x1 _).trans hx1)
    (fun n => (Dexp.eval_var n x2 _).trans hx2) hi1 hi2).congr ?_
  rw [Value.intInf.injEq]

theorem equalAt_cpointer : EqualAt I S k
    (.primApp .cpointerEqual [] [.var x1 .cpointer, .var x2 .cpointer] .bool) x1 x2 .cpointer := by
  intro H env v1 v2 m1 m2 hx1 hx2 _ _ h1 h2 _
  cases h1
  cases h2
  refine (returns_cpointerEqual (fun n => (Dexp.eval_var n x1 _).trans hx1)
    fun n => (Dexp.eval_var n x2 _).trans hx2).congr ?_
  rw [Value.cpointer.injEq]

theorem equalAt_word {size : WordSize} : EqualAt I S k
    (.wordEqual (.var x1 (.word size)) (.var x2 (.word size)) size) x1 x2 (.word size) := by
  intro H env v1 v2 m1 m2 hx1 hx2 _ _ h1 h2 _
  cases h1
  cases h2
  refine (returns_wordEqual (fun n => (Dexp.eval_var n x1 _).trans hx1)
    fun n => (Dexp.eval_var n x2 _).trans hx2).congr ?_
  rw [Value.word.injEq]

theorem equalAt_real {bits : ℕ} {size : WordSize} : EqualAt I S k
    (.wordEqual (.primApp (Prim.realCastToWord bits size) [] [.var x1 (.real bits)] (.word size))
      (.primApp (Prim.realCastToWord bits size) [] [.var x2 (.real bits)] (.word size)) size)
    x1 x2 (.real bits) := by
  intro H env v1 v2 m1 m2 hx1 hx2 _ _ h1 h2 _
  cases h1
  cases h2
  have hcast {x : Var} {w : WordX} (hx : env x = some (.word w)) (n : ℕ) :
      (Dexp.primApp (Prim.realCastToWord bits size) [] [.var x (.real bits)] (.word size)).eval
        I.target H S.func? n env = some (.word w) := by
    rw [Dexp.eval_primApp1, Dexp.eval_var, hx]
    rfl
  refine (returns_wordEqual (hcast hx1) (hcast hx2)).congr ?_
  rw [Value.real.injEq]

end Bits

/-! ### Named expressions -/

/-- `equalExp` names two expressions and compares the variables. -/
theorem makes_equalExp {equal : Var → Var → Gen Dexp} {e1 e2 : Dexp} {ty : Ty} (hs : s.Valid I)
    (he1 : ∀ x t, e1 ≠ .var x t) (he2 : ∀ x t, e2 ≠ .var x t)
    (hequal : ∀ s' x1 x2, s.Grows s' → s'.Valid I → x1 < s'.nextVar → x2 < s'.nextVar →
      Makes I s' (equal x1 x2) fun d s'' => Compares I s'' d x1 x2 ty) :
    Makes I s (equalExp equal e1 e2) fun d s' => ∀ S, s'.Grows S → S.Valid I → ∀ k,
      FuncsAt I S k → ∀ H env v1 v2 m1 m2,
        (∀ n, e1.eval I.target H S.func? n env = some v1) →
        (∀ n x v, s.nextVar ≤ x →
          e2.eval I.target H S.func? n (Function.update env x (some v)) = some v2) →
        Rep I H ty m1 v1 → Rep I H ty m2 v2 → sizeOf m1 ≤ k →
        Returns (fun n => d.eval I.target H S.func? n env) (m1 = m2) := by
  have hname {e : Dexp} (he : ∀ x t, e ≠ .var x t) (f : Var → Gen Dexp) :
      name e f = (do
        let x ← newVar
        let body ← f x
        pure (.name e x body)) := by
    cases e with
    | var x t => exact absurd rfl (he x t)
    | _ => rfl
  rw [equalExp, hname he1]
  refine (makes_newVar hs).bind fun x1 s₁ hgrows₁ hs₁ hx1 => Makes.bind (Q := fun d s' => ∃ x2,
    x1 < x2 ∧ ∃ d', d = .name e2 x2 d' ∧ s₁.nextVar ≤ x2 ∧ Compares I s' d' x1 x2 ty) ?_
    fun d s' hgrows hs' hd => .pure hs' ?_
  · rw [hname he2]
    refine (makes_newVar hs₁).bind fun x2 s₂ hgrows₂ hs₂ hx2 =>
      (hequal s₂ x1 x2 (hgrows₁.trans hgrows₂) hs₂ (hx1.2.trans_le hgrows₂.nextVar) hx2.2).bind
        fun d' s₃ _ hs₃ hd' => .pure hs₃ ⟨x2, hx1.2.trans_le hx2.1, d', rfl, hx2.1, hd'⟩
  · obtain ⟨x2, hlt, d', rfl, hx2, hcompares⟩ := hd
    intro S hS hvalid k hfuncs H env v1 v2 m1 m2 hv1 hv2 h1 h2 hsize
    refine Returns.name hv1 (Returns.name (fun n => hv2 n x1 v1 hx1.1) ?_)
    refine hcompares S hS hvalid k hfuncs H _ v1 v2 m1 m2 ?_ ?_ (fun hconst => ?_) (fun hconst => ?_)
      h1 h2 hsize
    · rw [Function.update_of_ne hlt.ne, Function.update_self]
    · rw [Function.update_self]
    · rw [hs.isConst_eq_false hx1.1] at hconst
      cases hconst
    · rw [hs₁.isConst_eq_false hx2] at hconst
      cases hconst

/-! ### Types -/

section Types

variable {tyconFunc : Tycon → Gen Func} {vectorFunc : Ty → Gen Func} {n : ℕ}

/-- A call of a function of the tables compares rightly. -/
theorem compares_call {ty : Ty} {f : Func} (hf : (ty, f) ∈ s.entries) (x1 x2 : Var) :
    Compares I s (.call f [.var x1 ty, .var x2 ty] .bool) x1 x2 ty := by
  intro S hS hvalid k hfuncs H env v1 v2 m1 m2 hx1 hx2 _ _ h1 h2 hsize
  exact Returns.call2 (fun n => (Dexp.eval_var n x1 ty).trans hx1)
    (fun n => (Dexp.eval_var n x2 ty).trans hx2)
    (hfuncs _ (hS.entries hf) H v1 v2 m1 m2 h1 h2 hsize)

mutual

/-- `equal` compares two variables. -/
theorem makes_equal (hI : I.ConsNodup) (hU : Closed I U)
    (htycon : ∀ t s, s.Valid I → .datatype t ∈ U → left U s ≤ n →
      Makes I s (tyconFunc t) fun f s' => (.datatype t, f) ∈ s'.entries)
    (hvector : ∀ t s, s.Valid I → .vector t ∈ U → left U s ≤ n →
      Makes I s (vectorFunc t) fun f s' => (.vector t, f) ∈ s'.entries)
    (ty : Ty) (s : State) (x1 x2 : Var) (hs : s.Valid I) (hkeys : ty.keys ⊆ U)
    (hleft : left U s ≤ n) (hx1 : x1 < s.nextVar) (hx2 : x2 < s.nextVar) :
    Makes I s (equal I tyconFunc vectorFunc x1 x2 ty) fun d s' => Compares I s' d x1 x2 ty := by
  cases ty with
  | array t | ref t | thread | weak t =>
    rw [equal]
    refine .pure hs fun S _ _ k _ => equalAt_eq hI fun H m v1 v2 _ _ h1 h2 => ?_
    cases h1
    cases h2
    rfl
  | cpointer =>
    rw [equal]
    exact .pure hs fun S _ _ k _ => equalAt_cpointer
  | word size =>
    rw [equal]
    exact .pure hs fun S _ _ k _ => equalAt_word
  | real bits =>
    rw [equal, dif_pos (hU.real bits (hkeys (by simp [Ty.keys])))]
    exact .pure hs fun S _ _ k _ => equalAt_real
  | intInf =>
    rw [equal]
    split
    next hconst => exact .pure hs fun S _ _ k _ => equalAt_const hI (.inl rfl) hconst
    next => exact .pure hs fun S _ _ k _ => equalAt_intInf
  | datatype t =>
    have ht : .datatype t ∈ U := hkeys (by simp [Ty.keys])
    obtain ⟨cons, hcons, -⟩ := hU.datatype t ht
    rw [equal]
    refine (Makes.lift hs (o := I.isEnum t) (a := cons.all fun c => c.2.isEmpty) (by
      rw [Info.isEnum, hcons, Option.map_some])).bind fun isEnum s₁ hgrows hs₁ hand => ?_
    obtain ⟨rfl, rfl⟩ := hand
    split
    next hshort =>
      refine .pure hs₁ fun S _ _ k _ => ?_
      rcases (Bool.or_eq_true _ _).mp hshort with henum | hconst
      · exact equalAt_enum hI (by rw [Info.isEnum, hcons, Option.map_some, henum])
      · exact equalAt_const hI (.inr ⟨t, rfl⟩) hconst
    next =>
      exact (htycon t _ hs₁ ht hleft).bind fun f s₂ _ hs₂ hf => .pure hs₂ (compares_call hf x1 x2)
  | vector t =>
    rw [equal]
    exact (hvector t s hs (hkeys (by simp [Ty.keys])) hleft).bind fun f s₂ _ hs₂ hf =>
      .pure hs₂ (compares_call hf x1 x2)
  | tuple tys =>
    rw [equal]
    rw [Ty.keys] at hkeys
    refine (makes_loop hI hU htycon hvector tys s x1 x2 (.tuple tys) 0 hs hkeys hleft hx1 hx2).imp
      fun d s' _ _ hd S hS hvalid k hfuncs H env v1 v2 m1 m2 hv1 hv2 _ _ h1 h2 hsize => ?_
    obtain ⟨ms1, vs1, rfl, hvs1, hms1⟩ := h1.tuple_inv
    obtain ⟨ms2, vs2, rfl, hvs2, hms2⟩ := h2.tuple_inv
    refine (hd S hS hvalid k hfuncs H env v1 v2 [] vs1 [] vs2 ms1 ms2 hv1 hv2 hvs1 rfl hvs2 rfl
      hms1 hms2 fun m hm => ?_).congr (by rw [Value.tuple.injEq])
    have hlt := sizeOf_lt_of_mem hm
    simp only [Value.tuple.sizeOf_spec] at hsize
    omega

/-- `loop` compares the components that are left. -/
theorem makes_loop (hI : I.ConsNodup) (hU : Closed I U)
    (htycon : ∀ t s, s.Valid I → .datatype t ∈ U → left U s ≤ n →
      Makes I s (tyconFunc t) fun f s' => (.datatype t, f) ∈ s'.entries)
    (hvector : ∀ t s, s.Valid I → .vector t ∈ U → left U s ≤ n →
      Makes I s (vectorFunc t) fun f s' => (.vector t, f) ∈ s'.entries)
    (tys : List Ty) (s : State) (x1 x2 : Var) (t : Ty) (i : ℕ) (hs : s.Valid I)
    (hkeys : Ty.keysList tys ⊆ U) (hleft : left U s ≤ n) (hx1 : x1 < s.nextVar)
    (hx2 : x2 < s.nextVar) :
    Makes I s (loop I tyconFunc vectorFunc (.var x1 t) (.var x2 t) i tys) fun d s' =>
      ∀ S, s'.Grows S → S.Valid I → ∀ k, FuncsAt I S k →
        ∀ H env v1 v2 us1 vs1 us2 vs2 ms1 ms2, env x1 = some v1 → env x2 = some v2 →
          H.components v1 = some (us1 ++ vs1) → us1.length = i →
          H.components v2 = some (us2 ++ vs2) → us2.length = i →
          Reps I H tys ms1 vs1 → Reps I H tys ms2 vs2 → (∀ m ∈ ms1, sizeOf m ≤ k) →
          Returns (fun n => d.eval I.target H S.func? n env) (ms1 = ms2) := by
  cases tys with
  | nil =>
    rw [loop]
    refine .pure hs fun S _ _ k _ H env v1 v2 us1 vs1 us2 vs2 ms1 ms2 _ _ _ _ _ _ h1 h2 _ => ?_
    cases h1
    cases h2
    exact returns_truee.congr (by simp)
  | cons ty tys =>
    rw [Ty.keysList] at hkeys
    rw [loop]
    refine (makes_equalExp hs (fun _ _ h => by cases h) (fun _ _ h => by cases h)
      fun s' y1 y2 hgrows hs' hy1 hy2 => makes_equal hI hU htycon hvector ty s' y1 y2 hs'
        (fun k hk => hkeys (List.mem_append_left _ hk)) ((left_mono hgrows).trans hleft) hy1
        hy2).bind fun d s₁ hgrows hs₁ hd => ?_
    refine (makes_loop hI hU htycon hvector tys s₁ x1 x2 t (i + 1) hs₁
      (fun k hk => hkeys (List.mem_append_right _ hk)) ((left_mono hgrows).trans hleft)
      (hx1.trans_le hgrows.nextVar) (hx2.trans_le hgrows.nextVar)).bind
        fun rest s₂ hgrows' hs₂ hrest => .pure hs₂ ?_
    intro S hS hvalid k hfuncs H env v1 v2 us1 vs1 us2 vs2 ms1 ms2 hv1 hv2 hus1 hlen1 hus2 hlen2
      h1 h2 hsize
    cases h1 with
    | cons hm1 hms1 =>
      cases h2 with
      | cons hm2 hms2 =>
        have hselect {x : Var} {v u : Val} {us us' : List Val} {env : ValEnv} (hx : env x = some v)
            (hus : H.components v = some (us ++ u :: us')) (hlen : us.length = i) (n : ℕ) :
            (Dexp.select (.var x t) i ty).eval I.target H S.func? n env = some u := by
          rw [Dexp.eval_select, Dexp.eval_var, hx, Option.bind_some, hus, Option.bind_some,
            ← hlen, List.getElem?_append_right le_rfl, Nat.sub_self, List.getElem?_cons_zero]
        refine (Returns.conjoin (hd S (hgrows'.trans hS) hvalid k hfuncs H env _ _ _ _
          (hselect hv1 hus1 hlen1) (fun n y v hy => ?_) hm1 hm2 (hsize _ List.mem_cons_self))
          fun _ => hrest S hS hvalid k hfuncs H env v1 v2 (us1 ++ [_]) _ (us2 ++ [_]) _ _ _ hv1 hv2
            (by rw [hus1, List.append_assoc]; rfl) (by rw [List.length_append, hlen1]; rfl)
            (by rw [hus2, List.append_assoc]; rfl) (by rw [List.length_append, hlen2]; rfl) hms1
            hms2 fun m hm => hsize m (List.mem_cons_of_mem _ hm)).congr ?_
        · refine hselect ?_ hus2 hlen2 n
          rw [Function.update_of_ne (hx2.trans_le hy).ne, hv2]
        · rw [List.cons.injEq]

end

end Types

end PolyEqual

end MultiMLton.Ssa
