import MultiMLton.Ssa.PolyEqualVars

/-!
# The functions of equality

The function for a datatype compares values of it if the functions compare the arguments, and the
functions for a type of vectors compare vectors if the functions compare the elements. From this, by
induction on the fuel, `equalTyconFunc` and `vectorEqualFunc` make functions that are `Defined`, where
the fuel is at least the number of types that have no function yet.
-/

namespace MultiMLton.Ssa

open MultiMLton.Atoms List Option Nat

namespace PolyEqual

variable {I : Info} {U : List Ty} {s : State} {n : ℕ} {equal : Var → Var → Ty → Gen Dexp}

/-- `equal` compares variables at the types of `U`. -/
def EqualOk (I : Info) (U : List Ty) (n : ℕ) (equal : Var → Var → Ty → Gen Dexp) : Prop :=
  ∀ ty s x1 x2, s.Valid I → ty.keys ⊆ U → left U s ≤ n → x1 < s.nextVar → x2 < s.nextVar →
    Makes I s (equal x1 x2 ty) fun d s' => Compares I s' d x1 x2 ty

/-! ### Cases -/

/-- Variables that are bound to values. -/
abbrev Bound (env : ValEnv) : List (Var × Ty) → List Val → Prop :=
  List.Forall₂ fun x v => env x.1 = some v

theorem Bound.bind {env : ValEnv} {xs ys : List (Var × Ty)} {vs us : List Val} (h : Bound env xs vs)
    (hxs : ∀ x ∈ xs.map Prod.fst, x ∉ ys.map Prod.fst) : Bound (env.bind ys us) xs vs := by
  induction h with
  | nil => exact .nil
  | cons hx _ ih =>
    rw [map_cons, forall_mem_cons] at hxs
    exact .cons (by rw [ValEnv.bind_of_notMem hxs.1, hx]) (ih hxs.2)

theorem makes_conjoinArgs (hequal : EqualOk I U n equal) (xs ys : List (Var × Ty)) (de : Dexp)
    (s : State) (hs : s.Valid I) (htys : ys.map Prod.snd = xs.map Prod.snd)
    (hkeys : ∀ ty ∈ xs.map Prod.snd, ty.keys ⊆ U) (hleft : left U s ≤ n)
    (hxs : ∀ x ∈ xs.map Prod.fst, x < s.nextVar ∧ I.isConst x = false)
    (hys : ∀ y ∈ ys.map Prod.fst, y < s.nextVar ∧ I.isConst y = false) :
    Makes I s (conjoinArgs equal xs ys de) fun d s' => ∀ S, s'.Grows S → S.Valid I → ∀ k,
      FuncsAt I S k → ∀ (H : Heap) (env : ValEnv) vs1 vs2 ms1 ms2 p, Bound env xs vs1 → Bound env ys vs2 →
        Reps I H (xs.map Prod.snd) ms1 vs1 → Reps I H (xs.map Prod.snd) ms2 vs2 →
        (∀ m ∈ ms1, sizeOf m ≤ k) →
        Returns (fun n => de.eval I.target H S.func? n env) p →
        Returns (fun n => d.eval I.target H S.func? n env) (p ∧ ms1 = ms2) := by
  induction xs generalizing ys de s with
  | nil =>
    refine .pure hs fun S _ _ k _ H env vs1 vs2 ms1 ms2 p _ _ h1 h2 _ hp => hp.congr ?_
    cases h1
    cases h2
    simp
  | cons x xs ih =>
    cases ys with
    | nil => cases htys
    | cons y ys =>
      simp only [map_cons, List.cons.injEq, forall_mem_cons] at htys hkeys hxs hys
      rw [conjoinArgs]
      refine (hequal x.2 s x.1 y.1 hs hkeys.1 hleft hxs.1.1 hys.1.1).bind
        fun e s₁ hgrows hs₁ he => ?_
      refine (ih ys (.conjoin de e) s₁ hs₁ htys.2 hkeys.2 ((left_mono hgrows).trans hleft)
        (fun x hx => ⟨(hxs.2 x hx).1.trans_le hgrows.nextVar, (hxs.2 x hx).2⟩)
        fun y hy => ⟨(hys.2 y hy).1.trans_le hgrows.nextVar, (hys.2 y hy).2⟩).imp
        fun d s₂ hgrows' hs₂ hd S hS hvalid k hfuncs H env vs1 vs2 ms1 ms2 p hb1 hb2 h1 h2 hsize
          hp => ?_
      cases h1 with
      | cons hm1 hms1 =>
        cases h2 with
        | cons hm2 hms2 =>
          cases hb1 with
          | cons hx hb1 =>
            cases hb2 with
            | cons hy hb2 =>
              rw [forall_mem_cons] at hsize
              have hcompare := he S (hgrows'.trans hS) hvalid k hfuncs H env _ _ _ _ hx hy
                (fun hconst => by rw [hxs.1.2] at hconst; cases hconst)
                (fun hconst => by rw [hys.1.2] at hconst; cases hconst) hm1 hm2 hsize.1
              refine (hd S hS hvalid k hfuncs H env _ _ _ _ _ hb1 hb2 hms1 hms2 hsize.2
                (hp.conjoin fun _ => hcompare)).congr ?_
              rw [List.cons.injEq, and_assoc]

/-- A case compares the arguments of its constructor with another value. -/
def CaseAt (I : Info) (tycon : Tycon) (x2 : Var) (args : List Ty)
    (c : Con × List (Var × Ty) × Dexp) (s : State) : Prop :=
  ∀ S, s.Grows S → S.Valid I → ∀ k, FuncsAt I S k → ∀ (H : Heap) (env : ValEnv) v2 m2 ms1 vs1,
    env x2 = some v2 → Rep I H (.datatype tycon) m2 v2 → Reps I H args ms1 vs1 →
    (∀ m ∈ ms1, sizeOf m ≤ k) →
    Returns (fun n => c.2.2.eval I.target H S.func? n (env.bind c.2.1 vs1)) (.con c.1 ms1 = m2)

variable {cons : List (Con × List Ty)} {tycon : Tycon}

theorem makes_conCase (hequal : EqualOk I U n equal) (hI : I.ConsNodup)
    (hcons : I.tyconCons tycon = some cons) {con : Con}
    {args : List Ty} (hmem : (con, args) ∈ cons) {x2 : Var} (hs : s.Valid I)
    (hkeys : ∀ ty ∈ args, ty.keys ⊆ U) (hleft : left U s ≤ n) (hx2 : x2 < s.nextVar) :
    Makes I s (conCase equal (.var x2 (.datatype tycon)) (decide (1 = cons.length)) con args)
      fun c s' => c.1 = con ∧ CaseAt I tycon x2 args c s' := by
  rw [conCase]
  refine (makes_makeArgs hs args).bind fun xs s₁ hgrows₁ hs₁ hxs =>
    (makes_makeArgs hs₁ args).bind fun ys s₂ hgrows₂ hs₂ hys => ?_
  obtain ⟨hxtys, hxnodup, hxfresh⟩ := hxs
  obtain ⟨hytys, hynodup, hyfresh⟩ := hys
  refine (makes_conjoinArgs hequal xs ys .truee s₂ hs₂ (hytys.trans hxtys.symm)
    (by rwa [hxtys]) ((left_mono (hgrows₁.trans hgrows₂)).trans hleft)
    (fun x hx => ⟨(hxfresh x hx).2.trans_le hgrows₂.nextVar, hs.isConst_eq_false (hxfresh x hx).1⟩)
    fun y hy => ⟨(hyfresh y hy).2, hs₁.isConst_eq_false (hyfresh y hy).1⟩).bind
    fun body s₃ _ hs₃ hbody => .pure hs₃ ⟨rfl, ?_⟩
  intro S hS hvalid k hfuncs H env v2 m2 ms1 vs1 hv2 h2 hms1 hsize
  have hxlen : xs.length = vs1.length := by
    rw [← hms1.lengths.1, ← hxtys, length_map]
  have hx2mem : x2 ∉ xs.map Prod.fst := fun hmem => absurd hx2 (not_lt.2 (hxfresh x2 hmem).1)
  obtain ⟨cons', c2, ts2, ms2, vs2, hcons', hc2, rfl, hargs2, hms2, -⟩ := h2.datatype
  cases hcons.symm.trans hcons'
  have htest (n : ℕ) : (Dexp.var x2 (.datatype tycon)).eval I.target H S.func? n
      (env.bind xs vs1) = some v2 := by
    rw [Dexp.eval_var, ValEnv.bind_of_notMem hx2mem, hv2]
  by_cases hc : c2 = con
  · -- the constructor is the same: the arguments are compared
    subst hc
    cases mem_unique hI hcons hmem hc2
    have hylen : ys.length = vs2.length := by
      rw [← hms2.lengths.1, ← hytys, length_map]
    have hdisjoint : ∀ x ∈ xs.map Prod.fst, x ∉ ys.map Prod.fst := fun x hx hy =>
      absurd (hxfresh x hx).2 (not_lt.2 (hyfresh x hy).1)
    have hreturns := hbody S hS hvalid k hfuncs H ((env.bind xs vs1).bind ys vs2) vs1 vs2 ms1 ms2
      True (Bound.bind (ValEnv.bind_self hxnodup hxlen) hdisjoint) (ValEnv.bind_self hynodup hylen)
      (by rwa [hxtys]) (by rwa [hxtys]) hsize returns_truee
    refine (hreturns.congr (by simp)).of_eq fun n => (Dexp.eval_casee n (htest n) hargs2).trans ?_
    rw [Dexp.evalCases, if_pos rfl]
    rfl
  · -- another constructor: there is a default, since there are two constructors
    have hlength : 1 ≠ cons.length := fun hlen => by
      obtain ⟨c, rfl⟩ := length_eq_one_iff.1 hlen.symm
      rw [mem_singleton] at hmem hc2
      exact hc (congrArg Prod.fst (hc2.trans hmem.symm))
    have hfalse : Returns (fun n => Dexp.falsee.eval I.target H S.func? n (env.bind xs vs1))
        (Value.con con ms1 = .con c2 ms2) := returns_falsee.congr (by simp [Ne.symm hc])
    refine hfalse.of_eq fun n => (Dexp.eval_casee n (htest n) hargs2).trans ?_
    rw [Dexp.evalCases, if_neg hc, Dexp.evalCases, if_neg (by simpa using hlength),
      getD_none, Dexp.evalDefault]
    rfl

/-- There is a case for each constructor with arguments, and no other. -/
structure CasesAt (I : Info) (tycon : Tycon) (x2 : Var) (l : List (Con × List Ty))
    (cs : List (Con × List (Var × Ty) × Dexp)) (s : State) : Prop where
  some : ∀ con args, (con, args) ∈ l → args ≠ [] → ∃ c, CaseAt I tycon x2 args c s ∧ c.1 = con ∧
    ∀ T H call env vs, Dexp.evalCases T H call env con vs cs =
      .some (c.2.2.evalWith T H call (env.bind c.2.1 vs))
  none : ∀ con, (∀ args, (con, args) ∈ l → args = []) →
    ∀ T H call env vs, Dexp.evalCases T H call env con vs cs = .none

theorem makes_conCases (hequal : EqualOk I U n equal) (hI : I.ConsNodup)
    (hcons : I.tyconCons tycon = some cons) {x2 : Var}
    (hkeys : ∀ c ∈ cons, ∀ ty ∈ c.2, ty.keys ⊆ U) (l : List (Con × List Ty)) (hl : l ⊆ cons)
    (hnodup : (l.map Prod.fst).Nodup) (s : State) (hs : s.Valid I) (hleft : left U s ≤ n)
    (hx2 : x2 < s.nextVar) :
    Makes I s (conCases equal (.var x2 (.datatype tycon)) (decide (1 = cons.length)) l)
      (CasesAt I tycon x2 l) := by
  induction l generalizing s with
  | nil =>
    refine .pure hs ⟨fun con args hmem => absurd hmem not_mem_nil,
      fun con _ T H call env vs => ?_⟩
    rw [Dexp.evalCases]
  | cons c l ih =>
    obtain ⟨con, args⟩ := c
    have hmem : (con, args) ∈ cons := hl mem_cons_self
    rw [map_cons, nodup_cons] at hnodup
    have hne {con' : Con} {args' : List Ty} (h : (con', args') ∈ l) : con' ≠ con := by
      rintro rfl
      exact hnodup.1 (mem_map.2 ⟨_, h, rfl⟩)
    have hl' : l ⊆ cons := fun c hc => hl (mem_cons_of_mem _ hc)
    rw [conCases]
    by_cases hargs : args = []
    · -- no case for a constructor without arguments
      subst hargs
      refine (ih hl' hnodup.2 s hs hleft hx2).imp fun cs s' _ _ hcs => ⟨?_, ?_⟩
      · intro con' args' hmem' hne'
        rcases mem_cons.1 hmem' with heq | hmem'
        · cases heq
          exact absurd rfl hne'
        · exact hcs.some con' args' hmem' hne'
      · exact fun con' hnull => hcs.none con' fun args' h => hnull args' (mem_cons_of_mem _ h)
    · rw [if_neg (by simpa using hargs)]
      refine (makes_conCase hequal hI hcons hmem hs (hkeys _ hmem) hleft hx2).bind
        fun c s₁ hgrows hs₁ hc => ?_
      refine (ih hl' hnodup.2 s₁ hs₁ ((left_mono hgrows).trans hleft)
        (hx2.trans_le hgrows.nextVar)).bind fun cs s₂ hgrows' hs₂ hcs => .pure hs₂ ⟨?_, ?_⟩
      · intro con' args' hmem' hne'
        rcases mem_cons.1 hmem' with heq | hmem'
        · cases heq
          refine ⟨c, fun S hS => hc.2 S (hgrows'.trans hS), hc.1, fun T H call env vs => ?_⟩
          rw [Dexp.evalCases, if_pos hc.1.symm]
        · obtain ⟨c', hc', hcon', heval⟩ := hcs.some con' args' hmem' hne'
          refine ⟨c', hc', hcon', fun T H call env vs => ?_⟩
          rw [Dexp.evalCases, if_neg (hc.1 ▸ hne hmem'), heval]
      · intro con' hnull T H call env vs
        have hcon' : con' ≠ c.1 := by
          rw [hc.1]
          rintro rfl
          exact hargs (hnull args mem_cons_self)
        rw [Dexp.evalCases, if_neg hcon',
          hcs.none con' fun args' h => hnull args' (mem_cons_of_mem _ h)]

/-! ### Datatypes -/

/-- The function for a datatype compares its values. -/
theorem funcAt_tyconFunction (hI : I.ConsNodup)
    (hcons : I.tyconCons tycon = some cons) {name : Func} {arg1 arg2 : Var} (harg : arg1 ≠ arg2)
    {cases : List (Con × List (Var × Ty) × Dexp)} (hcases : CasesAt I tycon arg2 cons cases s)
    {S : State} (hS : s.Grows S) (hvalid : S.Valid I)
    (hmem : tyconFunction tycon name arg1 arg2 cons cases ∈ S.newFunctions) {k : ℕ}
    (hfuncs : FuncsAt I S k) : FuncAt I S (k + 1) (.datatype tycon) name := by
  intro H v1 v2 m1 m2 h1 h2 hsize
  refine Returns.run (hvalid.func? hmem) ?_
  generalize henv : ValEnv.bind (fun _ => none)
    (tyconFunction tycon name arg1 arg2 cons cases).args [v1, v2] = env
  have hv1 : env arg1 = some v1 := by
    rw [← henv]
    simp [tyconFunction, ValEnv.bind, Function.update_of_ne harg]
  have hv2 : env arg2 = some v2 := by
    rw [← henv]
    simp [tyconFunction, ValEnv.bind]
  have hvar1 (n : ℕ) : (Dexp.var arg1 (.datatype tycon)).eval I.target H S.func? n env = some v1 :=
    (Dexp.eval_var n _ _).trans hv1
  have hvar2 (n : ℕ) : (Dexp.var arg2 (.datatype tycon)).eval I.target H S.func? n env = some v2 :=
    (Dexp.eval_var n _ _).trans hv2
  refine Returns.congr (Returns.disjoin (returns_eq hvar1 hvar2) (q := m1 = m2) fun hne => ?_) ?_
  · obtain ⟨cons', c, ts, ms1, vs1, hcons', hc, rfl, hargs, hms1, hnull⟩ := h1.datatype
    cases hcons.symm.trans hcons'
    by_cases hts : ts = []
    · -- a constructor without arguments would have the same bits
      have hv1null := hnull hts
      have hfalse : Returns (fun n => Dexp.falsee.eval I.target H S.func? n env)
          (Value.con c ms1 = m2) := returns_falsee.congr (iff_of_false id fun heq => by
        subst heq
        exact hne (h1.eq_of_immediate (by rw [hv1null]; trivial) h2))
      refine hfalse.of_eq fun n => (Dexp.eval_casee n (hvar1 n) hargs).trans ?_
      have hany : (cons.any fun c => c.2.isEmpty) = true :=
        any_eq_true.2 ⟨_, hc, isEmpty_iff.2 hts⟩
      rw [hcases.none c (fun ts' hts' => (mem_unique hI hcons hts' hc).trans hts), if_pos hany,
        getD_none, Dexp.evalDefault]
      rfl
    · obtain ⟨casee, hcase, rfl, heval⟩ := hcases.some c ts hc hts
      refine (hcase S hS hvalid k hfuncs H env v2 m2 ms1 vs1 hv2 h2 hms1 fun m hm => ?_).of_eq
        fun n => (Dexp.eval_casee n (hvar1 n) hargs).trans ?_
      · have hlt := sizeOf_lt_of_mem hm
        simp only [Value.con.sizeOf_spec] at hsize
        omega
      · rw [heval, getD_some]
        rfl
  · refine or_iff_right_of_imp ?_
    rintro rfl
    exact h1.inj hI h2

theorem State.grows_newFunction (s : State) (fn : DFunction) :
    s.Grows { s with newFunctions := fn :: s.newFunctions } :=
  ⟨le_rfl, le_rfl, fun _ h => h, subset_cons_self _ _⟩

/-- A function of a name that was kept for it is added. -/
theorem Adds.newFunction (fn : DFunction) {s₁ s₂ : State} (hgrows : s.Grows s₁)
    (hold : ∀ fn' ∈ s₁.newFunctions, fn' ∈ s.newFunctions ∨ s.nextFunc ≤ fn'.name)
    (hadds : Adds I s₁ s₂) (hname : s.nextFunc ≤ fn.name) (hlt : fn.name < s₁.nextFunc)
    (hne : ∀ fn' ∈ s₁.newFunctions, fn'.name ≠ fn.name)
    (hdefined : ∀ e ∈ s₁.entries, e ∉ s.entries →
      Defined I { s₂ with newFunctions := fn :: s₂.newFunctions } e.1 e.2) :
    Adds I s { s₂ with newFunctions := fn :: s₂.newFunctions } := by
  have hgrows' := s₂.grows_newFunction fn
  have hfresh : ∀ fn' ∈ s₂.newFunctions, fn'.name ≠ fn.name := fun fn' hfn' => by
    rcases hadds.fresh fn' hfn' with hold | hlater
    · exact hne fn' hold
    · exact (hlt.trans_le hlater).ne'
  refine ⟨hgrows.trans (hadds.grows.trans hgrows'), ⟨?_, ?_, hadds.valid.const⟩, ?_, fun e he => ?_⟩
  · refine nodup_cons.2 ⟨fun hmem => ?_, hadds.valid.nodup⟩
    obtain ⟨fn', hfn', heq⟩ := mem_map.1 hmem
    exact hfresh fn' hfn' heq
  · exact forall_mem_cons.2 ⟨hlt.trans_le hadds.grows.nextFunc, hadds.valid.lt⟩
  · refine forall_mem_cons.2 ⟨.inr hname, fun fn' hfn' => ?_⟩
    rcases hadds.fresh fn' hfn' with h | h
    · exact hold fn' h
    · exact .inr (hgrows.nextFunc.trans h)
  · rcases hadds.defined e he with hold | hnew
    · exact or_iff_not_imp_left.2 (hdefined e hold)
    · exact .inr (hnew.mono hgrows')

/-- The cases are made in a state that has the name. -/
theorem newTyconFunc_eq (hcons : I.tyconCons tycon = some cons) (s : State) :
    newTyconFunc I equal tycon s =
      (conCases equal (.var (s.nextVar + 1) (.datatype tycon)) (decide (1 = cons.length)) cons {
        s with
        nextVar := s.nextVar + 2
        nextFunc := s.nextFunc + 1
        tyconEqualFunc := (tycon, s.nextFunc) :: s.tyconEqualFunc }).bind fun r =>
          some (s.nextFunc, {
            r.2 with
            newFunctions := tyconFunction tycon s.nextFunc s.nextVar (s.nextVar + 1) cons r.1 ::
              r.2.newFunctions }) := by
  have hlift : (liftM (I.tyconCons tycon) : Gen _) = pure cons := by
    rw [hcons]
    rfl
  rw [newTyconFunc]
  simp only [hlift]
  rfl

theorem makes_newTyconFunc (hequal : EqualOk I U n equal) (hI : I.ConsNodup) (hU : Closed I U)
    (htycon : .datatype tycon ∈ U) (hs : s.Valid I) (hleft : left U s ≤ n + 1)
    (hnew : .datatype tycon ∉ s.entries.map Prod.fst) :
    Makes I s (newTyconFunc I equal tycon) fun f s' => (.datatype tycon, f) ∈ s'.entries := by
  obtain ⟨cons, hcons, hkeys⟩ := hU.datatype tycon htycon
  -- the state in which the cases are made
  generalize hs₁ : ({
    s with
    nextVar := s.nextVar + 2
    nextFunc := s.nextFunc + 1
    tyconEqualFunc := (tycon, s.nextFunc) :: s.tyconEqualFunc } : State) = s₁
  have hentries : s₁.entries = (.datatype tycon, s.nextFunc) :: s.entries := by rw [← hs₁]; rfl
  have hfuncs : s₁.newFunctions = s.newFunctions := by rw [← hs₁]
  have hnextVar : s₁.nextVar = s.nextVar + 2 := by rw [← hs₁]
  have hnextFunc : s₁.nextFunc = s.nextFunc + 1 := by rw [← hs₁]
  have hgrows : s.Grows s₁ := ⟨hnextVar ▸ le_add_right _ _, hnextFunc ▸ le_succ _, hentries ▸ subset_cons_self _ _,
    fun _ h => hfuncs ▸ h⟩
  have hvalid : s₁.Valid I := ⟨hfuncs ▸ hs.nodup, fun fn hfn => by
    exact (hs.lt fn (hfuncs ▸ hfn)).trans_le hgrows.nextFunc, fun x hx => (hs.const x hx).trans_le hgrows.nextVar⟩
  have hleft₁ := left_lt hgrows htycon hnew (by rw [hentries]; exact mem_cons_self)
  obtain ⟨cases, s₂, hcases, hadds, hspec⟩ := makes_conCases hequal hI hcons hkeys cons
    (fun _ h => h) (hI tycon cons hcons) s₁ hvalid (by omega)
    (show s.nextVar + 1 < s₁.nextVar from hnextVar ▸ lt_succ_self _)
  refine ⟨s.nextFunc, _, ?_, .newFunction
    (tyconFunction tycon s.nextFunc s.nextVar (s.nextVar + 1) cons cases) hgrows
    (fun fn hfn => .inl (hfuncs ▸ hfn)) hadds le_rfl ?_ ?_ ?_, ?_⟩
  · rw [newTyconFunc_eq hcons, hs₁, hcases]
    rfl
  · exact hnextFunc ▸ lt_succ_self _
  · exact fun fn hfn => (hs.lt fn (hfuncs ▸ hfn)).ne
  · intro e he hne
    rw [hentries, mem_cons, or_iff_left hne] at he
    subst he
    exact fun S hS hvalid k hfuncs => funcAt_tyconFunction hI hcons (succ_ne_self _).symm hspec
      ((s₂.grows_newFunction _).trans hS) hvalid (hS.funcs mem_cons_self) hfuncs
  · exact hadds.grows.entries (by rw [hentries]; exact mem_cons_self)

end PolyEqual

end MultiMLton.Ssa
