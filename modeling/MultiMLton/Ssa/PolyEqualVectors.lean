import MultiMLton.Ssa.PolyEqualFuncs

/-!
# Equality of vectors

The loop over two vectors of one length compares the elements that are left, by induction on their
number; indices are words, and vectors are shorter than the modulus of their size.
-/

namespace MultiMLton.Ssa

open MultiMLton.Atoms List Option Int Nat

/-! ### Indices -/

section Words

variable {size : WordSize}

theorem make_inj {i j : ℕ} (hi : (i : ℤ) < size.modulus) (hj : (j : ℤ) < size.modulus) :
    WordX.make i size = WordX.make j size ↔ i = j := by
  refine ⟨fun h => ?_, fun h => h ▸ rfl⟩
  have hval := congrArg WordX.value h
  simp only [WordX.make] at hval
  rw [emod_eq_of_lt (natCast_nonneg i) hi, emod_eq_of_lt (natCast_nonneg j) hj]
    at hval
  exact_mod_cast hval

theorem make_toNat {i : ℕ} (hi : (i : ℤ) < size.modulus) : (WordX.make i size).value.toNat = i := by
  simp only [WordX.make]
  rw [emod_eq_of_lt (natCast_nonneg i) hi, toNat_natCast]

theorem make_add_one (i : ℕ) :
    (WordX.make i size).add (WordX.one size) = .ok (WordX.make (i + 1 : ℕ) size) := by
  have hvalue : (WordX.make i size).value + (WordX.one size).value ≡ (i + 1 : ℕ) [ZMOD size.modulus] := by
    rw [Nat.cast_succ]
    exact (Int.mod_modEq _ _).add (Int.mod_modEq _ _)
  have hmake : WordX.make ((WordX.make i size).value + (WordX.one size).value) size =
      WordX.make (i + 1 : ℕ) size := by
    ext1
    · rfl
    · exact hvalue
  exact (if_pos rfl).trans (congrArg Except.ok hmake)

end Words

namespace PolyEqual

variable {I : Info} {H : Heap} {t : Ty}

/-- The elements of a vector one by one. -/
theorem Reps.drop {ms : List Value} {vs : List Val}
    (h : Reps I H (replicate ms.length t) ms vs) {i : ℕ} (hi : i < vs.length) :
    ∃ m v, vs[i]? = some v ∧ Rep I H t m v ∧ m ∈ ms ∧ ms.drop i = m :: ms.drop (i + 1) := by
  induction i generalizing ms vs with
  | zero =>
    cases vs with
    | nil => cases hi
    | cons v vs =>
      cases ms with
      | nil => cases h
      | cons m ms =>
        rw [length_cons, replicate_succ] at h
        cases h with
        | cons hm hms => exact ⟨m, v, rfl, hm, mem_cons_self, rfl⟩
  | succ i ih =>
    cases vs with
    | nil => cases hi
    | cons v vs =>
      cases ms with
      | nil => cases h
      | cons m ms =>
        rw [length_cons, replicate_succ] at h
        cases h with
        | cons hm hms =>
          obtain ⟨m', v', hv', hm', hmem, hdrop⟩ := ih hms (lt_of_succ_lt_succ hi)
          exact ⟨m', v', hv', hm', mem_cons_of_mem _ hmem, hdrop⟩

/-- An expression compares the elements of two vectors at an index. -/
def ElementsAt (I : Info) (S : State) (k : ℕ) (ty : Ty) (vec1 vec2 i : Var) (e : Dexp) : Prop :=
  ∀ (H : Heap) (env : ValEnv) vs1 vs2 v1 v2 w u1 u2 m1 m2, env vec1 = some v1 → env vec2 = some v2 →
    env i = some (.word w) → H.elements v1 = some vs1 → H.elements v2 = some vs2 →
    vs1[w.value.toNat]? = some u1 → vs2[w.value.toNat]? = some u2 → Rep I H ty m1 u1 →
    Rep I H ty m2 u2 → sizeOf m1 ≤ k → Returns (fun n => e.eval I.target H S.func? n env) (m1 = m2)

section Loop

variable {S : State} {k : ℕ} {ty : Ty} {loop : Func} {vec1 vec2 len i : Var} {e : Dexp}

section Turns

variable (hvalid : S.Valid I) (hvars : [vec1, vec2, len, i].Nodup)
  (hmem : vectorLoop I.target.seqIndex ty loop vec1 vec2 len i e ∈ S.newFunctions)
  (he : ElementsAt I S k ty vec1 vec2 i e) {v1 v2 : Val} {vs1 vs2 : List Val}
  (hvs1 : H.elements v1 = some vs1) (hvs2 : H.elements v2 = some vs2)
  (hlen : vs1.length = vs2.length) (hlt : (vs1.length : ℤ) < I.target.seqIndex.modulus)
  {ms1 ms2 : List Value} (h1 : Reps I H (replicate ms1.length ty) ms1 vs1)
  (h2 : Reps I H (replicate ms2.length ty) ms2 vs2) (hsize : ∀ m ∈ ms1, sizeOf m ≤ k)

include hvalid hvars hmem he hvs1 hvs2 hlen hlt h1 h2 hsize

/-- One turn of the loop. -/
theorem returns_vectorLoop_step {j : ℕ} (hj : j ≤ vs1.length)
    (hnext : j < vs1.length → Returns (fun n => run I.target H S.func? n loop [v1, v2,
      .word (WordX.make vs1.length I.target.seqIndex),
      .word (WordX.make (j + 1 : ℕ) I.target.seqIndex)]) (ms1.drop (j + 1) = ms2.drop (j + 1))) :
    Returns (fun n => run I.target H S.func? n loop [v1, v2,
      .word (WordX.make vs1.length I.target.seqIndex), .word (WordX.make j I.target.seqIndex)])
      (ms1.drop j = ms2.drop j) := by
  have hjlt : (j : ℤ) < I.target.seqIndex.modulus := lt_of_le_of_lt (by exact_mod_cast hj) hlt
  refine Returns.run (hvalid.func? hmem) ?_
  generalize henv : ValEnv.bind (fun _ => none)
    (vectorLoop I.target.seqIndex ty loop vec1 vec2 len i e).args [v1, v2,
      .word (WordX.make vs1.length I.target.seqIndex),
      .word (WordX.make j I.target.seqIndex)] = env
  have hbound : Bound env (vectorLoop I.target.seqIndex ty loop vec1 vec2 len i e).args [v1, v2,
      .word (WordX.make vs1.length I.target.seqIndex),
      .word (WordX.make j I.target.seqIndex)] := henv ▸ ValEnv.bind_self hvars rfl
  simp only [vectorLoop, forall₂_cons] at hbound
  obtain ⟨hvec1, hvec2, hlenv, hi, -⟩ := hbound
  refine (Returns.disjoin (returns_wordEqual (fun n => (Dexp.eval_var n i _).trans hi)
    fun n => (Dexp.eval_var n len _).trans hlenv) (q := ms1.drop j = ms2.drop j)
      fun hne => ?_).congr (or_iff_right_of_imp fun heq => ?_)
  · -- an element at the index, and the rest
    have hjlen : j < vs1.length := lt_of_le_of_ne hj fun heq => hne ((make_inj hjlt hlt).2 heq)
    obtain ⟨m1, u1, hu1, hm1, hmem1, hdrop1⟩ := h1.drop hjlen
    obtain ⟨m2, u2, hu2, hm2, -, hdrop2⟩ := h2.drop (hlen ▸ hjlen)
    rw [hdrop1, hdrop2, List.cons.injEq]
    refine Returns.conjoin ?_ fun _ => ?_
    · refine he H env vs1 vs2 v1 v2 _ u1 u2 m1 m2 hvec1 hvec2 hi hvs1 hvs2 ?_ ?_ hm1 hm2
        (hsize m1 hmem1)
      · rw [make_toNat hjlt, hu1]
      · rw [make_toNat hjlt, hu2]
    · refine (hnext hjlen).call fun n => evalsWith_cons ((Dexp.eval_var n _ _).trans hvec1)
        (evalsWith_cons ((Dexp.eval_var n _ _).trans hvec2)
          (evalsWith_cons ((Dexp.eval_var n _ _).trans hlenv) (evalsWith_cons ?_ ?_)))
      · rw [Dexp.add, Dexp.eval_primApp2, Dexp.eval_var, hi, Dexp.eval_word]
        simp only [bind_some, Prim.eval, make_add_one]
        rfl
      · rw [Dexp.evalsWith]
  · have hjeq := (make_inj hjlt hlt).1 heq
    rw [drop_eq_nil_of_le (by rw [h1.lengths.2, hjeq]),
      drop_eq_nil_of_le (by rw [h2.lengths.2, hjeq, hlen])]

/-- What the loop returns from an index on. -/
theorem returns_vectorLoop (rest j : ℕ) (hrest : j + rest = vs1.length) :
    Returns (fun n => run I.target H S.func? n loop [v1, v2,
      .word (WordX.make vs1.length I.target.seqIndex), .word (WordX.make j I.target.seqIndex)])
      (ms1.drop j = ms2.drop j) := by
  induction rest generalizing j with
  | zero =>
    exact returns_vectorLoop_step hvalid hvars hmem he hvs1 hvs2 hlen hlt h1 h2 hsize
      (Nat.le.intro hrest) fun hj => by omega
  | succ rest ih =>
    exact returns_vectorLoop_step hvalid hvars hmem he hvs1 hvs2 hlen hlt h1 h2 hsize
      (Nat.le.intro hrest) fun _ => ih (j + 1) (by omega)

end Turns

/-- The function for a type of vectors compares vectors. -/
theorem funcAt_vectorFunction (hI : I.ConsNodup) (hvalid : S.Valid I) {name : Func}
    {arg1 arg2 len1 len2 : Var} (hargs : [arg1, arg2, len1, len2].Nodup)
    (hfn : vectorFunction I.target.seqIndex ty name loop arg1 arg2 len1 len2 ∈ S.newFunctions)
    (hvars : [vec1, vec2, len, i].Nodup)
    (hmem : vectorLoop I.target.seqIndex ty loop vec1 vec2 len i e ∈ S.newFunctions)
    (he : ElementsAt I S k ty vec1 vec2 i e) : FuncAt I S (k + 1) (.vector ty) name := by
  intro H v1 v2 m1 m2 h1 h2 hsize
  refine Returns.run (hvalid.func? hfn) ?_
  generalize henv : ValEnv.bind (fun _ => none)
    (vectorFunction I.target.seqIndex ty name loop arg1 arg2 len1 len2).args [v1, v2] = env
  simp only [nodup_cons, mem_cons, not_mem_nil, or_false, not_or] at hargs
  obtain ⟨⟨h12, h13, h14⟩, ⟨h23, h24⟩, h34, -⟩ := hargs
  have hv1 : env arg1 = some v1 := by
    rw [← henv]
    simp [vectorFunction, ValEnv.bind, Function.update_of_ne h12]
  have hv2 : env arg2 = some v2 := by
    rw [← henv]
    simp [vectorFunction, ValEnv.bind]
  obtain ⟨ms1, vs1, rfl, hvs1, hms1, hlt1⟩ := h1.vector_inv
  obtain ⟨ms2, vs2, rfl, hvs2, hms2, hlt2⟩ := h2.vector_inv
  rw [hms1.lengths.2] at hlt1
  rw [hms2.lengths.2] at hlt2
  have hsizes : ∀ m ∈ ms1, sizeOf m ≤ k := fun m hm => by
    have hlt := sizeOf_lt_of_mem hm
    simp only [Value.vector.sizeOf_spec] at hsize
    omega
  refine Returns.congr (Returns.disjoin (returns_eq (fun n => (Dexp.eval_var n _ _).trans hv1)
    fun n => (Dexp.eval_var n _ _).trans hv2) (q := Value.vector ms1 = .vector ms2) fun hne => ?_)
    (or_iff_right_of_imp fun heq => ?_)
  · -- the lengths are bound to variables, and compared first
    have hlength {x : Var} {v : Val} {vs : List Val} {env : ValEnv} (hx : env x = some v)
        (hvs : H.elements v = some vs) (n : ℕ) :
        (Dexp.primApp .vectorLength [ty] [.var x (.vector ty)] (.word I.target.seqIndex)).eval
          I.target H S.func? n env = some (.word (WordX.make vs.length I.target.seqIndex)) := by
      rw [Dexp.eval_primApp1, Dexp.eval_var, hx]
      simp only [bind_some, Prim.eval, hvs, bind_eq_bind]
    obtain ⟨env', hdecs, hlen1, hlen2, hold1, hold2⟩ : ∃ env' : ValEnv,
        (∀ n, Dexp.evalDecs I.target H (run I.target H S.func? n) env
          [(len1, .primApp .vectorLength [ty] [.var arg1 (.vector ty)] (.word I.target.seqIndex)),
            (len2, .primApp .vectorLength [ty] [.var arg2 (.vector ty)]
              (.word I.target.seqIndex))] = some env') ∧
        env' len1 = some (.word (WordX.make vs1.length I.target.seqIndex)) ∧
        env' len2 = some (.word (WordX.make vs2.length I.target.seqIndex)) ∧
        env' arg1 = some v1 ∧ env' arg2 = some v2 := by
      refine ⟨Function.update (Function.update env len1
        (some (.word (WordX.make vs1.length I.target.seqIndex)))) len2 (some _), fun n => ?_, ?_,
        Function.update_self .., ?_, ?_⟩
      · rw [evalDecs_cons (hlength hv1 hvs1 n), evalDecs_cons (hlength ?_ hvs2 n), Dexp.evalDecs]
        rw [Function.update_of_ne h23, hv2]
      · rw [Function.update_of_ne h34, Function.update_self]
      · rw [Function.update_of_ne h14, Function.update_of_ne h13, hv1]
      · rw [Function.update_of_ne h24, Function.update_of_ne h23, hv2]
    refine Returns.lett hdecs (Returns.congr (Returns.conjoin
      (returns_wordEqual (fun n => (Dexp.eval_var n len1 _).trans hlen1)
        fun n => (Dexp.eval_var n len2 _).trans hlen2) (q := ms1 = ms2) fun heq => ?_) ?_)
    · have hloop := returns_vectorLoop hvalid hvars hmem he hvs1 hvs2 ((make_inj hlt1 hlt2).1 heq)
        hlt1 hms1 hms2 hsizes vs1.length 0 (zero_add _)
      exact hloop.call fun n => evalsWith_cons ((Dexp.eval_var n _ _).trans hold1)
        (evalsWith_cons ((Dexp.eval_var n _ _).trans hold2)
          (evalsWith_cons ((Dexp.eval_var n _ _).trans hlen1)
            (evalsWith_cons (Dexp.eval_word n _) (by rw [Dexp.evalsWith]))))
    · rw [Value.vector.injEq]
      refine and_iff_right_of_imp fun heq => ?_
      rw [← hms1.lengths.2, ← hms2.lengths.2, heq]
  · subst heq
    exact h1.inj hI h2

end Loop

/-! ### The functions are made -/

variable {U : List Ty} {s : State} {n : ℕ} {equal : Var → Var → Ty → Gen Dexp}

/-- The elements are compared in a state that has both names and the first function. -/
theorem newVectorFunc_eq (ty : Ty) (s : State) :
    newVectorFunc I equal ty s =
      (equalExp (fun x1 x2 => equal x1 x2 ty)
        (vectorSub I.target.seqIndex ty (s.nextVar + 4) (s.nextVar + 7))
        (vectorSub I.target.seqIndex ty (s.nextVar + 5) (s.nextVar + 7)) {
          s with
          nextVar := s.nextVar + 8
          nextFunc := s.nextFunc + 2
          vectorEqualFunc := (ty, s.nextFunc) :: s.vectorEqualFunc
          newFunctions := vectorFunction I.target.seqIndex ty s.nextFunc (s.nextFunc + 1) s.nextVar
            (s.nextVar + 1) (s.nextVar + 2) (s.nextVar + 3) :: s.newFunctions }).bind fun r =>
        some (s.nextFunc, {
          r.2 with
          newFunctions := vectorLoop I.target.seqIndex ty (s.nextFunc + 1) (s.nextVar + 4)
            (s.nextVar + 5) (s.nextVar + 6) (s.nextVar + 7) r.1 :: r.2.newFunctions }) := rfl

/-- The element of a vector at an index. -/
theorem eval_vectorSub {F : Func → Option DFunction} {env : ValEnv} {ty : Ty} {vec i : Var} {v u : Val}
    {vs : List Val} {w : WordX} (hvec : env vec = some v) (hi : env i = some (.word w))
    (hvs : H.elements v = some vs) (hu : vs[w.value.toNat]? = some u) (n : ℕ) :
    (vectorSub I.target.seqIndex ty vec i).eval I.target H F n env = some u := by
  rw [vectorSub, Dexp.eval_primApp2, Dexp.eval_var, Dexp.eval_var, hvec, hi]
  simp only [bind_some, Prim.eval, hvs, bind_eq_bind, hu]

theorem makes_newVectorFunc (hequal : EqualOk I U n equal) (hI : I.ConsNodup) (hU : Closed I U)
    {ty : Ty} (hty : .vector ty ∈ U) (hs : s.Valid I) (hleft : left U s ≤ n + 1)
    (hnew : .vector ty ∉ s.entries.map Prod.fst) :
    Makes I s (newVectorFunc I equal ty) fun f s' => (.vector ty, f) ∈ s'.entries := by
  generalize hfn : vectorFunction I.target.seqIndex ty s.nextFunc (s.nextFunc + 1) s.nextVar
    (s.nextVar + 1) (s.nextVar + 2) (s.nextVar + 3) = fn
  have hname : fn.name = s.nextFunc := by rw [← hfn]; rfl
  -- the state in which the elements are compared
  generalize hs₁ : ({
    s with
    nextVar := s.nextVar + 8
    nextFunc := s.nextFunc + 2
    vectorEqualFunc := (ty, s.nextFunc) :: s.vectorEqualFunc
    newFunctions := fn :: s.newFunctions } : State) = s₁
  have hentries {e : Ty × Func} : e ∈ s₁.entries ↔ e = (.vector ty, s.nextFunc) ∨ e ∈ s.entries := by
    rw [← hs₁]
    simp only [State.entries, map_cons, mem_append, mem_cons]
    tauto
  have hfuncs : s₁.newFunctions = fn :: s.newFunctions := by rw [← hs₁]
  have hnextVar : s₁.nextVar = s.nextVar + 8 := by rw [← hs₁]
  have hnextFunc : s₁.nextFunc = s.nextFunc + 2 := by rw [← hs₁]
  have hgrows : s.Grows s₁ := ⟨hnextVar ▸ le_add_right _ _, hnextFunc ▸ le_add_right _ _,
    fun e he => hentries.2 (.inr he), hfuncs ▸ subset_cons_self _ _⟩
  have hnames : ∀ fn' ∈ s₁.newFunctions, fn'.name ≤ s.nextFunc := by
    rw [hfuncs, forall_mem_cons]
    exact ⟨hname.le, fun fn' hfn' => (hs.lt fn' hfn').le⟩
  have hvalid : s₁.Valid I := by
    refine ⟨?_, fun fn' hfn' => hnextFunc ▸ Nat.lt_add_right 1 (Nat.lt_succ_of_le (hnames fn' hfn')),
      fun x hx => (hs.const x hx).trans_le hgrows.nextVar⟩
    rw [hfuncs, map_cons, nodup_cons, hname]
    refine ⟨fun hmem => ?_, hs.nodup⟩
    obtain ⟨fn', hfn', heq⟩ := mem_map.1 hmem
    exact absurd heq (hs.lt fn' hfn').ne
  have hmem : (.vector ty, s.nextFunc) ∈ s₁.entries := hentries.2 (.inl rfl)
  have hleft₁ := left_lt hgrows hty hnew (mem_map.2 ⟨_, hmem, rfl⟩)
  have hmakes : Makes I s₁ (equalExp (fun x1 x2 => equal x1 x2 ty)
      (vectorSub I.target.seqIndex ty (s.nextVar + 4) (s.nextVar + 7))
      (vectorSub I.target.seqIndex ty (s.nextVar + 5) (s.nextVar + 7))) _ :=
    makes_equalExp hvalid (fun x t h => by cases h) (fun x t h => by cases h)
      fun s' x1 x2 hgrows' hs' hx1 hx2 => hequal ty s' x1 x2 hs' (hU.vector ty hty)
        ((left_mono hgrows').trans (by omega)) hx1 hx2
  obtain ⟨e, s₂, he, hadds, hspec⟩ := hmakes
  refine ⟨s.nextFunc, _, ?_, .newFunction (vectorLoop I.target.seqIndex ty (s.nextFunc + 1)
    (s.nextVar + 4) (s.nextVar + 5) (s.nextVar + 6) (s.nextVar + 7) e) hgrows ?_ hadds
    (le_succ _) ?_ ?_ ?_, hadds.grows.entries hmem⟩
  · rw [newVectorFunc_eq, hfn, hs₁, he]
    rfl
  · rw [hfuncs, forall_mem_cons]
    exact ⟨.inr hname.ge, fun fn' hfn' => .inl hfn'⟩
  · exact hnextFunc ▸ lt_succ_self _
  · exact fun fn' hfn' => (Nat.lt_succ_of_le (hnames fn' hfn')).ne
  · intro e' he' hne
    rw [hentries, or_iff_left hne] at he'
    subst he'
    intro S hS hvalidS k hfuncsS
    have hS₂ := (s₂.grows_newFunction _).trans hS
    have hvars (x : Var) : [x, x + 1, x + 2, x + 3].Nodup := by simp
    refine funcAt_vectorFunction hI hvalidS (hvars s.nextVar) ?_ (hvars (s.nextVar + 4))
      (hS.funcs mem_cons_self) ?_
    · rw [hfn]
      exact hS₂.funcs (hadds.grows.funcs (by rw [hfuncs]; exact mem_cons_self))
    · intro H env vs1 vs2 v1 v2 w u1 u2 m1 m2 hvec1 hvec2 hi hvs1 hvs2 hu1 hu2 hm1 hm2 hsize
      refine hspec S hS₂ hvalidS k hfuncsS H env u1 u2 m1 m2 (eval_vectorSub hvec1 hi hvs1 hu1)
        (fun n x v hx => eval_vectorSub ?_ ?_ hvs2 hu2 n) hm1 hm2 hsize
      · rw [Function.update_of_ne, hvec2]
        exact ((hnextVar ▸ (by simp) : s.nextVar + 5 < s₁.nextVar).trans_le hx).ne
      · rw [Function.update_of_ne, hi]
        exact ((hnextVar ▸ (by simp) : s.nextVar + 7 < s₁.nextVar).trans_le hx).ne

end PolyEqual

end MultiMLton.Ssa
