import MultiMLton.Elaborate.EqualityCalls

/-!
# Equality attributes as constraints

A sequence of `unknown`, `and2`, `andd` and `unify` is a list of constraints on attributes
(`Session`). In every session, in which any attributes are shared, the operations terminate, what is
known satisfies the constraints and has their immediate consequences, and failure means that no
values satisfy them (`Session.solved`).
-/

namespace MultiMLton.Elaborate

open List Option Bool Nat

namespace Equality

/-- What `unify` returns: the values are shown where it fails. -/
inductive UnifyResult
  | unified
  | notUnifiable (b b' : Bool)
  deriving DecidableEq

/-- `unify` as the signature has it. -/
def unifyResult (n : ℕ) (e e' : Equality) (s : Equalities) :
    Except Stop (UnifyResult × Equalities) := do
  let (r, s) ← unify n e e' s
  if r then .ok (.unified, s)
  else
    match e.toBoolOpt s, e'.toBoolOpt s with
    | some b, some b' => .ok (.notUnifiable b b', s)
    | _, _ => .error .bug

inductive Constraint
  | equal (e e' : Equality)
  /-- `e''` is the conjunction of `e` and `e'`. -/
  | and (e e' e'' : Equality)
  deriving DecidableEq

namespace Constraint

def Holds (ρ : ℕ → Bool) : Constraint → Prop
  | .equal e e' => e.eval ρ = e'.eval ρ
  | .and e e' e'' => (e.eval ρ && e'.eval ρ) = e''.eval ρ

def attributes : Constraint → List Equality
  | .equal e e' => [e, e']
  | .and e e' e'' => [e, e', e'']

def Below (k : ℕ) (c : Constraint) : Prop :=
  ∀ e ∈ c.attributes, e.Below k

/-- With this constraint, that `a` is `b` implies that `x` is `v`. -/
def Implies (c : Constraint) (a : Equality) (b : Bool) (x : Equality) (v : Bool) : Prop :=
  ∀ ρ, c.Holds ρ → a.eval ρ = b → x.eval ρ = v

end Constraint

/-- The constraints of a fold of `and2`. -/
def conjunctions : List Equality → Equality × Equalities → List Constraint → List Constraint
  | [], _, cs => cs
  | e :: es, ac, cs =>
    conjunctions es (and2 e ac.1 ac.2) (.and e ac.1 (and2 e ac.1 ac.2).1 :: cs)

structure Session where
  cells : Equalities
  constraints : List Constraint
  failed : Bool

inductive Operation
  | unknown
  | and2 (e e' : Equality)
  | andd (es : List Equality)
  | unify (e e' : Equality)
  deriving DecidableEq

namespace Operation

/-- The attributes of an operation exist. -/
def Below (k : ℕ) : Operation → Prop
  | .unknown => True
  | .and2 e e' | .unify e e' => e.Below k ∧ e'.Below k
  | .andd es => ∀ e ∈ es, e.Below k

def run (n : ℕ) : Operation → Session → Except Stop Session
  | .unknown, x => .ok { x with cells := (Equality.unknown x.cells).2 }
  | .and2 e e', x => .ok { x with
      cells := (Equality.and2 e e' x.cells).2
      constraints := .and e e' (Equality.and2 e e' x.cells).1 :: x.constraints }
  | .andd es, x => .ok { x with
      cells := (Equality.andd es x.cells).2
      constraints := conjunctions es (.truee, x.cells) x.constraints }
  | .unify e e', x => do
    let (result, s) ← unifyResult n e e' x.cells
    .ok {
      cells := s
      constraints := .equal e e' :: x.constraints
      failed := x.failed || decide (result ≠ .unified) }

end Operation

namespace Session

/-- A session that some operations lead to. -/
inductive Reachable : Session → Prop
  | empty : Reachable ⟨.empty, [], false⟩
  | run {x y : Session} {n : ℕ} {o : Operation} : Reachable x → o.Below x.cells.next →
      o.run n x = .ok y → Reachable y

end Session

end Equality

namespace Equalities

open Equality

variable {s s' : Equalities} {e e' x : Equality} {c : Constraint} {ρ : ℕ → Bool} {b d v : Bool}
  {r : ℕ}

/-! ### What is recorded of a constraint -/

/-- The functions of a constraint wait, or its conjunction was known at once. -/
def Recorded (s : Equalities) : Constraint → Prop
  | .equal e e' => Waits s e (.set e') ∧ Waits s e' (.set e)
  | .and e e' e'' =>
    e'' = .falsee ∧ (e.toBoolOpt s = some false ∨ e'.toBoolOpt s = some false) ∨
      e.toBoolOpt s = some true ∧ e'' = e' ∨ e'.toBoolOpt s = some true ∧ e'' = e ∨
      Waits s e'' (.both e e') ∧ Waits s e (.dep e' e'') ∧ Waits s e' (.dep e e'')

theorem Recorded.later (h : Later s s') (hc : Recorded s c) : Recorded s' c := by
  cases c with
  | equal e e' => exact ⟨hc.1.later h, hc.2.later h⟩
  | and e e' e'' =>
    rcases hc with ⟨rfl, hk⟩ | ⟨hk, rfl⟩ | ⟨hk, rfl⟩ | ⟨h1, h2, h3⟩
    · exact .inl ⟨rfl, hk.imp h.toBoolOpt h.toBoolOpt⟩
    · exact .inr (.inl ⟨h.toBoolOpt hk, rfl⟩)
    · exact .inr (.inr (.inl ⟨h.toBoolOpt hk, rfl⟩))
    · exact .inr (.inr (.inr ⟨h1.later h, h2.later h, h3.later h⟩))

/-- What waits for a known attribute was called. -/
theorem Waits.done {f : WhenKnown} (h : Waits s e f) (he : e.toBoolOpt s = some b) :
    Done s f b := by
  cases h with
  | known he' hf => rwa [Option.some.inj (he.symm.trans he')]
  | queued hr hf =>
    rw [toBoolOpt_maybe, hr] at he
    cases he

theorem Waits.set (h : Waits s e (.set e')) (he : e.toBoolOpt s = some b) :
    e'.toBoolOpt s = some b := by
  cases h.done he with
  | set he' => exact he'

/-- Unified attributes are known together. -/
theorem toBoolOpt_eq (h : Waits s e (.set e')) (h' : Waits s e' (.set e)) :
    e.toBoolOpt s = e'.toBoolOpt s := by
  cases he : e.toBoolOpt s with
  | some b => exact (h.set he).symm
  | none =>
    cases he' : e'.toBoolOpt s with
    | none => rfl
    | some b => exact he.symm.trans (h'.set he')

/-- Of a conjunction, what is known. -/
structure Conjoined (t t' t'' : Option Bool) : Prop where
  true_left : t'' = some true → t = some true ∧ t' = some true
  false_left : t = some false → t'' = some false
  false_right : t' = some false → t'' = some false
  eq_right : t = some true → t' = t''
  eq_left : t' = some true → t = t''

/-- The values of a conjunction with one value for all that is not known. -/
theorem Conjoined.getD {t t' t'' : Option Bool} (h : Conjoined t t' t'')
    (hd : t = none → t' = none → t'' = some false → d = false) :
    (t.getD d && t'.getD d) = t''.getD d := by
  obtain ⟨h1, h2, h3, h4, h5⟩ := h
  cases t with
  | some b =>
    cases b with
    | false => rw [h2 rfl]; rfl
    | true => rw [h4 rfl]; exact Bool.true_and _
  | none =>
    cases t' with
    | some b =>
      cases b with
      | false => rw [h3 rfl]; exact Bool.and_false _
      | true => rw [← h5 rfl]; exact Bool.and_true _
    | none =>
      cases t'' with
      | none => exact and_self _
      | some b =>
        cases b with
        | false => rw [hd rfl rfl rfl]; rfl
        | true => exact nomatch (h1 rfl).1

theorem Recorded.conjoined {e'' : Equality} (hc : Recorded s (.and e e' e'')) :
    Conjoined (e.toBoolOpt s) (e'.toBoolOpt s) (e''.toBoolOpt s) ∨
      e'' = .falsee ∧ (e.toBoolOpt s = some false ∨ e'.toBoolOpt s = some false) ∨
      e.toBoolOpt s = some true ∧ e'' = e' ∨ e'.toBoolOpt s = some true ∧ e'' = e := by
  rcases hc with h | h | h | ⟨h1, h2, h3⟩
  · exact .inr (.inl h)
  · exact .inr (.inr (.inl h))
  · exact .inr (.inr (.inr h))
  · left
    refine ⟨fun h => ?_, fun h => ?_, fun h => ?_, fun h => ?_, fun h => ?_⟩
    · cases h1.done h with
      | both_true he he' => exact ⟨he, he'⟩
    · cases h2.done h with
      | dep_false he'' => exact he''
    · cases h3.done h with
      | dep_false he'' => exact he''
    · cases h2.done h with
      | dep_true hw hw' => exact toBoolOpt_eq hw hw'
    · cases h3.done h with
      | dep_true hw hw' => exact toBoolOpt_eq hw hw'

/-! ### Consequences -/

/-- The values have what is known. -/
def Agrees (ρ : ℕ → Bool) (s : Equalities) : Prop :=
  ∀ r b, s.refs r = .known b → ρ r = b

/-- What is known, `v` for the cell `r` and `d` for the others. -/
def fill (s : Equalities) (r : ℕ) (v d : Bool) : ℕ → Bool := fun r' =>
  match s.refs r' with
  | .known b => b
  | .unknown _ => if r' = r then v else d

theorem fill_agrees (s : Equalities) (r : ℕ) (v d : Bool) : Agrees (s.fill r v d) s := by
  intro r' b h
  rw [fill, h]

theorem Agrees.eval (hρ : Agrees ρ s) (he : e.toBoolOpt s = some b) : e.eval ρ = b := by
  cases e with
  | falsee | truee => exact Option.some.inj he
  | maybe r => exact hρ r b (toBoolOpt_maybe.1 he)

/-- An attribute that is not known has a cell. -/
theorem eval_fill_of_none (he : e.toBoolOpt s = none) :
    e.eval (s.fill r v d) = if e = .maybe r then v else d := by
  cases e with
  | falsee => cases he
  | truee => cases he
  | maybe r' =>
    change s.fill r v d r' = _
    unfold fill
    cases hr : s.refs r' with
    | known b =>
      rw [toBoolOpt_maybe.2 hr] at he
      cases he
    | unknown fs => simp

theorem eval_fill_self : e.eval (s.fill r d d) = (e.toBoolOpt s).getD d := by
  cases he : e.toBoolOpt s with
  | none => rw [eval_fill_of_none he, ite_self, getD_none]
  | some b => exact (fill_agrees s r d d).eval he

/-- With one value for all that is not known, a constraint holds, unless only the conjunction is
known. -/
theorem Recorded.holds_fill (hc : Recorded s c) (r : ℕ) (d : Bool)
    (hd : ∀ e e' e'', c = .and e e' e'' → e.toBoolOpt s = none → e'.toBoolOpt s = none →
      e''.toBoolOpt s = some false → d = false) : c.Holds (s.fill r d d) := by
  cases c with
  | equal e e' =>
    change e.eval _ = e'.eval _
    rw [eval_fill_self, eval_fill_self, toBoolOpt_eq hc.1 hc.2]
  | and e e' e'' =>
    change (e.eval _ && e'.eval _) = e''.eval _
    rcases hc.conjoined with h | ⟨rfl, hk | hk⟩ | ⟨hk, rfl⟩ | ⟨hk, rfl⟩
    · simp only [eval_fill_self]
      exact h.getD (hd e e' e'' rfl)
    · rw [(fill_agrees s r d d).eval hk, Bool.false_and]
      rfl
    · rw [(fill_agrees s r d d).eval hk, Bool.and_false]
      rfl
    · rw [(fill_agrees s r d d).eval hk, Bool.true_and]
    · rw [(fill_agrees s r d d).eval hk, Bool.and_true]

/-- What is known satisfies a constraint. -/
theorem Recorded.holds (hc : Recorded s c) (hk : ∀ e ∈ c.attributes, (e.toBoolOpt s).isSome)
    (hρ : Agrees ρ s) : c.Holds ρ := by
  have hfill := hc.holds_fill 0 false fun _ _ _ _ _ _ _ => rfl
  have heval : ∀ e ∈ c.attributes, e.eval ρ = e.eval (s.fill 0 false false) := by
    intro e he
    obtain ⟨b, hb⟩ := isSome_iff_exists.1 (hk e he)
    rw [hρ.eval hb, (fill_agrees s 0 false false).eval hb]
  cases c <;> simp_all [Constraint.attributes, Constraint.Holds]

/-- What a known value and a constraint imply is known, but for an attribute whose conjunction with
itself is false. -/
theorem Recorded.implies {a : Equality} (hc : Recorded s c) (ha : a.toBoolOpt s = some b)
    (himp : c.Implies a b x v) :
    x.toBoolOpt s = some v ∨ ∃ e'', c = .and x x e'' ∧ e''.toBoolOpt s = some false := by
  cases hx : x.toBoolOpt s with
  | some v' =>
    have hρ := fill_agrees s 0 false false
    have hv := himp _ (hc.holds_fill 0 false fun _ _ _ _ _ _ _ => rfl) (hρ.eval ha)
    rw [← hv, hρ.eval hx]
    exact .inl rfl
  | none =>
    refine .inr ?_
    obtain ⟨r, rfl⟩ : ∃ r, x = .maybe r := by
      cases x with
      | falsee => cases hx
      | maybe r => exact ⟨r, rfl⟩
      | truee => cases hx
    by_cases hd : ∀ e e' e'', c = .and e e' e'' → e.toBoolOpt s = none → e'.toBoolOpt s = none →
        e''.toBoolOpt s = some false → (!v) = false
    · have hv := himp _ (hc.holds_fill r (!v) hd) ((fill_agrees s r _ _).eval ha)
      rw [eval_fill_self, hx] at hv
      cases v <;> cases hv
    · push Not at hd
      obtain ⟨e, e', e'', rfl, he, he', he'', hv⟩ := hd
      -- `x` is made true, and the rest false
      have hholds : ¬ (Constraint.and e e' e'').Holds (s.fill r true false) := by
        intro hholds
        have := himp _ hholds ((fill_agrees s r true false).eval ha)
        rw [eval_fill_of_none hx, if_pos rfl] at this
        subst this
        exact hv rfl
      change ¬ (e.eval _ && e'.eval _) = e''.eval _ at hholds
      rw [eval_fill_of_none he, eval_fill_of_none he', (fill_agrees s r true false).eval he'']
        at hholds
      have heq : e = .maybe r ∧ e' = .maybe r := by
        constructor <;> by_contra hne <;> simp [hne] at hholds
      obtain ⟨rfl, rfl⟩ := heq
      exact ⟨e'', rfl, he''⟩

/-! ### Operations -/

section Agree

variable {k : ℕ}

theorem toBoolOpt_agree (h : ∀ r < k, s'.refs r = s.refs r) (hk : e.Below k)
    (he : e.toBoolOpt s = some b) : e.toBoolOpt s' = some b :=
  toBoolOpt_mono (fun r b heq hr => by subst heq; rw [h r hk, hr]) he

mutual

theorem Done.agree (h : ∀ r < k, s'.refs r = s.refs r) {f : WhenKnown} {b : Bool}
    (hf : f.Below k) : Done s f b → Done s' f b
  | .set he => .set (toBoolOpt_agree h hf he)
  | .both_true he he' => .both_true (toBoolOpt_agree h hf.1 he) (toBoolOpt_agree h hf.2 he')
  | .both_false hw hw' => .both_false (hw.agree h hf.1 hf.2) (hw'.agree h hf.2 hf.1)
  | .notBoth_true he' => .notBoth_true (toBoolOpt_agree h hf he')
  | .notBoth_false => .notBoth_false
  | .dep_true hw hw' => .dep_true (hw.agree h hf.1 hf.2) (hw'.agree h hf.2 hf.1)
  | .dep_false he => .dep_false (toBoolOpt_agree h hf.2 he)

theorem Waits.agree (h : ∀ r < k, s'.refs r = s.refs r) {e : Equality} {f : WhenKnown}
    (he : e.Below k) (hf : f.Below k) : Waits s e f → Waits s' e f
  | .known hk hd => .known (toBoolOpt_agree h he hk) (hd.agree h hf)
  | .queued hr hmem => .queued ((h _ he).trans hr) hmem

end

/-- New cells change nothing for a constraint. -/
theorem Recorded.agree (h : ∀ r < k, s'.refs r = s.refs r) (hk : c.Below k)
    (hc : Recorded s c) : Recorded s' c := by
  cases c with
  | equal e e' =>
    have he : e.Below k := hk e (by simp [Constraint.attributes])
    have he' : e'.Below k := hk e' (by simp [Constraint.attributes])
    exact ⟨hc.1.agree h he he', hc.2.agree h he' he⟩
  | and e e' e'' =>
    have he : e.Below k := hk e (by simp [Constraint.attributes])
    have he' : e'.Below k := hk e' (by simp [Constraint.attributes])
    have he'' : e''.Below k := hk e'' (by simp [Constraint.attributes])
    rcases hc with ⟨rfl, hb⟩ | ⟨hb, rfl⟩ | ⟨hb, rfl⟩ | ⟨h1, h2, h3⟩
    · exact .inl ⟨rfl, hb.imp (toBoolOpt_agree h he) (toBoolOpt_agree h he')⟩
    · exact .inr (.inl ⟨toBoolOpt_agree h he hb, rfl⟩)
    · exact .inr (.inr (.inl ⟨toBoolOpt_agree h he' hb, rfl⟩))
    · exact .inr (.inr (.inr ⟨h1.agree h he'' ⟨he, he'⟩, h2.agree h he ⟨he', he''⟩,
        h3.agree h he' ⟨he, he''⟩⟩))

end Agree

theorem unknown_agree (s : Equalities) : ∀ r < s.next, (Equality.unknown s).2.refs r = s.refs r :=
  fun _ hr => assign_other hr.ne ..

/-- The new cell waits for nothing. -/
theorem unknown_cases {fs : List WhenKnown} (h : (Equality.unknown s).2.refs r = .unknown fs) :
    fs = [] ∨ s.refs r = .unknown fs := by
  by_cases heq : r = s.next
  · subst heq
    have hself : (Equality.unknown s).2.refs s.next = .unknown [] := assign_self ..
    rw [hself] at h
    exact .inl (Maybe.unknown.inj h).symm
  · exact .inr ((assign_other heq ..).symm.trans h)

theorem WF.alloc (hs : s.WF) : (Equality.unknown s).2.WF := by
  refine ⟨fun r hr => ?_, fun r fs hr f hf => ?_⟩
  · have hlt : s.next < r := hr
    obtain ⟨b, hb⟩ := hs.beyond r hlt.le
    exact ⟨b, (assign_other hlt.ne' ..).trans hb⟩
  · rcases unknown_cases hr with rfl | hr'
    · cases hf
    · exact (hs.below r fs hr' f hf).mono (le_succ _)

theorem Models.alloc (hρ : Models ρ s) : Models ρ (Equality.unknown s).2 := by
  refine ⟨fun r hr b hb => ?_, fun r fs hr f hf => ?_⟩
  · rcases (Nat.lt_succ_iff_lt_or_eq.1 hr) with hlt | rfl
    · exact hρ.known r hlt b ((unknown_agree s r hlt).symm.trans hb)
    · exact nomatch (assign_self s s.next (.unknown [])).symm.trans hb
  · rcases unknown_cases hr with rfl | hr'
    · cases hf
    · exact hρ.unknown r fs hr' f hf

/-- The functions of a conjunction wait for three cells. -/
theorem and2_answers {r' : ℕ} (hs : s.WF) (hlt : r < s.next) (hlt' : r' < s.next)
    (hr : (s.refs r).isUnknown = true) (hr' : (s.refs r').isUnknown = true) :
    Answers (Equality.unknown s).2
      (fun t => Recorded t (.and (.maybe r) (.maybe r') (.maybe s.next)))
      (fun ρ => (Constraint.and (.maybe r) (.maybe r') (.maybe s.next)).Holds ρ)
      (true, (((Equality.unknown s).2.await s.next (.both (.maybe r) (.maybe r'))).await r
        (.dep (.maybe r') (.maybe s.next))).await r' (.dep (.maybe r) (.maybe s.next))) := by
  set t := (Equality.unknown s).2 with ht
  have hself : t.next = s.next + 1 := rfl
  have hunk : ∀ x < s.next, (s.refs x).isUnknown = true → (t.refs x).isUnknown = true := by
    intro x hx hunk
    rwa [ht, unknown_agree s x hx]
  have h1 : Answers t (fun t => Waits t (.maybe s.next) (.both (.maybe r) (.maybe r')))
      (fun ρ => WhenKnown.Sound ρ (.both (.maybe r) (.maybe r')) (ρ s.next)) (true, _) :=
    await_answers hs.alloc ⟨lt_succ_of_lt hlt, lt_succ_of_lt hlt'⟩
      (congrArg Maybe.isUnknown (assign_self ..))
  have h2 : Answers _ (fun t => Waits t (.maybe r) (.dep (.maybe r') (.maybe s.next)))
      (fun ρ => WhenKnown.Sound ρ (.dep (.maybe r') (.maybe s.next)) (ρ r)) (true, _) :=
    await_answers h1.wf ⟨h1.next_eq ▸ lt_succ_of_lt hlt', h1.next_eq ▸ lt_succ_self _⟩
      (by rw [await_isUnknown]; exact hunk r hlt hr)
  have h3 : Answers _ (fun t => Waits t (.maybe r') (.dep (.maybe r) (.maybe s.next)))
      (fun ρ => WhenKnown.Sound ρ (.dep (.maybe r) (.maybe s.next)) (ρ r')) (true, _) :=
    await_answers h2.wf ⟨h2.next_eq ▸ h1.next_eq ▸ lt_succ_of_lt hlt,
        h2.next_eq ▸ h1.next_eq ▸ lt_succ_self _⟩
      (by rw [await_isUnknown, await_isUnknown]; exact hunk r' hlt' hr')
  refine ((h1.trans h2 fun hl hw => hw.later hl).trans h3 fun hl hw =>
    ⟨hw.1.later hl, hw.2.later hl⟩).imp (fun hw => .inr (.inr (.inr ⟨hw.1.1, hw.1.2, hw.2⟩)))
    fun ρ hρ => ?_
  have hand : (ρ r && ρ r') = ρ s.next := hρ
  refine ⟨⟨hρ, ?_⟩, ?_⟩
  · change if ρ r then ρ r' = ρ s.next else ρ s.next = false
    cases h : ρ r <;> simp [h] at hand ⊢ <;> exact hand
  · change if ρ r' then ρ r = ρ s.next else ρ s.next = false
    cases h : ρ r' <;> simp [h] at hand ⊢ <;> exact hand

/-- Either one of the conjuncts is known, and no cell changes, or the functions wait for three that
are not. -/
theorem and2_cases (hs : s.WF) (he : e.Below s.next) (he' : e'.Below s.next) :
    ((and2 e e' s).2 = s ∧ (and2 e e' s).1.Below s.next ∧
        Recorded s (.and e e' (and2 e e' s).1)) ∨
      (and2 e e' s).1 = .maybe s.next ∧
        Answers (Equality.unknown s).2 (fun s' => Recorded s' (.and e e' (.maybe s.next)))
          (fun ρ => (Constraint.and e e' (.maybe s.next)).Holds ρ) (true, (and2 e e' s).2) := by
  cases e with
  | falsee => exact .inl ⟨rfl, trivial, .inl ⟨rfl, .inl rfl⟩⟩
  | truee =>
    cases e' with
    | falsee => exact .inl ⟨rfl, trivial, .inl ⟨rfl, .inr rfl⟩⟩
    | truee => exact .inl ⟨rfl, trivial, .inr (.inl ⟨rfl, rfl⟩)⟩
    | maybe r' => exact .inl ⟨rfl, he', .inr (.inl ⟨rfl, rfl⟩)⟩
  | maybe r =>
    cases e' with
    | falsee => exact .inl ⟨rfl, trivial, .inl ⟨rfl, .inr rfl⟩⟩
    | truee => exact .inl ⟨rfl, he, .inr (.inr (.inl ⟨rfl, rfl⟩))⟩
    | maybe r' =>
      unfold and2
      dsimp only
      cases hr : s.refs r with
      | known b =>
        have hb := toBoolOpt_maybe.2 hr
        cases b with
        | false => exact .inl ⟨rfl, trivial, .inl ⟨rfl, .inl hb⟩⟩
        | true =>
          cases hr' : s.refs r' with
          | known b' =>
            have hb' := toBoolOpt_maybe.2 hr'
            cases b' with
            | false => exact .inl ⟨rfl, trivial, .inl ⟨rfl, .inr hb'⟩⟩
            | true => exact .inl ⟨rfl, he', .inr (.inl ⟨hb, rfl⟩)⟩
          | unknown fs' => exact .inl ⟨rfl, he', .inr (.inl ⟨hb, rfl⟩)⟩
      | unknown fs =>
        cases hr' : s.refs r' with
        | known b' =>
          have hb' := toBoolOpt_maybe.2 hr'
          cases b' with
          | false => exact .inl ⟨rfl, trivial, .inl ⟨rfl, .inr hb'⟩⟩
          | true => exact .inl ⟨rfl, he, .inr (.inr (.inl ⟨hb', rfl⟩))⟩
        | unknown fs' =>
          exact .inr ⟨rfl, and2_answers hs he he' (by rw [hr]; rfl) (by rw [hr']; rfl)⟩

end Equalities

namespace Equality

open Equalities

namespace Session

/-- What holds after any operations. -/
structure Inv (x : Session) : Prop where
  wf : x.cells.WF
  below : ∀ c ∈ x.constraints, c.Below x.cells.next
  recorded : x.failed = false → ∀ c ∈ x.constraints, Recorded x.cells c
  models : ∀ ρ, (∀ c ∈ x.constraints, c.Holds ρ) → x.failed = false ∧ Models ρ x.cells

variable {x : Session} {e e' : Equality}

theorem Inv.empty : Inv ⟨.empty, [], false⟩ where
  wf := ⟨fun _ _ => ⟨false, rfl⟩, nofun⟩
  below := nofun
  recorded _ := nofun
  models _ _ := ⟨rfl, ⟨nofun, nofun⟩⟩

theorem Inv.unknown (h : x.Inv) : Inv { x with cells := (Equality.unknown x.cells).2 } where
  wf := h.wf.alloc
  below c hc e he := (h.below c hc e he).mono (le_succ _)
  recorded hok c hc := (h.recorded hok c hc).agree (unknown_agree x.cells) (h.below c hc)
  models ρ hρ := ⟨(h.models ρ hρ).1, (h.models ρ hρ).2.alloc⟩

theorem Inv.and2 (h : x.Inv) (he : e.Below x.cells.next) (he' : e'.Below x.cells.next) :
    Inv { x with
      cells := (Equality.and2 e e' x.cells).2
      constraints := .and e e' (Equality.and2 e e' x.cells).1 :: x.constraints } := by
  rcases and2_cases h.wf he he' with ⟨hsame, hbelow, hrec⟩ | ⟨hnew, ha⟩
  · rw [hsame]
    refine ⟨h.wf, ?_, fun hok => ?_, fun ρ hρ => ?_⟩
    · refine forall_mem_cons.2 ⟨?_, h.below⟩
      simpa [Constraint.Below, Constraint.attributes] using ⟨he, he', hbelow⟩
    · exact forall_mem_cons.2 ⟨hrec, h.recorded hok⟩
    · exact h.models ρ (forall_mem_cons.1 hρ).2
  · obtain ⟨hlater, hrec⟩ := ha.later rfl
    have hnext : (Equality.and2 e e' x.cells).2.next = x.cells.next + 1 := ha.next_eq
    have h1 := h.unknown
    rw [hnew]
    refine ⟨ha.wf, ?_, fun hok => ?_, fun ρ hρ => ?_⟩
    · change ∀ c ∈ _, Constraint.Below (Equality.and2 e e' x.cells).2.next c
      rw [hnext]
      refine forall_mem_cons.2 ⟨?_, h1.below⟩
      have hmono := le_succ x.cells.next
      simpa [Constraint.Below, Constraint.attributes] using
        ⟨he.mono hmono, he'.mono hmono, lt_succ_self _⟩
    · exact forall_mem_cons.2 ⟨hrec, fun c hc => (h1.recorded hok c hc).later hlater⟩
    · obtain ⟨hand, hcs⟩ := forall_mem_cons.1 hρ
      obtain ⟨hok, hm⟩ := h1.models ρ hcs
      exact ⟨hok, (ha.models ρ hm hand).2⟩

/-- What `and2` returns exists. -/
theorem and2_below {s : Equalities} (hs : s.WF) (he : e.Below s.next) (he' : e'.Below s.next) :
    (Equality.and2 e e' s).1.Below (Equality.and2 e e' s).2.next ∧
      s.next ≤ (Equality.and2 e e' s).2.next := by
  rcases and2_cases hs he he' with ⟨hsame, hbelow, -⟩ | ⟨hnew, ha⟩
  · rw [hsame]
    exact ⟨hbelow, le_rfl⟩
  · have hnext : (Equality.and2 e e' s).2.next = s.next + 1 := ha.next_eq
    rw [hnew, hnext]
    exact ⟨lt_succ_self _, le_succ _⟩

/-- The conjunctions of a fold, one after the other. -/
theorem Inv.fold (es : List Equality) (ac : Equality × Equalities) {cs : List Constraint}
    {failed : Bool} (h : Inv ⟨ac.2, cs, failed⟩) (hac : ac.1.Below ac.2.next)
    (hes : ∀ e ∈ es, e.Below ac.2.next) :
    Inv ⟨(es.foldl (fun ac e => Equality.and2 e ac.1 ac.2) ac).2, conjunctions es ac cs,
      failed⟩ := by
  induction es generalizing ac cs with
  | nil => exact h
  | cons e es ih =>
    have he : e.Below ac.2.next := hes e mem_cons_self
    obtain ⟨hbelow, hle⟩ := and2_below h.wf he hac
    exact ih (Equality.and2 e ac.1 ac.2) (h.and2 he hac) hbelow
      fun e' he' => (hes e' (mem_cons_of_mem _ he')).mono hle

/-! ### Unification -/

/-- What is set is known, also where that fails. -/
theorem setWith_known {n : ℕ} {s : Equalities} {b : Bool} {a : Bool × Equalities} (hs : s.WF)
    (he : e.Below s.next) (h : setWith (call n) e b s = .ok a) :
    ∃ b', e.toBoolOpt a.2 = some b' := by
  have ha := setWith_answers (call_answers n) hs he h
  cases e with
  | falsee => exact ⟨false, rfl⟩
  | truee => exact ⟨true, rfl⟩
  | maybe r =>
    cases hr : s.refs r with
    | known b' => exact ⟨b', toBoolOpt_maybe.2 (ha.known r b' hr)⟩
    | unknown fs =>
      unfold setWith at h
      dsimp only at h
      rw [hr] at h
      have h1 := forallCall_answers (call_answers n) (hs.assign_known he b) (hs.below r fs hr) h
      exact ⟨b, toBoolOpt_maybe.2 (h1.known r b (assign_self s r _))⟩

/-- If `set (e', b)` fails when `e` is `b`, both are known. -/
theorem whenWith_known {n : ℕ} {s s' : Equalities} (hs : s.WF) (he : e.Below s.next)
    (he' : e'.Below s.next) (h : whenWith (call n) e (.set e') s = .ok (false, s')) :
    (∃ b, e.toBoolOpt s' = some b) ∧ ∃ b', e'.toBoolOpt s' = some b' := by
  have ha := whenWith_answers (call_answers n) hs he (f := .set e') he' h
  have hcall : ∀ {b}, call n (.set e') b s = .ok (false, s') →
      ∃ b', e'.toBoolOpt s' = some b' := by
    intro b hb
    cases n with
    | zero => cases hb
    | succ n => exact setWith_known hs he' hb
  cases e with
  | falsee => exact ⟨⟨false, rfl⟩, hcall h⟩
  | truee => exact ⟨⟨true, rfl⟩, hcall h⟩
  | maybe r =>
    unfold whenWith at h
    dsimp only at h
    cases hr : s.refs r with
    | known b =>
      rw [hr] at h
      exact ⟨⟨b, toBoolOpt_maybe.2 (ha.known r b hr)⟩, hcall h⟩
    | unknown fs =>
      rw [hr] at h
      cases h

/-- **The attributes that are not unified are known**, so that they can be shown. -/
theorem unify_false_known {n : ℕ} {s s' : Equalities} (hs : s.WF) (he : e.Below s.next)
    (he' : e'.Below s.next) (h : Equality.unify n e e' s = .ok (false, s')) :
    (∃ b, e.toBoolOpt s' = some b) ∧ ∃ b', e'.toBoolOpt s' = some b' := by
  unfold Equality.unify unifyWith at h
  cases hx : whenWith (call n) e (.set e') s with
  | error stop =>
    rw [hx] at h
    cases h
  | ok a =>
    obtain ⟨ok, s1⟩ := a
    rw [hx] at h
    have ha := whenWith_answers (call_answers n) hs he (f := .set e') he' hx
    cases ok with
    | true => exact (whenWith_known ha.wf (ha.next_eq ▸ he') (ha.next_eq ▸ he) h).symm
    | false =>
      cases h
      exact whenWith_known hs he he' hx

/-- What `unify` of the signature returns. -/
theorem unifyResult_answers {n : ℕ} {s s' : Equalities} {result : UnifyResult} (hs : s.WF)
    (he : e.Below s.next) (he' : e'.Below s.next)
    (h : unifyResult n e e' s = .ok (result, s')) :
    Answers s (fun s => Recorded s (.equal e e')) (fun ρ => (Constraint.equal e e').Holds ρ)
      (decide (result = .unified), s') := by
  unfold unifyResult at h
  cases hx : Equality.unify n e e' s with
  | error stop =>
    rw [hx] at h
    cases h
  | ok a =>
    obtain ⟨ok, s1⟩ := a
    have ha := unifyWith_answers (call_answers n) hs he he' hx
    rw [hx] at h
    cases ok with
    | true =>
      cases h
      exact ha
    | false =>
      obtain ⟨⟨b, hb⟩, b', hb'⟩ := unify_false_known hs he he' hx
      dsimp only [bind, Except.bind] at h
      rw [if_neg Bool.false_ne_true, hb, hb'] at h
      cases h
      exact ha

theorem unifyResult_total {n : ℕ} {s : Equalities} (hs : s.WF) (he : e.Below s.next)
    (he' : e'.Below s.next) (hn : 2 * s.next < n) : ∃ a, unifyResult n e e' s = .ok a := by
  have hcard : s.unknowns.card ≤ s.next :=
    (Finset.card_filter_le _ _).trans (Finset.card_range _).le
  obtain ⟨⟨ok, s'⟩, hx⟩ := unifyWith_total (call_answers n) (fun b => call_total n b) hs he he'
    (show 2 * s.unknowns.card < n by omega)
  unfold unifyResult
  rw [show Equality.unify n e e' s = .ok (ok, s') from hx]
  cases ok with
  | true => exact ⟨_, rfl⟩
  | false =>
    obtain ⟨⟨b, hb⟩, b', hb'⟩ := unify_false_known hs he he' hx
    dsimp only [bind, Except.bind]
    rw [if_neg Bool.false_ne_true, hb, hb']
    exact ⟨_, rfl⟩

theorem Inv.unify {n : ℕ} {s' : Equalities} {result : UnifyResult} (h : x.Inv)
    (he : e.Below x.cells.next) (he' : e'.Below x.cells.next)
    (hx : unifyResult n e e' x.cells = .ok (result, s')) :
    Inv ⟨s', .equal e e' :: x.constraints, x.failed || decide (result ≠ .unified)⟩ := by
  have ha := unifyResult_answers h.wf he he' hx
  have hnext : s'.next = x.cells.next := ha.next_eq
  refine ⟨ha.wf, ?_, fun hok => ?_, fun ρ hρ => ?_⟩
  · change ∀ c ∈ _, Constraint.Below s'.next c
    rw [hnext]
    refine forall_mem_cons.2 ⟨?_, h.below⟩
    simpa [Constraint.Below, Constraint.attributes] using ⟨he, he'⟩
  · obtain ⟨hok1, hok2⟩ := or_eq_false_iff.1 hok
    obtain ⟨hlater, hrec⟩ := ha.later (by simpa using hok2)
    exact forall_mem_cons.2 ⟨hrec, fun c hc => (h.recorded hok1 c hc).later hlater⟩
  · obtain ⟨heq, hcs⟩ := forall_mem_cons.1 hρ
    obtain ⟨hok, hm⟩ := h.models ρ hcs
    obtain ⟨hunified, hm'⟩ := ha.models ρ hm heq
    exact ⟨by simpa [hok] using hunified, hm'⟩

/-- **One operation.** -/
theorem Inv.run {n : ℕ} {o : Operation} {y : Session} (h : x.Inv) (ho : o.Below x.cells.next)
    (hy : o.run n x = .ok y) : y.Inv := by
  cases o with
  | unknown =>
    cases hy
    exact h.unknown
  | and2 e e' =>
    cases hy
    exact h.and2 ho.1 ho.2
  | andd es =>
    cases hy
    exact Inv.fold es (.truee, x.cells) h trivial ho
  | unify e e' =>
    unfold Operation.run at hy
    dsimp only at hy
    cases hx : unifyResult n e e' x.cells with
    | error stop =>
      rw [hx] at hy
      cases hy
    | ok a =>
      obtain ⟨result, s'⟩ := a
      rw [hx] at hy
      cases hy
      exact h.unify ho.1 ho.2 hx

/-- **Any operations.** -/
theorem Reachable.inv (h : Reachable x) : x.Inv := by
  induction h with
  | empty => exact .empty
  | run _ ho hy ih => exact ih.run ho hy

/-- **Equality attributes are solved consistently**: after any operations, each further operation
returns; while none has failed, what is known satisfies the constraints, and what one known value
and one constraint imply is known, but for an attribute whose conjunction with itself is false; and
if one has failed, no values satisfy the constraints. -/
theorem solved (h : Reachable x) :
    (∀ o : Operation, o.Below x.cells.next → ∀ n > 2 * x.cells.next, ∃ y, o.run n x = .ok y) ∧
      (x.failed = false → ∀ c ∈ x.constraints,
        ((∀ e ∈ c.attributes, (e.toBoolOpt x.cells).isSome) →
          ∀ ρ, Agrees ρ x.cells → c.Holds ρ) ∧
        ∀ a b e v, a.toBoolOpt x.cells = some b → c.Implies a b e v →
          e.toBoolOpt x.cells = some v ∨
            ∃ e'', c = .and e e e'' ∧ e''.toBoolOpt x.cells = some false) ∧
      (x.failed = true → ∀ ρ, ¬ ∀ c ∈ x.constraints, c.Holds ρ) := by
  have hinv := h.inv
  refine ⟨fun o ho n hn => ?_, fun hok c hc => ⟨fun hk ρ hρ => ?_, fun a b e v ha himp => ?_⟩,
    fun hfailed ρ hρ => ?_⟩
  · cases o with
    | unify e e' =>
      obtain ⟨a, ha⟩ := unifyResult_total hinv.wf ho.1 ho.2 hn
      unfold Operation.run
      dsimp only
      rw [ha]
      exact ⟨_, rfl⟩
    | _ => exact ⟨_, rfl⟩
  · exact (hinv.recorded hok c hc).holds hk hρ
  · exact (hinv.recorded hok c hc).implies ha himp
  · rw [(hinv.models ρ hρ).1] at hfailed
    cases hfailed

/-- A conjunction that is true, one of whose attributes then should be false. -/
theorem solved_failed : ∃ x, Reachable x ∧ x.failed = true ∧
    ∀ ρ, ¬ ∀ c ∈ x.constraints, c.Holds ρ := by
  have h : Reachable _ :=
    .run (n := 9) (o := .unify (.maybe 0) .falsee)
      (.run (n := 9) (o := .unify (.maybe 2) .truee)
        (.run (n := 0) (o := .and2 (.maybe 0) (.maybe 1))
          (.run (n := 0) (o := .unknown) (.run (n := 0) (o := .unknown) .empty trivial rfl)
            trivial rfl)
          ⟨by decide, by decide⟩ rfl)
        ⟨by decide, trivial⟩ rfl)
      ⟨by decide, trivial⟩ rfl
  exact ⟨_, h, rfl, (solved h).2.2 rfl⟩

/-- The conjunction of an attribute with itself is set to false: the attribute should be false, but
is not known. -/
theorem square_not_known : ∃ x, Reachable x ∧ x.failed = false ∧
    ∃ c ∈ x.constraints, ∃ a b e v, a.toBoolOpt x.cells = some b ∧ c.Implies a b e v ∧
      e.toBoolOpt x.cells ≠ some v := by
  have h : Reachable _ :=
    .run (n := 9) (o := .unify (.maybe 1) .falsee)
      (.run (n := 0) (o := .and2 (.maybe 0) (.maybe 0))
        (.run (n := 0) (o := .unknown) .empty trivial rfl)
        ⟨by decide, by decide⟩ rfl)
      ⟨by decide, trivial⟩ rfl
  refine ⟨_, h, rfl, .and (.maybe 0) (.maybe 0) (.maybe 1), by decide, .maybe 1, false, .maybe 0,
    false, rfl, fun ρ hρ ha => ?_, by decide⟩
  have hand : (ρ 0 && ρ 0) = ρ 1 := hρ
  rw [Bool.and_self] at hand
  exact hand.trans ha

end Session

end Equality

end MultiMLton.Elaborate
