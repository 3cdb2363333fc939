import MultiMLton.Elaborate.Equality

/-!
# Calls of the functions that wait for an attribute

Every function of `Equality` sets attributes by calling functions that wait, which call others.
What a call with a value achieves is `Done`, what it is right about `WhenKnown.Sound`; `Answers`
has both, and is kept by every function (`call_answers`). As each cell is set once, a call
terminates (`call_total`).
-/

namespace MultiMLton.Elaborate

open List

namespace Equality

/-- An attribute of the cells below `k`. -/
def Below (k : ℕ) : Equality → Prop
  | .maybe r => r < k
  | _ => True

instance (k : ℕ) : (e : Equality) → Decidable (e.Below k)
  | .falsee | .truee => .isTrue trivial
  | .maybe r => inferInstanceAs (Decidable (r < k))

theorem Below.mono {k k' : ℕ} (h : k ≤ k') {e : Equality} (he : e.Below k) : e.Below k' := by
  cases e with
  | maybe r => exact Nat.lt_of_lt_of_le he h
  | _ => trivial

/-- The value of an attribute where the cells have the values `ρ`. -/
def eval (ρ : ℕ → Bool) : Equality → Bool
  | .falsee => false
  | .maybe r => ρ r
  | .truee => true

end Equality

namespace WhenKnown

def Below (k : ℕ) : WhenKnown → Prop
  | .set e => e.Below k
  | .both e e' => e.Below k ∧ e'.Below k
  | .notBoth e' => e'.Below k
  | .dep e' e'' => e'.Below k ∧ e''.Below k

theorem Below.mono {k k' : ℕ} (h : k ≤ k') {f : WhenKnown} (hf : f.Below k) : f.Below k' := by
  cases f with
  | set e | notBoth e' => exact Equality.Below.mono h hf
  | both e e' | dep e' e'' => exact ⟨hf.1.mono h, hf.2.mono h⟩

/-- A call with `b` is right for the values `ρ`. -/
def Sound (ρ : ℕ → Bool) : WhenKnown → Bool → Prop
  | .set e, b => e.eval ρ = b
  | .both e e', b => (e.eval ρ && e'.eval ρ) = b
  | .notBoth e', b => b = true → e'.eval ρ = false
  | .dep e' e'', b => if b then e'.eval ρ = e''.eval ρ else e''.eval ρ = false

/-- How many calls deep a function that waits goes before it sets a cell. -/
def depth : WhenKnown → ℕ
  | .set _ | .notBoth _ => 0
  | .both _ _ | .dep _ _ => 1

end WhenKnown

def Maybe.isUnknown : Maybe → Bool
  | .known _ => false
  | .unknown _ => true

namespace Equalities

/-- The functions that wait mention cells that exist. -/
structure WF (s : Equalities) : Prop where
  beyond : ∀ r, s.next ≤ r → ∃ b, s.refs r = .known b
  below : ∀ r fs, s.refs r = .unknown fs → ∀ f ∈ fs, f.Below s.next

/-- The values `ρ` are possible. -/
structure Models (ρ : ℕ → Bool) (s : Equalities) : Prop where
  known : ∀ r < s.next, ∀ b, s.refs r = .known b → ρ r = b
  unknown : ∀ r fs, s.refs r = .unknown fs → ∀ f ∈ fs, f.Sound ρ (ρ r)

/-- The cells whose values are not known. -/
def unknowns (s : Equalities) : Finset ℕ :=
  (Finset.range s.next).filter fun r => (s.refs r).isUnknown = true

mutual

/-- `f` was called with `b`. -/
inductive Done (s : Equalities) : WhenKnown → Bool → Prop
  | set {e b} : e.toBoolOpt s = some b → Done s (.set e) b
  | both_true {e e'} : e.toBoolOpt s = some true → e'.toBoolOpt s = some true →
      Done s (.both e e') true
  | both_false {e e'} : Waits s e (.notBoth e') → Waits s e' (.notBoth e) →
      Done s (.both e e') false
  | notBoth_true {e'} : e'.toBoolOpt s = some false → Done s (.notBoth e') true
  | notBoth_false {e'} : Done s (.notBoth e') false
  | dep_true {e' e''} : Waits s e' (.set e'') → Waits s e'' (.set e') → Done s (.dep e' e'') true
  | dep_false {e' e''} : e''.toBoolOpt s = some false → Done s (.dep e' e'') false

/-- `f` waits for `e`, or was called with its value. -/
inductive Waits (s : Equalities) : Equality → WhenKnown → Prop
  | known {e f b} : e.toBoolOpt s = some b → Done s f b → Waits s e f
  | queued {r f fs} : s.refs r = .unknown fs → f ∈ fs → Waits s (.maybe r) f

end

/-- Since `s`, values became known, and the functions that waited for them were called. -/
structure Later (s s' : Equalities) : Prop where
  known : ∀ r b, s.refs r = .known b → s'.refs r = .known b
  unknown : ∀ r fs, s.refs r = .unknown fs →
    (∃ fs', s'.refs r = .unknown fs' ∧ fs ⊆ fs') ∨
      ∃ b, s'.refs r = .known b ∧ ∀ f ∈ fs, Done s' f b

variable {s s' s'' : Equalities} {e e' : Equality} {f : WhenKnown} {b : Bool} {r : ℕ}

theorem toBoolOpt_maybe : (Equality.maybe r).toBoolOpt s = some b ↔ s.refs r = .known b := by
  unfold Equality.toBoolOpt
  cases h : s.refs r <;> simp [h]

theorem assign_self (s : Equalities) (r : ℕ) (m : Maybe) : (s.assign r m).refs r = m :=
  Function.update_self ..

theorem assign_other {r' : ℕ} (h : r' ≠ r) (s : Equalities) (m : Maybe) :
    (s.assign r m).refs r' = s.refs r' :=
  Function.update_of_ne h ..

/-- What waits after a cell is set waited before. -/
theorem assign_known_unknown {r' : ℕ} {fs : List WhenKnown}
    (h : (s.assign r (.known b)).refs r' = .unknown fs) : s.refs r' = .unknown fs := by
  by_cases heq : r' = r
  · rw [heq, assign_self] at h
    cases h
  · rwa [assign_other heq] at h

theorem WF.assign_known (hs : s.WF) (hr : r < s.next) (b : Bool) :
    (s.assign r (.known b)).WF := by
  refine ⟨fun r' hr' => ?_, fun r' fs hfs => hs.below r' fs (assign_known_unknown hfs)⟩
  obtain ⟨b', hb'⟩ := hs.beyond r' hr'
  exact ⟨b', (assign_other (hr.trans_le hr').ne' ..).trans hb'⟩

/-- What is known depends on the cells of an attribute only. -/
theorem toBoolOpt_mono (h : ∀ r b, e = .maybe r → s.refs r = .known b → s'.refs r = .known b)
    (he : e.toBoolOpt s = some b) : e.toBoolOpt s' = some b := by
  cases e with
  | falsee => exact he
  | maybe r => exact toBoolOpt_maybe.2 (h r b rfl (toBoolOpt_maybe.1 he))
  | truee => exact he

theorem Later.toBoolOpt (h : Later s s') (he : e.toBoolOpt s = some b) :
    e.toBoolOpt s' = some b :=
  toBoolOpt_mono (fun r b _ => h.known r b) he

mutual

theorem Done.later (h : Later s s') {f : WhenKnown} {b : Bool} : Done s f b → Done s' f b
  | .set he => .set (h.toBoolOpt he)
  | .both_true he he' => .both_true (h.toBoolOpt he) (h.toBoolOpt he')
  | .both_false he he' => .both_false (he.later h) (he'.later h)
  | .notBoth_true he' => .notBoth_true (h.toBoolOpt he')
  | .notBoth_false => .notBoth_false
  | .dep_true he he' => .dep_true (he.later h) (he'.later h)
  | .dep_false he' => .dep_false (h.toBoolOpt he')

theorem Waits.later (h : Later s s') {e : Equality} {f : WhenKnown} : Waits s e f → Waits s' e f
  | .known he hf => .known (h.toBoolOpt he) (hf.later h)
  | .queued hr hf =>
    match h.unknown _ _ hr with
    | .inl ⟨_, hr', hsub⟩ => .queued hr' (hsub hf)
    | .inr ⟨_, hr', hdone⟩ => .known (toBoolOpt_maybe.2 hr') (hdone _ hf)

end

theorem Later.refl (s : Equalities) : Later s s :=
  ⟨fun _ _ h => h, fun _ fs h => .inl ⟨fs, h, fun _ hf => hf⟩⟩

theorem Later.trans (h : Later s s') (h' : Later s' s'') : Later s s'' := by
  refine ⟨fun r b hr => h'.known r b (h.known r b hr), fun r fs hr => ?_⟩
  rcases h.unknown r fs hr with ⟨fs', hr', hsub⟩ | ⟨b, hr', hdone⟩
  · rcases h'.unknown r fs' hr' with ⟨fs'', hr'', hsub'⟩ | ⟨b, hr'', hdone⟩
    · exact .inl ⟨fs'', hr'', fun f hf => hsub' (hsub hf)⟩
    · exact .inr ⟨b, hr'', fun f hf => hdone f (hsub hf)⟩
  · exact .inr ⟨b, h'.known r b hr', fun f hf => (hdone f hf).later h'⟩

/-- What a function of attributes returns from `s`: if true, it achieved `goal`; and it is true for
all values for which what it was asked, `right`, is right. -/
structure Answers (s : Equalities) (goal : Equalities → Prop) (right : (ℕ → Bool) → Prop)
    (a : Bool × Equalities) : Prop where
  wf : a.2.WF
  next_eq : a.2.next = s.next
  known : ∀ r b, s.refs r = .known b → a.2.refs r = .known b
  later : a.1 = true → Later s a.2 ∧ goal a.2
  models : ∀ ρ, Models ρ s → right ρ → a.1 = true ∧ Models ρ a.2

section Answers

variable {goal goal' : Equalities → Prop} {right right' : (ℕ → Bool) → Prop}
  {a : Bool × Equalities} {ok : Bool}

/-- No cell changes. -/
theorem Answers.same (hs : s.WF) (hgoal : ok = true → goal s)
    (hright : ∀ ρ, Models ρ s → right ρ → ok = true) : Answers s goal right (ok, s) where
  wf := hs
  next_eq := rfl
  known _ _ h := h
  later hok := ⟨.refl s, hgoal hok⟩
  models ρ hρ hr := ⟨hright ρ hρ hr, hρ⟩

theorem Answers.imp (h : Answers s goal right a) (hgoal : goal a.2 → goal' a.2)
    (hright : ∀ ρ, right' ρ → right ρ) : Answers s goal' right' a :=
  { h with
    later := fun hok => ⟨(h.later hok).1, hgoal (h.later hok).2⟩
    models := fun ρ hρ hr => h.models ρ hρ (hright ρ hr) }

/-- Two functions one after the other. -/
theorem Answers.trans (h : Answers s goal right (true, s')) (h' : Answers s' goal' right' a)
    (hgoal : ∀ {s' s''}, Later s' s'' → goal s' → goal s'') :
    Answers s (fun s => goal s ∧ goal' s) (fun ρ => right ρ ∧ right' ρ) a where
  wf := h'.wf
  next_eq := h'.next_eq.trans h.next_eq
  known r b hr := h'.known r b (h.known r b hr)
  later ha := by
    obtain ⟨hl, hg⟩ := h.later rfl
    obtain ⟨hl', hg'⟩ := h'.later ha
    exact ⟨hl.trans hl', hgoal hl' hg, hg'⟩
  models ρ hρ hr := h'.models ρ (h.models ρ hρ hr.1).2 hr.2

/-- The second unless the first fails. -/
theorem Answers.andalso {x : Equality.Result} {y : Equalities → Equality.Result}
    (h : (do let (r, s) ← x; if r then y s else .ok (false, s)) = .ok a)
    (hx : ∀ a, x = .ok a → Answers s goal right a)
    (hy : ∀ s', s'.WF → s'.next = s.next → ∀ a, y s' = .ok a → Answers s' goal' right' a)
    (hgoal : ∀ {s' s''}, Later s' s'' → goal s' → goal s'') :
    Answers s (fun s => goal s ∧ goal' s) (fun ρ => right ρ ∧ right' ρ) a := by
  cases x with
  | error e => cases h
  | ok a' =>
    obtain ⟨ok, s'⟩ := a'
    have h1 := hx _ rfl
    cases ok with
    | true => exact h1.trans (hy s' h1.wf h1.next_eq a h) hgoal
    | false =>
      cases h
      exact {
        wf := h1.wf
        next_eq := h1.next_eq
        known := h1.known
        later := nofun
        models := fun ρ hρ hr => nomatch (h1.models ρ hρ hr.1).1 }

end Answers

/-! ### Waiting -/

theorem await_next (s : Equalities) (r : ℕ) (f : WhenKnown) : (s.await r f).next = s.next := by
  unfold await
  cases s.refs r <;> rfl

theorem await_isUnknown (s : Equalities) (r r' : ℕ) (f : WhenKnown) :
    ((s.await r f).refs r').isUnknown = (s.refs r').isUnknown := by
  unfold await
  cases hr : s.refs r with
  | known b => rfl
  | unknown fs =>
    dsimp only
    by_cases heq : r' = r
    · rw [heq, assign_self, hr]
      rfl
    · rw [assign_other heq]

theorem await_answers (hs : s.WF) (hf : f.Below s.next) (hr : (s.refs r).isUnknown = true) :
    Answers s (fun s => Waits s (.maybe r) f) (fun ρ => f.Sound ρ (ρ r)) (true, s.await r f) := by
  cases hr' : s.refs r with
  | known b =>
    rw [hr'] at hr
    cases hr
  | unknown fs =>
    clear hr
    rename' hr' => hr
    have hself : (s.await r f).refs r = .unknown (f :: fs) := by
      rw [await, hr]
      exact assign_self ..
    have hother : ∀ r' ≠ r, (s.await r f).refs r' = s.refs r' := by
      intro r' hr'
      rw [await, hr]
      exact assign_other hr' ..
    have hknown : ∀ r' b', s.refs r' = .known b' → (s.await r f).refs r' = .known b' := by
      intro r' b' hb'
      rw [hother r' (by rintro rfl; rw [hr] at hb'; cases hb'), hb']
    have hcases : ∀ r' fs', (s.await r f).refs r' = .unknown fs' →
        r' = r ∧ fs' = f :: fs ∨ s.refs r' = .unknown fs' := by
      intro r' fs' hr'
      by_cases heq : r' = r
      · subst heq
        rw [hself] at hr'
        cases hr'
        exact .inl ⟨rfl, rfl⟩
      · exact .inr ((hother r' heq).symm.trans hr')
    have hnext := await_next s r f
    refine ⟨⟨fun r' hr' => ?_, fun r' fs' hr' => ?_⟩, hnext, hknown, fun _ => ⟨⟨hknown, ?_⟩,
      .queued hself mem_cons_self⟩, fun ρ hρ hsound => ⟨rfl, fun r' hr' b' hb' => ?_, ?_⟩⟩
    · obtain ⟨b', hb'⟩ := hs.beyond r' (hnext ▸ hr')
      exact ⟨b', hknown r' b' hb'⟩
    · change ∀ f' ∈ fs', f'.Below (s.await r f).next
      rw [hnext]
      rcases hcases r' fs' hr' with ⟨-, rfl⟩ | hr''
      · exact forall_mem_cons.2 ⟨hf, hs.below r fs hr⟩
      · exact hs.below r' fs' hr''
    · intro r' fs' hr'
      by_cases heq : r' = r
      · subst heq
        rw [hr] at hr'
        cases hr'
        exact .inl ⟨_, hself, subset_cons_self ..⟩
      · exact .inl ⟨fs', (hother r' heq).trans hr', fun _ hf => hf⟩
    · refine hρ.known r' (hnext ▸ hr') b' ?_
      rwa [hother r' (by rintro rfl; rw [hself] at hb'; cases hb')] at hb'
    · intro r' fs' hr'
      rcases hcases r' fs' hr' with ⟨rfl, rfl⟩ | hr''
      · exact forall_mem_cons.2 ⟨hsound, hρ.unknown r' fs hr⟩
      · exact hρ.unknown r' fs' hr''

/-! ### Calls -/

section Calls

variable {call : WhenKnown → Bool → Equalities → Equality.Result}
  (hcall : ∀ {s f b a}, s.WF → f.Below s.next → call f b s = .ok a →
    Answers s (fun s => Done s f b) (fun ρ => f.Sound ρ b) a)
  {a : Bool × Equalities}

include hcall

theorem forallCall_answers {fs : List WhenKnown} (hs : s.WF) (hfs : ∀ f ∈ fs, f.Below s.next)
    (h : Equality.forallCall call b fs s = .ok a) :
    Answers s (fun s => ∀ f ∈ fs, Done s f b) (fun ρ => ∀ f ∈ fs, f.Sound ρ b) a := by
  induction fs generalizing s a with
  | nil =>
    cases h
    exact .same hs (fun _ _ hf => nomatch hf) fun _ _ _ => rfl
  | cons f fs ih =>
    refine (Answers.andalso h (fun a => hcall hs (hfs f mem_cons_self))
      (fun s' hs' hnext a => ih hs' fun f hf => hnext ▸ hfs f (mem_cons_of_mem _ hf))
      (fun hl hdone => hdone.later hl)).imp (fun hdone => ?_) fun ρ hr => ?_
    · exact forall_mem_cons.2 hdone
    · exact forall_mem_cons.1 hr

theorem setWith_answers (hs : s.WF) (he : e.Below s.next)
    (h : Equality.setWith call e b s = .ok a) :
    Answers s (fun s => e.toBoolOpt s = some b) (fun ρ => e.eval ρ = b) a := by
  unfold Equality.setWith at h
  cases e with
  | falsee | truee =>
    cases h
    exact .same hs (fun hb => by rw [beq_iff_eq.1 hb]; rfl) fun ρ _ hb => beq_iff_eq.2 hb.symm
  | maybe r =>
    dsimp only at h
    cases hr : s.refs r with
    | known b' =>
      rw [hr] at h
      cases h
      refine .same hs (fun hb => toBoolOpt_maybe.2 (by rw [beq_iff_eq.1 hb, hr])) fun ρ hρ hb => ?_
      exact beq_iff_eq.2 (hb.symm.trans (hρ.known r he b' hr))
    | unknown fs =>
      rw [hr] at h
      dsimp only at h
      have hself := assign_self s r (.known b)
      have hother : ∀ r' ≠ r, (s.assign r (.known b)).refs r' = s.refs r' := fun r' hr' =>
        assign_other hr' s _
      have h1 := forallCall_answers hcall (hs.assign_known he b) (hs.below r fs hr) h
      have hknown : ∀ r' b', s.refs r' = .known b' → a.2.refs r' = .known b' := by
        intro r' b' hb'
        refine h1.known r' b' ?_
        rw [hother r' (by rintro rfl; rw [hr] at hb'; cases hb'), hb']
      refine ⟨h1.wf, h1.next_eq, hknown, fun hok => ?_, fun ρ hρ hb => h1.models ρ ?_ ?_⟩
      · obtain ⟨hl, hdone⟩ := h1.later hok
        refine ⟨⟨hknown, fun r' fs' hr' => ?_⟩, toBoolOpt_maybe.2 (hl.known r b hself)⟩
        by_cases heq : r' = r
        · subst heq
          rw [hr] at hr'
          cases hr'
          exact .inr ⟨b, hl.known r' b hself, hdone⟩
        · exact hl.unknown r' fs' ((hother r' heq).trans hr')
      · refine ⟨fun r' hr' b' hb' => ?_, fun r' fs' hr' => hρ.unknown r' fs' (assign_known_unknown hr')⟩
        by_cases heq : r' = r
        · subst heq
          rw [hself] at hb'
          cases hb'
          exact hb
        · exact hρ.known r' hr' b' ((hother r' heq).symm.trans hb')
      · intro f hf
        have := hρ.unknown r fs hr f hf
        rwa [show ρ r = b from hb] at this

theorem whenWith_answers (hs : s.WF) (he : e.Below s.next) (hf : f.Below s.next)
    (h : Equality.whenWith call e f s = .ok a) :
    Answers s (fun s => Waits s e f) (fun ρ => f.Sound ρ (e.eval ρ)) a := by
  unfold Equality.whenWith at h
  cases e with
  | falsee | truee => exact (hcall hs hf h).imp (.known rfl) fun _ hr => hr
  | maybe r =>
    dsimp only at h
    cases hr : s.refs r with
    | known b =>
      rw [hr] at h
      have h1 := hcall hs hf h
      refine ⟨h1.wf, h1.next_eq, h1.known, fun hok => ?_, fun ρ hρ hsound => h1.models ρ hρ ?_⟩
      · obtain ⟨hl, hdone⟩ := h1.later hok
        exact ⟨hl, .known (toBoolOpt_maybe.2 (hl.known r b hr)) hdone⟩
      · rwa [Equality.eval, hρ.known r he b hr] at hsound
    | unknown fs =>
      rw [hr] at h
      cases h
      exact await_answers hs hf (by rw [hr]; rfl)

theorem unifyWith_answers (hs : s.WF) (he : e.Below s.next) (he' : e'.Below s.next)
    (h : Equality.unifyWith call e e' s = .ok a) :
    Answers s (fun s => Waits s e (.set e') ∧ Waits s e' (.set e))
      (fun ρ => e.eval ρ = e'.eval ρ) a :=
  (Answers.andalso h (fun _ => whenWith_answers hcall hs he he')
    (fun _ hs' hnext _ => whenWith_answers hcall hs' (hnext ▸ he') (hnext ▸ he))
    (fun hl hw => hw.later hl)).imp id fun _ hr => ⟨hr.symm, hr⟩

end Calls

/-- **One call.** -/
theorem call_answers (n : ℕ) {a : Bool × Equalities} (hs : s.WF) (hf : f.Below s.next)
    (h : Equality.call n f b s = .ok a) :
    Answers s (fun s => Done s f b) (fun ρ => f.Sound ρ b) a := by
  induction n generalizing s f b a with
  | zero => cases h
  | succ n ih =>
    cases f with
    | set e => exact (setWith_answers ih hs hf h).imp .set fun _ hr => hr
    | both e e' =>
      rw [Equality.call] at h
      cases b with
      | true =>
        refine (Answers.andalso h (fun _ => setWith_answers ih hs hf.1)
          (fun _ hs' hnext _ => setWith_answers ih hs' (hnext ▸ hf.2))
          (fun hl he => hl.toBoolOpt he)).imp (fun hk => .both_true hk.1 hk.2) fun ρ hr => ?_
        exact Bool.and_eq_true_iff.1 hr
      | false =>
        refine (Answers.andalso h (fun _ => whenWith_answers ih hs hf.1 hf.2)
          (fun _ hs' hnext _ => whenWith_answers ih hs' (hnext ▸ hf.2) (hnext ▸ hf.1))
          (fun hl hw => hw.later hl)).imp (fun hw => .both_false hw.1 hw.2) fun ρ hr => ?_
        simp only [WhenKnown.Sound] at hr ⊢
        exact ⟨fun he => by simpa [he] using hr, fun he' => by simpa [he'] using hr⟩
    | notBoth e' =>
      rw [Equality.call] at h
      cases b with
      | true => exact (setWith_answers ih hs hf h).imp .notBoth_true fun _ hr => hr rfl
      | false =>
        cases h
        exact .same hs (fun _ => .notBoth_false) fun _ _ _ => rfl
    | dep e' e'' =>
      rw [Equality.call] at h
      cases b with
      | true =>
        exact (unifyWith_answers ih hs hf.1 hf.2 h).imp (fun hw => .dep_true hw.1 hw.2)
          fun _ hr => hr
      | false => exact (setWith_answers ih hs hf.2 h).imp .dep_false fun _ hr => hr

/-! ### Termination -/

/-- No cell becomes unknown. -/
theorem Answers.unknowns_le {goal : Equalities → Prop} {right : (ℕ → Bool) → Prop}
    {a : Bool × Equalities} (h : Answers s goal right a) :
    a.2.unknowns.card ≤ s.unknowns.card := by
  refine Finset.card_le_card fun r hr => ?_
  unfold unknowns at hr ⊢
  rw [Finset.mem_filter, h.next_eq] at hr
  refine Finset.mem_filter.2 ⟨hr.1, ?_⟩
  cases hr' : s.refs r with
  | known b =>
    rw [h.known r b hr'] at hr
    exact nomatch hr.2
  | unknown fs => rfl

/-- A cell that is set is no longer unknown. -/
theorem unknowns_assign_lt {fs : List WhenKnown} (hlt : r < s.next) (hr : s.refs r = .unknown fs) :
    (s.assign r (.known b)).unknowns.card < s.unknowns.card := by
  refine Finset.card_lt_card (Finset.ssubset_iff_of_subset (fun r' hr' => ?_) |>.2 ⟨r, ?_, ?_⟩)
  · obtain ⟨hlt', hunk⟩ := Finset.mem_filter.1 hr'
    refine Finset.mem_filter.2 ⟨hlt', ?_⟩
    by_cases heq : r' = r
    · rw [heq, hr]
      rfl
    · rwa [assign_other heq] at hunk
  · exact Finset.mem_filter.2 ⟨Finset.mem_range.2 hlt, by rw [hr]; rfl⟩
  · intro hmem
    have hunk := (Finset.mem_filter.1 hmem).2
    rw [assign_self] at hunk
    exact nomatch hunk

/-- Two functions one after the other return if both do. -/
theorem andalso_total {x : Equality.Result} {y : Equalities → Equality.Result}
    {goal : Equalities → Prop} {right : (ℕ → Bool) → Prop}
    (hx : ∃ a, x = .ok a) (hgoal : ∀ a, x = .ok a → Answers s goal right a)
    (hy : ∀ s' : Equalities, s'.WF → s'.next = s.next → s'.unknowns.card ≤ s.unknowns.card →
      ∃ a, y s' = .ok a) :
    ∃ a, (do let (r, s) ← x; if r then y s else .ok (false, s)) = .ok a := by
  obtain ⟨⟨ok, s'⟩, rfl⟩ := hx
  have ha := hgoal _ rfl
  cases ok with
  | true => exact hy s' ha.wf ha.next_eq ha.unknowns_le
  | false => exact ⟨_, rfl⟩

section Total

variable {call : WhenKnown → Bool → Equalities → Equality.Result} {n : ℕ}
  (hcall : ∀ {s f b a}, s.WF → f.Below s.next → call f b s = .ok a →
    Answers s (fun s => Done s f b) (fun ρ => f.Sound ρ b) a)
  (htotal : ∀ {s f} b, s.WF → f.Below s.next → 2 * s.unknowns.card + f.depth < n →
    ∃ a, call f b s = .ok a)

include htotal

theorem whenWith_total (hs : s.WF) (hf : f.Below s.next)
    (hn : 2 * s.unknowns.card + f.depth < n) : ∃ a, Equality.whenWith call e f s = .ok a := by
  unfold Equality.whenWith
  cases e with
  | falsee => exact htotal false hs hf hn
  | truee => exact htotal true hs hf hn
  | maybe r =>
    dsimp only
    cases s.refs r with
    | known b => exact htotal b hs hf hn
    | unknown fs => exact ⟨_, rfl⟩

include hcall

theorem forallCall_total {fs : List WhenKnown} (hs : s.WF) (hfs : ∀ f ∈ fs, f.Below s.next)
    (hn : 2 * s.unknowns.card + 1 < n) : ∃ a, Equality.forallCall call b fs s = .ok a := by
  induction fs generalizing s with
  | nil => exact ⟨_, rfl⟩
  | cons f fs ih =>
    have hf := hfs f mem_cons_self
    have hdepth : f.depth ≤ 1 := by cases f <;> simp [WhenKnown.depth]
    obtain ⟨⟨ok, s'⟩, h1⟩ := htotal b hs hf (by omega)
    have ha := hcall hs hf h1
    have hle : s'.unknowns.card ≤ s.unknowns.card := ha.unknowns_le
    obtain ⟨a, h2⟩ := ih ha.wf (fun f hf => ha.next_eq ▸ hfs f (mem_cons_of_mem _ hf))
      (show 2 * s'.unknowns.card + 1 < n by omega)
    rw [Equality.forallCall, h1]
    cases ok with
    | true => exact ⟨a, h2⟩
    | false => exact ⟨_, rfl⟩

theorem setWith_total (hs : s.WF) (he : e.Below s.next) (hn : 2 * s.unknowns.card ≤ n) :
    ∃ a, Equality.setWith call e b s = .ok a := by
  unfold Equality.setWith
  cases e with
  | falsee | truee => exact ⟨_, rfl⟩
  | maybe r =>
    dsimp only
    cases hr : s.refs r with
    | known b' => exact ⟨_, rfl⟩
    | unknown fs =>
      have hlt := unknowns_assign_lt (b := b) he hr
      exact forallCall_total hcall htotal (hs.assign_known he b) (hs.below r fs hr) (by omega)

theorem unifyWith_total (hs : s.WF) (he : e.Below s.next) (he' : e'.Below s.next)
    (hn : 2 * s.unknowns.card < n) : ∃ a, Equality.unifyWith call e e' s = .ok a :=
  andalso_total (whenWith_total (f := .set e') htotal hs he' hn)
    (fun _ => whenWith_answers hcall hs he he')
    fun _ hs' hnext hle => whenWith_total (f := .set e) htotal hs' (hnext ▸ he)
      (show 2 * _ + 0 < n by omega)

end Total

/-- **A call terminates**: each cell is set once. -/
theorem call_total (n : ℕ) (b : Bool) (hs : s.WF) (hf : f.Below s.next)
    (hn : 2 * s.unknowns.card + f.depth < n) : ∃ a, Equality.call n f b s = .ok a := by
  induction n generalizing s f b with
  | zero => omega
  | succ n ih =>
    have hcall : ∀ {s f b a}, s.WF → f.Below s.next → Equality.call n f b s = .ok a →
        Answers s (fun s => Done s f b) (fun ρ => f.Sound ρ b) a := call_answers n
    cases f with
    | set e =>
      exact setWith_total hcall ih hs hf (by simp only [WhenKnown.depth] at hn; omega)
    | notBoth e' =>
      rw [Equality.call]
      simp only [WhenKnown.depth] at hn
      cases b with
      | true => exact setWith_total hcall ih hs hf (by omega)
      | false => exact ⟨_, rfl⟩
    | both e e' =>
      rw [Equality.call]
      simp only [WhenKnown.depth] at hn
      cases b with
      | true =>
        exact andalso_total (setWith_total hcall ih hs hf.1 (by omega))
          (fun _ => setWith_answers hcall hs hf.1)
          fun _ hs' hnext hle => setWith_total hcall ih hs' (hnext ▸ hf.2) (by omega)
      | false =>
        exact andalso_total (whenWith_total (f := .notBoth e') ih hs hf.2
            (show 2 * _ + 0 < n by omega))
          (fun _ => whenWith_answers hcall hs hf.1 hf.2)
          fun _ hs' hnext hle => whenWith_total (f := .notBoth e) ih hs' (hnext ▸ hf.1)
            (show 2 * _ + 0 < n by omega)
    | dep e' e'' =>
      rw [Equality.call]
      simp only [WhenKnown.depth] at hn
      cases b with
      | true => exact unifyWith_total hcall ih hs hf.1 hf.2 (by omega)
      | false => exact setWith_total hcall ih hs hf.2 (by omega)

end Equalities

end MultiMLton.Elaborate
