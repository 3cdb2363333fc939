import Mathlib.Tactic
import MultiMLton.Pacml.Event.Guards

/-!
# What a handler of `wrapHandler` sees

* `Expr`: the events built from base events with `wrap`, `wrapHandler`, `guard` and `choose`, and
  `force_denote`: every base event of such an event is a base event under layers of `wrap` and
  `wrapHandler`;
* `Call`: what one run of a layered `doitFn` or `blockFn` can do, `wrapF_spec` and `handleF_spec`;
* `Sync`: what a whole synchronisation can do;
* `wrapHandler_sees_committed_iff`: handlers see only exceptions of committed events, failed
  commits are retried and a value is returned for exactly one commit, in exactly those runs in
  which no base event fails inside a `wrapHandler`, whose `handle` catches `DOIT_FAIL` before
  `wrapForDoit` does.
-/

namespace MultiMLton.Event

open List

variable {B V ε α β : Type}

/-! ### The base events of a combined event -/

/-- `choose` offers the base events of all its alternatives. -/
theorem force_choose (evts : List (SEvt B V ε)) :
    (force (choose evts)).Perm (evts.flatMap force) := by
  have hsame := (Guarded.choose_same (evts.map Guarded.ofPure) ⟨(), []⟩).1
  rwa [Guarded.forceEach, Guarded.forceEach, append_nil, ← Guarded.ofPure_choose,
    Guarded.force_ofPure, Guarded.forceEach_ofPure] at hsame

mutual

/-- `wrap` and `wrapHandler` compose their function with every base event. -/
theorem force_wrapWith (F : Action B V ε V → Action B V ε V) :
    ∀ evt : SEvt B V ε, force (wrapWith F evt) = (force evt).map (wrapBaseEvt F)
  | .bevt _ => rfl
  | .choose evts => forceBL_wrapWithList F evts []
  | .guard g => force_wrapWith F (g ())

theorem forceBL_wrapWithList (F : Action B V ε V → Action B V ε V) :
    ∀ (evts : List (SEvt B V ε)) (bevts : List (Base B V ε)),
      forceBL (wrapWithList F evts) (bevts.map (wrapBaseEvt F)) =
        (forceBL evts bevts).map (wrapBaseEvt F)
  | [], _ => rfl
  | evt :: evts, bevts => by
    rw [wrapWithList, forceBL, forceBL, force_wrapWith F evt, ← map_append,
      forceBL_wrapWithList F evts]

end

/-! ### One run of a `doitFn` or of a `blockFn` -/

/-- The internal failure of a `doitFn` and that of a `blockFn`. -/
inductive Failure
  | doit
  | block

/-- What is observed of the failure. -/
def Failure.obs : Failure → Bool → Obs ε
  | .doit => .fail
  | .block => .same

/-- The exception that signals it. -/
def Failure.exn : Failure → Exn ε
  | .doit => .DOIT_FAIL
  | .block => .Fail "Same event"

/-- An internal failure has happened inside a `wrapHandler`, and a handler has been applied to its
exception. -/
def Leaked (t : List (Obs ε)) : Prop :=
  ∃ φ : Failure, φ.obs true ∈ t ∧ Obs.handle φ.exn ∈ t

variable {t : List (Obs ε)}

theorem Leaked.append_left (h : Leaked t) (u : List (Obs ε)) : Leaked (u ++ t) := by
  obtain ⟨φ, hobs, hhandle⟩ := h
  exact ⟨φ, mem_append_right u hobs, mem_append_right u hhandle⟩

theorem Leaked.append_right (h : Leaked t) (u : List (Obs ε)) : Leaked (t ++ u) := by
  obtain ⟨φ, hobs, hhandle⟩ := h
  exact ⟨φ, mem_append_left u hobs, mem_append_left u hhandle⟩

/-- What the functions of `wrap` and `wrapHandler` do after a commit. -/
inductive Tail : List (Obs ε) → Res ε V → Prop
  | committed (v : V) : Tail [] (.val v)
  | wrapped {u : List (Obs ε)} {v : V} (v' : V) : Tail u (.val v) → Tail u (.val v')
  | raised {u : List (Obs ε)} {v : V} (e : ε) :
      Tail u (.val v) → Tail (.raised e :: u) (.raise (.user e))
  | handled {u : List (Obs ε)} {e : ε} (v : V) :
      Tail u (.raise (.user e)) → Tail (.handle (.user e) :: u) (.val v)
  | reraised {u : List (Obs ε)} {e : ε} (e' : ε) :
      Tail u (.raise (.user e)) →
        Tail (.raised e' :: .handle (.user e) :: u) (.raise (.user e'))

/-- What one run does `d` functions of `wrapHandler` deep: its observations and how it ends. -/
inductive Call (φ : Failure) (d : ℕ) : List (Obs ε) → Res ε V → Prop
  | commit {u : List (Obs ε)} {r : Res ε V} : Tail u r → Call φ d (u ++ [.commit]) r
  | fail : Call φ d [φ.obs (decide (0 < d))] (.raise φ.exn)
  | asleep : Call φ d [] .asleep
  | leaked {u : List (Obs ε)} {r : Res ε V} : Leaked u → Call φ d u r

/-- A run from `s` that has ended with `out` has observed `u`; a `blockFn` takes the transaction
id when it commits. -/
structure Ran (φ : Failure) (s : St ε) (out : Res ε V × St ε) (u : List (Obs ε)) : Prop where
  trace : out.2.trace = u ++ s.trace
  depth : out.2.depth = s.depth
  call : Call φ s.depth u out.1
  synched : out.2.synched = true ↔ s.synched = true ∨ φ = .block ∧ .commit ∈ u
  free : φ = .block → .commit ∈ u → s.synched = false

/-- Every run of `f` is one that `Ran` describes. -/
def Lawful (φ : Failure) (f : Action B V ε V) : Prop := ∀ w s, ∃ u, Ran φ s (f w s) u

theorem doitFn_lawful (b : B) : Lawful (V := V) (ε := ε) .doit (doitFn b) := by
  intro w s
  unfold doitFn
  cases w.doit s.tick b with
  | some v => exact ⟨[.commit], rfl, rfl, .commit (.committed v), by simp [St.log], by simp⟩
  | none => exact ⟨[.fail _], rfl, rfl, .fail, by simp [St.log], by simp⟩

theorem blockFn_lawful (b : B) : Lawful (V := V) (ε := ε) .block (blockFn b) := by
  intro w s
  unfold blockFn
  cases w.block s.tick b with
  | commits v =>
    by_cases hs : s.synched = true
    · simp only [hs, if_true]
      exact ⟨[], rfl, rfl, .asleep, by simp [St.query], by simp⟩
    · simp only [hs, Bool.false_eq_true, if_false]
      exact ⟨[.commit], rfl, rfl, .commit (.committed v), by simp, by simpa using hs⟩
  | same => exact ⟨[.same _], rfl, rfl, .fail, by simp [St.log], by simp⟩
  | asleep => exact ⟨[], rfl, rfl, .asleep, by simp [St.query], by simp⟩

variable {u : List (Obs ε)}

/-- More is observed after a run, none of it a commit. -/
theorem Ran.extend {φ : Failure} {s s₁ s' s'' : St ε} {r r' : Res ε V}
    (h : Ran φ s₁ (r, s') u) (v : List (Obs ε)) (htrace : s''.trace = v ++ s'.trace)
    (hstart : s₁.trace = s.trace) (hdepth : s''.depth = s.depth)
    (hsync : s''.synched = s'.synched) (hstart' : s₁.synched = s.synched)
    (hv : Obs.commit ∉ v) (hcall : Call φ s.depth (v ++ u) r') : Ran φ s (r', s'') (v ++ u) := by
  refine ⟨?_, hdepth, hcall, ?_, ?_⟩
  · rw [htrace, h.trace, hstart, append_assoc]
  · have := h.synched
    simp only [hsync, hstart'] at this ⊢
    simpa [hv] using this
  · intro hφ hmem
    rw [← hstart']
    exact h.free hφ ((mem_append.mp hmem).resolve_left hv)

variable {f : Action B V ε V}

/-- A function of `wrap` runs only after a commit. -/
theorem wrapF_lawful {φ : Failure} (wfn : V → Except ε V)
    (hf : Lawful φ f) : Lawful φ (wrapF wfn f) := by
  intro w s
  obtain ⟨u, hu⟩ := hf w s
  unfold wrapF
  generalize f w s = out at hu
  obtain ⟨r, s'⟩ := out
  cases r with
  | raise x | asleep => exact ⟨u, hu⟩
  | val v =>
    have hcall := hu.call
    cases hw : wfn v with
    | ok v' =>
      simp only [hw]
      refine ⟨u, hu.extend [] rfl rfl hu.depth rfl rfl (by simp) ?_⟩
      cases hcall with
      | commit ht => exact .commit (.wrapped v' ht)
      | leaked hl => exact .leaked hl
    | error e =>
      simp only [hw]
      refine ⟨_, hu.extend [.raised e] rfl rfl hu.depth rfl rfl (by simp) ?_⟩
      cases hcall with
      | commit ht => exact .commit (.raised e ht)
      | leaked hl => exact .leaked (hl.append_left _)

theorem Tail.raise_user {x : Exn ε} (h : Tail (V := V) u (.raise x)) :
    ∃ e, x = .user e := by
  cases h with
  | raised e _ | reraised e _ => exact ⟨e, rfl⟩

/-- A function of `wrapHandler` handles an exception of a committed event, or the internal one of
an event that has failed. -/
theorem handleF_lawful {φ : Failure} (hfn : Handler ε V)
    (hf : Lawful φ f) : Lawful φ (handleF hfn f) := by
  intro w s
  obtain ⟨u, hu⟩ := hf w { s with depth := s.depth + 1 }
  unfold handleF
  generalize f w { s with depth := s.depth + 1 } = out at hu
  obtain ⟨r, s'⟩ := out
  have hcall := hu.call
  cases r with
  | val v =>
    refine ⟨u, hu.extend [] rfl rfl rfl rfl rfl (by simp) ?_⟩
    cases hcall with
    | commit ht => exact .commit ht
    | leaked hl => exact .leaked hl
  | asleep =>
    refine ⟨u, hu.extend [] rfl rfl rfl rfl rfl (by simp) ?_⟩
    cases hcall with
    | commit ht => exact .commit ht
    | asleep => exact .asleep
    | leaked hl => exact .leaked hl
  | raise x =>
    -- whatever the handler does, it has seen an internal exception or one of a committed event
    have hseen : Leaked (.handle x :: u) ∨ ∃ e t, x = .user e ∧ u = t ++ [.commit] ∧
        Tail (V := V) t (.raise (.user e)) := by
      cases hcall with
      | fail => exact .inl ⟨φ, by simp, by simp⟩
      | leaked hl => exact .inl (hl.append_left [_])
      | commit ht =>
        obtain ⟨e, rfl⟩ := ht.raise_user
        exact .inr ⟨e, _, rfl, rfl, ht⟩
    cases hh : hfn.fn x with
    | ok v =>
      simp only [hh]
      refine ⟨_, hu.extend [.handle x] rfl rfl rfl rfl rfl (by simp) ?_⟩
      rcases hseen with hl | ⟨e, t, rfl, rfl, ht⟩
      · exact .leaked hl
      · exact .commit (.handled v ht)
    | error y =>
      rcases hseen with hl | ⟨e, t, rfl, rfl, ht⟩
      · cases y with
        | user e =>
          simp only [hh]
          exact ⟨_, hu.extend [.raised e, .handle x] rfl rfl rfl rfl rfl (by simp)
            (.leaked (hl.append_left [.raised e]))⟩
        | DOIT_FAIL | Fail msg =>
          simp only [hh]
          exact ⟨_, hu.extend [.handle x] rfl rfl rfl rfl rfl (by simp) (.leaked hl)⟩
      · obtain ⟨e', rfl⟩ := hfn.user e y hh
        simp only [hh]
        exact ⟨_, hu.extend [.raised e', .handle (.user e)] rfl rfl rfl rfl rfl (by simp)
          (.commit (.reraised e' ht))⟩

/-! ### The base events of an event built with the combinators -/

/-- A poll does not observe anything and returns lawful functions. -/
def LawfulBase (p : Base B V ε) : Prop :=
  ∀ w s, ∃ st tick, p w s = (.val st, { s with tick := tick }) ∧
    match st with
    | .enabled _ doitFn => Lawful .doit doitFn
    | .blocked blockFn => Lawful .block blockFn

theorem pollFn_lawful (b : B) : LawfulBase (V := V) (ε := ε) (pollFn b) := by
  intro w s
  unfold pollFn
  cases w.poll s.tick b with
  | some prio => exact ⟨_, _, rfl, doitFn_lawful b⟩
  | none => exact ⟨_, _, rfl, blockFn_lawful b⟩

theorem wrapBaseEvt_lawful {F : Action B V ε V → Action B V ε V} {p : Base B V ε}
    (hF : ∀ φ f, Lawful φ f → Lawful φ (F f)) (hp : LawfulBase p) :
    LawfulBase (wrapBaseEvt F p) := by
  intro w s
  obtain ⟨st, tick, hpoll, hst⟩ := hp w s
  unfold wrapBaseEvt Action.bind
  simp only [hpoll]
  cases st with
  | enabled prio doitFn => exact ⟨_, _, rfl, hF .doit doitFn hst⟩
  | blocked blockFn => exact ⟨_, _, rfl, hF .block blockFn hst⟩

/-- A synchronous event, as the program builds it. -/
inductive Expr (B V ε : Type)
  | base (b : B)
  | never
  | wrap (evt : Expr B V ε) (wfn : V → Except ε V)
  | wrapHandler (evt : Expr B V ε) (hfn : Handler ε V)
  | guard (g : Unit → Expr B V ε)
  | choose (evts : List (Expr B V ε))

mutual

/-- The event that the source's combinators build. -/
def Expr.denote : Expr B V ε → SEvt B V ε
  | .base b => .bevt [pollFn b]
  | .never => Event.never
  | .wrap evt wfn => Event.wrap evt.denote wfn
  | .wrapHandler evt hfn => Event.wrapHandler evt.denote hfn
  | .guard g => .guard fun u => (g u).denote
  | .choose evts => Event.choose (Expr.denoteList evts)

def Expr.denoteList : List (Expr B V ε) → List (SEvt B V ε)
  | [] => []
  | e :: es => e.denote :: Expr.denoteList es

end

mutual

/-- Every base event that is synchronised on is lawful. -/
theorem force_denote_lawful : ∀ (e : Expr B V ε), ∀ p ∈ force e.denote, LawfulBase p
  | .base b => by
    intro p hp
    obtain rfl : p = pollFn b := by simpa [Expr.denote, force] using hp
    exact pollFn_lawful b
  | .never => by simp [Expr.denote, Event.never, force]
  | .wrap evt wfn => by
    intro p hp
    rw [Expr.denote, Event.wrap, force_wrapWith] at hp
    obtain ⟨q, hq, rfl⟩ := mem_map.mp hp
    exact wrapBaseEvt_lawful (fun φ f => wrapF_lawful wfn) (force_denote_lawful evt q hq)
  | .wrapHandler evt hfn => by
    intro p hp
    rw [Expr.denote, Event.wrapHandler, force_wrapWith] at hp
    obtain ⟨q, hq, rfl⟩ := mem_map.mp hp
    exact wrapBaseEvt_lawful (fun φ f => handleF_lawful hfn) (force_denote_lawful evt q hq)
  | .guard g => by
    intro p hp
    rw [Expr.denote, force] at hp
    exact force_denote_lawful (g ()) p hp
  | .choose evts => by
    intro p hp
    rw [Expr.denote, (force_choose _).mem_iff] at hp
    exact force_denoteList_lawful evts p hp

theorem force_denoteList_lawful : ∀ (es : List (Expr B V ε)),
    ∀ p ∈ (Expr.denoteList es).flatMap force, LawfulBase p
  | [] => by simp [Expr.denoteList]
  | e :: es => by
    intro p hp
    rw [Expr.denoteList, flatMap_cons] at hp
    rcases mem_append.mp hp with hp | hp
    · exact force_denote_lawful e p hp
    · exact force_denoteList_lawful es p hp

end

/-! ### A whole synchronisation -/

/-- Failed attempts, each followed by `RETRY`. -/
inductive Attempts : List (Obs ε) → Prop
  | nil : Attempts []
  | retry {t : List (Obs ε)} : Attempts t → Attempts (.retry :: .fail false :: t)

/-- Nothing is committed yet, unless an internal exception has leaked. -/
def Ready (t : List (Obs ε)) : Prop := Attempts t ∨ Leaked t

/-- What a synchronisation has observed, and how it ends. -/
inductive Sync : List (Obs ε) → Res ε V → Prop
  | unfinished {t : List (Obs ε)} : Attempts t → Sync t .asleep
  | committed {u t : List (Obs ε)} {r : Res ε V} :
      Tail u r → Attempts t → Sync (u ++ .commit :: t) r
  | same {t : List (Obs ε)} {r : Res ε V} :
      Sync t r → Sync (.same false :: t) (.raise (.Fail "Same event"))
  | exited {t : List (Obs ε)} {r : Res ε V} : Sync t r → Sync t .asleep
  | leaked {t : List (Obs ε)} {r : Res ε V} : Leaked t → Sync t r

theorem Ready.asleep (h : Ready t) : Sync (V := V) t .asleep :=
  h.elim .unfinished .leaked

/-- What holds after a computation: `Q` of the value that it returns. -/
def Post (Q : α → List (Obs ε) → Prop) : Res ε α → List (Obs ε) → Prop
  | .val a, t => Q a t
  | .raise x, t => Sync (V := V) t (.raise x)
  | .asleep, t => Sync (V := V) t .asleep

/-- Started outside any `wrapHandler` with `P`, the computation ends outside any with `Q`. -/
def Triple (P : List (Obs ε) → Prop) (f : Action B V ε α) (Q : α → List (Obs ε) → Prop) : Prop :=
  ∀ w s, s.depth = 0 → P s.trace →
    (f w s).2.depth = 0 ∧ Post (V := V) Q (f w s).1 (f w s).2.trace

variable {Q : α → List (Obs ε) → Prop}

theorem Triple.bind {P : List (Obs ε) → Prop} {f : Action B V ε α} {g : α → Action B V ε β}
    {R : β → List (Obs ε) → Prop}
    (hf : Triple P f Q) (hg : ∀ a, Triple (Q a) (g a) R) : Triple P (Action.bind f g) R := by
  intro w s hdepth hP
  obtain ⟨hdepth', hpost⟩ := hf w s hdepth hP
  unfold Action.bind
  generalize f w s = out at hdepth' hpost
  obtain ⟨r, s'⟩ := out
  cases r with
  | val a => exact hg a w s' hdepth' hpost
  | raise x | asleep => exact ⟨hdepth', hpost⟩

theorem Triple.ret {P : List (Obs ε) → Prop} (a : α)
    (h : ∀ t, P t → Q a t) : Triple (B := B) (V := V) P (fun _ s => (.val a, s)) Q :=
  fun _ s hdepth hP => ⟨hdepth, h s.trace hP⟩

theorem Triple.of_fact {p : Prop} {P : List (Obs ε) → Prop} {f : Action B V ε α}
    (h : p → Triple P f Q) : Triple (fun t => P t ∧ p) f Q :=
  fun w s hdepth hP => h hP.2 w s hdepth hP.1

/-- The functions that a status carries are lawful. -/
def LawfulStatus : Status B V ε → Prop
  | .enabled _ doitFn => Lawful .doit doitFn
  | .blocked blockFn => Lawful .block blockFn

theorem poll_triple {p : Base B V ε} (hp : LawfulBase p) :
    Triple Ready p fun st t => Ready t ∧ LawfulStatus st := by
  intro w s hdepth hP
  obtain ⟨st, tick, hpoll, hst⟩ := hp w s
  rw [hpoll]
  refine ⟨hdepth, hP, ?_⟩
  cases st with
  | enabled prio doitFn => exact hst
  | blocked blockFn => exact hst

/-- A `doitFn` commits or is retried. -/
theorem wrapForDoit_triple (hf : Lawful .doit f) : Triple Ready (wrapForDoit f) fun
      | .RETRY, t => Ready t
      | .SYNC_DONE v, t => Sync t (.val v) := by
  intro w s hdepth hP
  obtain ⟨u, hu⟩ := hf w s
  unfold wrapForDoit
  generalize f w s = out at hu
  obtain ⟨r, s'⟩ := out
  obtain ⟨htrace, hdepth', hcall, -, -⟩ := hu
  simp only [hdepth] at htrace hdepth' hcall
  by_cases hleak : Leaked s'.trace
  · cases r with
    | val v | asleep => exact ⟨hdepth', .leaked hleak⟩
    | raise x =>
      cases x with
      | DOIT_FAIL => exact ⟨hdepth', .inr (hleak.append_left [.retry])⟩
      | Fail msg | user e => exact ⟨hdepth', .leaked hleak⟩
  · have hattempts : Attempts s.trace := hP.resolve_right fun hl =>
      hleak (htrace ▸ hl.append_left u)
    cases hcall with
    | leaked hl => exact absurd (htrace ▸ hl.append_right s.trace) hleak
    | asleep => exact ⟨hdepth', by simpa [Post, htrace] using Sync.unfinished hattempts⟩
    | fail =>
      refine ⟨hdepth', .inl ?_⟩
      have : s'.trace = .fail false :: s.trace := htrace
      show Attempts (.retry :: s'.trace)
      rw [this]
      exact hattempts.retry
    | @commit u _ ht =>
      have hsync : Sync s'.trace r := by
        rw [htrace, append_assoc]
        exact .committed ht hattempts
      cases r with
      | val v | asleep => exact ⟨hdepth', hsync⟩
      | raise x =>
        obtain ⟨e, rfl⟩ := ht.raise_user
        exact ⟨hdepth', hsync⟩

/-- A single `blockFn`, with a new transaction id. -/
theorem blocked_triple (hf : Lawful .block f) :
    Triple Ready (fun w s => f w { s with synched := false }) fun v t => Sync t (.val v) := by
  intro w s hdepth hP
  obtain ⟨u, hu⟩ := hf w { s with synched := false }
  simp only
  generalize f w { s with synched := false } = out at hu
  obtain ⟨r, s'⟩ := out
  obtain ⟨htrace, hdepth', hcall, -, -⟩ := hu
  simp only [hdepth] at htrace hdepth' hcall
  have hsync : Sync s'.trace r := by
    rw [htrace]
    rcases hP with hattempts | hl
    · cases hcall with
      | leaked hl => exact .leaked (hl.append_right _)
      | asleep => exact .unfinished hattempts
      | fail => exact .same (Sync.unfinished (V := V) hattempts)
      | commit ht =>
        rw [append_assoc]
        exact .committed ht hattempts
    · exact .leaked (hl.append_left u)
  cases r with
  | val v | asleep | raise x => exact ⟨hdepth', hsync⟩

theorem syncOnBEvt_triple {p : Base B V ε} (hp : LawfulBase p) (fuel : ℕ) :
    Triple Ready (syncOnBEvt p fuel) fun v t => Sync t (.val v) := by
  induction fuel with
  | zero => exact fun _ s hdepth hP => ⟨hdepth, hP.asleep⟩
  | succ fuel ih =>
    rw [syncOnBEvt]
    refine (poll_triple hp).bind fun st => Triple.of_fact fun hst => ?_
    cases st with
    | blocked blockFn => exact blocked_triple hst
    | enabled prio doitFn =>
      refine (wrapForDoit_triple hst).bind fun res => ?_
      cases res with
      | RETRY => exact ih
      | SYNC_DONE v => exact Triple.ret v fun _ h => h

theorem extRdy_triple (bevts : List (Base B V ε)) (doitFns : List (Action B V ε V))
    (hb : ∀ p ∈ bevts, LawfulBase p) (hd : ∀ f ∈ doitFns, Lawful .doit f) :
    Triple Ready (extRdy bevts doitFns) fun fs t => Ready t ∧ ∀ f ∈ fs, Lawful .doit f := by
  induction bevts generalizing doitFns with
  | nil => exact Triple.ret doitFns fun _ h => ⟨h, hd⟩
  | cons p bevts ih =>
    have hb' : ∀ p ∈ bevts, LawfulBase p := fun p hp => hb p (mem_cons_of_mem _ hp)
    rw [extRdy]
    refine (poll_triple (hb p (mem_cons_self ..))).bind fun st =>
      Triple.of_fact fun hst => ?_
    cases st with
    | enabled prio doitFn =>
      refine ih (doitFn :: doitFns) hb' ?_
      rintro f (_ | ⟨_, hf⟩)
      · exact hst
      · exact hd f hf
    | blocked blockFn => exact ih doitFns hb' hd

theorem ext_triple (bevts : List (Base B V ε)) (blockFns : List (Action B V ε V))
    (hb : ∀ p ∈ bevts, LawfulBase p) (hd : ∀ f ∈ blockFns, Lawful .block f) :
    Triple Ready (ext bevts blockFns) fun fs t => Ready t ∧
      fs.elim (fun fs => ∀ f ∈ fs, Lawful .doit f) fun fs => ∀ f ∈ fs, Lawful .block f := by
  induction bevts generalizing blockFns with
  | nil => exact Triple.ret _ fun _ h => ⟨h, hd⟩
  | cons p bevts ih =>
    have hb' : ∀ p ∈ bevts, LawfulBase p := fun p hp => hb p (mem_cons_of_mem _ hp)
    rw [ext]
    refine (poll_triple (hb p (mem_cons_self ..))).bind fun st =>
      Triple.of_fact fun hst => ?_
    cases st with
    | enabled prio doitFn =>
      have hsingle : ∀ f ∈ [doitFn], Lawful .doit f := by
        intro f hf
        rw [mem_singleton.mp hf]
        exact hst
      exact (extRdy_triple bevts [doitFn] hb' hsingle).bind fun fs => Triple.ret _ fun _ h => h
    | blocked blockFn =>
      refine ih (blockFn :: blockFns) hb' ?_
      rintro f (_ | ⟨_, hf⟩)
      · exact hst
      · exact hd f hf

theorem doSomeDoit_triple (n : ℕ) (doitFns : List (Action B V ε V))
    (hd : ∀ f ∈ doitFns, Lawful .doit f) :
    Triple Ready (doSomeDoit n doitFns) fun
      | none, t => Ready t
      | some v, t => Sync t (.val v) := by
  induction n generalizing doitFns with
  | zero => exact Triple.ret none fun _ h => h
  | succ n ih =>
    intro w s hdepth hP
    rw [doSomeDoit]
    cases hget : doitFns[w.pick s.tick % doitFns.length]? with
    | none =>
      simp only [hget]
      exact ⟨hdepth, hP⟩
    | some doitFn =>
      simp only [hget]
      refine Triple.bind (wrapForDoit_triple (hd doitFn (mem_of_getElem? hget)))
        (fun res => ?_) w s.query hdepth hP
      cases res with
      | RETRY => exact ih _ fun f hf => hd f (mem_of_mem_eraseIdx hf)
      | SYNC_DONE v => exact Triple.ret (some v) fun _ h => h

/-- The state of the parasites of `blockHelper`: `t` has been readied once one has committed. -/
def Blocking (t : Option V) (s : St ε) : Prop :=
  match t with
  | none => Ready s.trace
  | some v => Leaked s.trace ∨ s.synched = true ∧ Sync s.trace (.val v)

theorem Blocking.sync {t : Option V} {s : St ε} (h : Blocking t s) :
    ∃ r, Sync (V := V) s.trace r := by
  cases t with
  | none => exact ⟨_, h.asleep⟩
  | some v => exact ⟨.val v, h.elim .leaked And.right⟩

variable {r : Res ε V}

/-- One parasite. -/
theorem Blocking.step {t : Option V} {s s' : St ε}
    (h : Blocking t s) (hdepth : s.depth = 0) (hu : Ran .block s (r, s') u) : match r with
    | .val v => Blocking (some (t.getD v)) s' | .raise _ => Sync (V := V) s'.trace .asleep
    | .asleep => Blocking t s' := by
  obtain ⟨htrace, -, hcall, hsync, hfree⟩ := hu
  simp only [hdepth] at htrace hcall hsync hfree
  by_cases hleak : Leaked s'.trace
  · cases r with
    | val v => exact .inl hleak
    | raise x => exact .leaked hleak
    | asleep =>
      cases t with
      | none => exact .inr hleak
      | some v => exact .inl hleak
  · cases hcall with
    | leaked hl => exact absurd (htrace ▸ hl.append_right s.trace) hleak
    | asleep =>
      have htr : s'.trace = s.trace := htrace
      have hsy : s'.synched = s.synched := by
        rw [Bool.eq_iff_iff]
        simpa using hsync
      cases t with
      | none => simpa only [Blocking, htr] using h
      | some v => simpa only [Blocking, htr, hsy] using h
    | fail =>
      obtain ⟨r, hr⟩ := h.sync
      have htr : s'.trace = .same false :: s.trace := htrace
      rw [htr]
      exact .exited (.same hr)
    | @commit u _ ht =>
      -- the transaction id was free, so no parasite before this one has committed
      have hs : s.synched = false := hfree trivial (by simp)
      have hs' : s'.synched = true := hsync.mpr (.inr ⟨trivial, by simp⟩)
      have hl : ¬ Leaked s.trace := fun hl => hleak (htrace ▸ hl.append_left _)
      cases t with
      | some v => simp [Blocking, hl, hs] at h
      | none =>
        have hall : Sync s'.trace r := by
          rw [htrace, append_assoc]
          exact .committed ht (h.resolve_right hl)
        cases r with
        | val v => exact .inr ⟨hs', hall⟩
        | raise x => exact .exited hall
        | asleep => cases ht

theorem blockLoop_triple (blockFns : List (Action B V ε V))
    (hd : ∀ f ∈ blockFns, Lawful .block f) (t : Option V) (order : List ℕ) (w : Races B V)
    (s : St ε) (hdepth : s.depth = 0) (h : Blocking t s) :
    (blockLoop blockFns t order w s).2.depth = 0 ∧
      Post (V := V) (fun v t => Sync t (.val v)) (blockLoop blockFns t order w s).1
        (blockLoop blockFns t order w s).2.trace := by
  induction order generalizing t s with
  | nil =>
    cases t with
    | none => exact ⟨hdepth, h.asleep⟩
    | some v => exact ⟨hdepth, h.elim .leaked And.right⟩
  | cons i order ih =>
    rw [blockLoop]
    cases hget : blockFns[i]? with
    | none => exact ih t s hdepth h
    | some blockFn =>
      obtain ⟨u, hu⟩ := hd blockFn (mem_of_getElem? hget) w s
      simp only
      generalize blockFn w s = out at hu
      obtain ⟨r, s'⟩ := out
      have hstep := h.step hdepth hu
      have hdepth' : s'.depth = 0 := hu.depth.trans hdepth
      cases r with
      | val v => exact ih _ s' hdepth' hstep
      | raise x => exact ⟨hdepth', hstep⟩
      | asleep => exact ih t s' hdepth' hstep

theorem syncOnBEvts_triple (bevts : List (Base B V ε)) (hb : ∀ p ∈ bevts, LawfulBase p)
    (fuel : ℕ) : Triple Ready (syncOnBEvts bevts fuel) fun v t => Sync t (.val v) := by
  induction fuel with
  | zero => exact fun _ s hdepth hP => ⟨hdepth, hP.asleep⟩
  | succ fuel ih =>
    match bevts, hb, ih with
    | [], _, _ => exact fun _ s hdepth hP => ⟨hdepth, hP.asleep⟩
    | [bevt], hb, _ => exact syncOnBEvt_triple (hb bevt (mem_singleton_self bevt)) _
    | b₁ :: b₂ :: bevts, hb, ih =>
      rw [syncOnBEvts]
      · refine (ext_triple _ [] hb (by simp)).bind fun fs => Triple.of_fact fun hfs => ?_
        cases fs with
        | inl doitFns =>
          refine (doSomeDoit_triple _ doitFns hfs).bind fun r => ?_
          cases r with
          | none => exact ih
          | some v => exact Triple.ret v fun _ h => h
        | inr blockFns =>
          exact fun w s hdepth hP => blockLoop_triple blockFns hfs none _ w _ hdepth hP
      all_goals simp

/-- Every synchronisation is one that `Sync` describes. -/
theorem sSync_sync (w : Races B V) (e : Expr B V ε) (fuel : ℕ) :
    Sync (sSync e.denote fuel w (St.init ε)).2.trace (sSync e.denote fuel w (St.init ε)).1 := by
  have h := (syncOnBEvts_triple _ (force_denote_lawful e) fuel w (St.init ε) rfl
    (.inl .nil)).2
  unfold sSync
  generalize syncOnBEvts (force e.denote) fuel w (St.init ε) = out at h
  obtain ⟨r, s⟩ := out
  cases r with
  | val v => exact h
  | raise x => exact h
  | asleep => exact h

/-! ### What the handlers see -/

/-- Every handler is applied to an exception that a user function has raised after a commit. -/
def Justified (t : List (Obs ε)) : Prop :=
  ∀ x past, .handle x :: past <:+ t →
    ∃ e q, x = .user e ∧ .raised e :: q <:+ past ∧ Obs.commit ∈ q

/-- Every failed commit is retried at once. -/
def Retried (t : List (Obs ε)) : Prop :=
  ∀ b past, .fail b :: past <:+ t → .retry :: .fail b :: past <:+ t

def Obs.isCommit : Obs ε → Bool
  | .commit => true
  | _ => false

theorem Justified.cons {o : Obs ε} (h : Justified t)
    (ho : ∀ x, o ≠ .handle x) : Justified (o :: t) := by
  intro x past hs
  rcases suffix_cons_iff.mp hs with heq | hs
  · exact absurd (List.cons.inj heq).1.symm (ho x)
  · exact h x past hs

theorem Retried.cons {o : Obs ε} (h : Retried t) (ho : ∀ b, o ≠ .fail b) : Retried (o :: t) := by
  intro b past hs
  rcases suffix_cons_iff.mp hs with heq | hs
  · exact absurd (List.cons.inj heq).1.symm (ho b)
  · exact (h b past hs).trans (suffix_cons _ _)

theorem Attempts.justified (h : Attempts t) : Justified t := by
  induction h with
  | nil => simp [Justified]
  | retry _ ih => exact (ih.cons (by simp)).cons (by simp)

theorem Attempts.retried (h : Attempts t) : Retried t := by
  induction h with
  | nil => simp [Retried]
  | @retry t _ ih =>
    intro b past hs
    rcases suffix_cons_iff.mp hs with heq | hs
    · exact absurd (List.cons.inj heq).1 (by simp)
    rcases suffix_cons_iff.mp hs with heq | hs
    · rw [heq]
    · exact (ih b past hs).trans ((suffix_cons _ _).trans (suffix_cons _ _))

theorem Attempts.countP (h : Attempts t) : t.countP Obs.isCommit = 0 := by
  induction h with
  | nil => rfl
  | retry _ ih => simpa [Obs.isCommit] using ih

theorem Attempts.not_inside (h : Attempts t) (φ : Failure) : φ.obs true ∉ t := by
  induction h with
  | nil => simp
  | retry _ ih => cases φ <;> simpa [Failure.obs] using ih

theorem Tail.raised_head {e : ε} (h : Tail (V := V) u (.raise (.user e))) :
    ∃ u', u = .raised e :: u' := by
  cases h with
  | raised _ _ | reraised _ _ => exact ⟨_, rfl⟩

/-- After a commit a handler sees the exception that has been raised last. -/
theorem Tail.justified {u t : List (Obs ε)} (h : Tail u r) (ht : Justified t) :
    Justified (u ++ .commit :: t) := by
  -- applied to an exception of a committed event
  have handle : ∀ {u e}, Tail (V := V) u (.raise (.user e)) → Justified (u ++ .commit :: t) →
      Justified (.handle (.user e) :: (u ++ .commit :: t)) := by
    intro u e hu hj x past hs
    rcases suffix_cons_iff.mp hs with heq | hs
    · obtain ⟨hx, rfl⟩ := List.cons.inj heq
      obtain ⟨u', rfl⟩ := hu.raised_head
      exact ⟨e, u' ++ .commit :: t, by simpa using hx, suffix_refl _, by simp⟩
    · exact hj x past hs
  induction h with
  | committed v => exact ht.cons (by simp)
  | wrapped v' _ ih => exact ih
  | raised e _ ih => exact ih.cons (by simp)
  | handled v hu ih => exact handle hu ih
  | reraised e' hu ih => exact (handle hu ih).cons (by simp)

theorem Tail.retried {u t : List (Obs ε)} (h : Tail u r) (ht : Retried t) :
    Retried (u ++ .commit :: t) := by
  induction h with
  | committed v => exact ht.cons (by simp)
  | wrapped v' _ ih => exact ih
  | raised e _ ih | handled v _ ih => exact ih.cons (by simp)
  | reraised e' _ ih => exact (ih.cons (by simp)).cons (by simp)

theorem Tail.countP (h : Tail u r) : u.countP Obs.isCommit = 0 := by
  induction h with
  | committed v => rfl
  | wrapped v' _ ih => exact ih
  | raised e _ ih | handled v _ ih | reraised e' _ ih => simpa [Obs.isCommit] using ih

theorem Tail.not_inside (h : Tail u r) (φ : Failure) : φ.obs true ∉ u := by
  induction h with
  | committed v => simp
  | wrapped v' _ ih => exact ih
  | raised e _ ih | handled v _ ih | reraised e' _ ih => cases φ <;> simpa [Failure.obs] using ih

/-- The three parts of the law. -/
structure SeesCommitted (t : List (Obs ε)) (r : Res ε V) : Prop where
  justified : Justified t
  retried : Retried t
  once : ∀ v, r = .val v → t.countP Obs.isCommit = 1

theorem Sync.seesCommitted (h : Sync t r) (hl : ¬ Leaked t) : SeesCommitted t r := by
  induction h with
  | unfinished h => exact ⟨h.justified, h.retried, by simp⟩
  | committed hu h =>
    refine ⟨hu.justified h.justified, hu.retried h.retried, fun v _ => ?_⟩
    rw [countP_append, hu.countP, countP_cons, h.countP]
    rfl
  | same _ ih =>
    have hl' := ih fun hl' => hl (hl'.append_left [_])
    exact ⟨hl'.justified.cons (by simp), hl'.retried.cons (by simp), by simp⟩
  | exited _ ih => exact ⟨(ih hl).justified, (ih hl).retried, by simp⟩
  | leaked h => exact absurd h hl

/-- A failure inside a `wrapHandler` leaks. -/
theorem Sync.leaked_of_inside (h : Sync t r) {φ : Failure} (hφ : φ.obs true ∈ t) : Leaked t := by
  induction h with
  | unfinished h => exact absurd hφ (h.not_inside φ)
  | committed hu h =>
    rcases mem_append.mp hφ with hφ | hφ
    · exact absurd hφ (hu.not_inside φ)
    · refine absurd ?_ (h.not_inside φ)
      cases φ <;> simpa [Failure.obs] using hφ
  | same _ ih =>
    refine (ih ?_).append_left [_]
    cases φ <;> simpa [Failure.obs] using hφ
  | exited _ ih => exact ih hφ
  | leaked h => exact h

theorem Leaked.not_justified (h : Leaked t) : ¬ Justified t := by
  obtain ⟨φ, -, hφ⟩ := h
  obtain ⟨later, past, rfl⟩ := append_of_mem hφ
  intro hj
  obtain ⟨e, -, he, -⟩ := hj _ past (suffix_append _ _)
  cases φ <;> cases he

/-- **Handlers see only exceptions of committed events, failed commits are retried and a value is
returned for exactly one commit** in exactly those runs in which no base event fails inside a
`wrapHandler`. -/
theorem wrapHandler_sees_committed_iff (w : Races B V) (e : Expr B V ε) (fuel : ℕ) :
    SeesCommitted (sSync e.denote fuel w (St.init ε)).2.trace
        (sSync e.denote fuel w (St.init ε)).1 ↔
      .fail true ∉ (sSync e.denote fuel w (St.init ε)).2.trace ∧
        .same true ∉ (sSync e.denote fuel w (St.init ε)).2.trace := by
  have hsync := sSync_sync w e fuel
  generalize sSync e.denote fuel w (St.init ε) = out at hsync
  constructor
  · intro h
    exact ⟨fun hfail => (hsync.leaked_of_inside (φ := .doit) hfail).not_justified h.justified,
      fun hsame => (hsync.leaked_of_inside (φ := .block) hsame).not_justified h.justified⟩
  · rintro ⟨hfail, hsame⟩
    refine hsync.seesCommitted ?_
    rintro ⟨φ, hφ, -⟩
    cases φ with
    | doit => exact hfail hφ
    | block => exact hsame hφ

/-- A handler that returns `0`. -/
def zeroHandler : Handler Unit ℕ := ⟨fun _ => .ok 0, by simp⟩

/-- The event is enabled when it is polled, and another thread commits it first. -/
def lostRace : Races Unit ℕ where
  poll _ _ := some 0
  doit _ _ := none
  block _ _ := .asleep
  pick _ := 0
  finish _ := []

/-- The handler catches `DOIT_FAIL`: the synchronisation is not retried and returns without a
commit. -/
theorem wrapHandler_catches_doit_fail :
    (sSync (Expr.wrapHandler (.base ()) zeroHandler).denote 1 lostRace (St.init Unit)).1 =
        .val 0 ∧
      (sSync (Expr.wrapHandler (.base ()) zeroHandler).denote 1 lostRace (St.init Unit)).2.trace =
        [.handle .DOIT_FAIL, .fail true] ∧
      ¬ SeesCommitted
        (sSync (Expr.wrapHandler (.base ()) zeroHandler).denote 1 lostRace (St.init Unit)).2.trace
        (sSync (Expr.wrapHandler (.base ()) zeroHandler).denote 1 lostRace (St.init Unit)).1 := by
  refine ⟨rfl, rfl, fun h => ?_⟩
  have := h.once 0 rfl
  simp [show (sSync (Expr.wrapHandler (.base ()) zeroHandler).denote 1 lostRace
    (St.init Unit)).2.trace = [.handle .DOIT_FAIL, .fail true] from rfl, Obs.isCommit] at this

end MultiMLton.Event
