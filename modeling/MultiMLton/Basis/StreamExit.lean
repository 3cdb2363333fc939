import Mathlib.Tactic

/-!
# Streams at exit

The lists `closeAtExits` and `openOutstreams` of `StreamIOExtraFile` in `io/stream-io.fun`, and the
two cleaners that go through them at exit. A stream is known by its reference, `tail` of an instream
and `state` of an outstream; what its reader or writer does is given with each call.

* `Exact`: the lists hold the streams still open;
* `ExitExact`: the cleaners close or flush each of them once, and no other;
* `exact_run`: in runs where instreams are closed only while `closeAtExits` is empty; there `closeIn`
  keeps the wrong part of the list (`closeIn_exact_iff`).
-/

namespace MultiMLton.Basis.StreamExit

open List

/-- An instream: how it was opened, and if `!(!tail)` is `Closed`. -/
structure Instream where
  closeAtExit : Bool
  closed : Bool
  deriving DecidableEq

/-- An outstream: how it was opened, and if its state is `Closed`. -/
structure Outstream where
  closeAtExit : Bool
  closed : Bool
  deriving DecidableEq

/-- The streams by their references, and the lists. -/
structure State where
  ins : List Instream
  outs : List Outstream
  closeAtExits : List ℕ
  openOutstreams : List (ℕ × Bool)
  deriving DecidableEq

/-- What is done to the reader or the writer of a stream. -/
inductive Event
  | closeReader (i : ℕ)
  | flush (i : ℕ)
  | closeWriter (i : ℕ)
  deriving DecidableEq

/-- Does a function of the reader or of the writer return? -/
structure World where
  closeReader : ℕ → Bool
  flush : ℕ → Bool
  closeWriter : ℕ → Bool

/-- Nothing raises an exception. -/
def World.Returns (w : World) : Prop :=
  ∀ i, w.closeReader i = true ∧ w.flush i = true ∧ w.closeWriter i = true

/-- What has been done, the state then, and if no exception was raised. -/
abbrev Result := List Event × State × Bool

section Code

variable (w : World)

/-! ### Instreams -/

/-- `mkInstream''` -/
def mkInstream'' (closeAtExit closed : Bool) (s : State) : State :=
  let ins := s.ins ++ [⟨closeAtExit, closed⟩]
  if closed || !closeAtExit then { s with ins := ins }
  else { s with ins := ins, closeAtExits := s.ins.length :: s.closeAtExits }

/-- `Close.close` -/
def Close.close (i : ℕ) (s : State) : Result :=
  match s.ins[i]? with
  | some ⟨closeAtExit, false⟩ =>
    ([.closeReader i], { s with ins := s.ins.set i ⟨closeAtExit, true⟩ }, w.closeReader i)
  | _ => ([], s, true)

/-- `Close.equalsInstream` -/
def Close.equalsInstream (c i : ℕ) : Bool := c = i

def closeIn (i : ℕ) (s : State) : Result :=
  Close.close w i
    { s with closeAtExits := s.closeAtExits.filter fun c => Close.equalsInstream c i }

/-! ### Outstreams -/

/-- `mkOutstream''` -/
def mkOutstream'' (closeAtExit closed : Bool) (s : State) : State :=
  let outs := s.outs ++ [⟨closeAtExit, closed⟩]
  if closed then { s with outs := outs }
  else { s with outs := outs, openOutstreams := (s.outs.length, closeAtExit) :: s.openOutstreams }

/-- `flushOut` of `StreamIO` -/
def flushOut (i : ℕ) (s : State) : Result :=
  match s.outs[i]? with
  | some ⟨_, false⟩ => ([.flush i], s, w.flush i)
  | _ => ([], s, true)

/-- `closeOut` of `StreamIO` -/
def StreamIO.closeOut (i : ℕ) (s : State) : Result :=
  match s.outs[i]? with
  | some ⟨closeAtExit, false⟩ =>
    if w.flush i then
      if w.closeWriter i then
        ([.flush i, .closeWriter i], { s with outs := s.outs.set i ⟨closeAtExit, true⟩ }, true)
      else ([.flush i, .closeWriter i], s, false)
    else ([.flush i], s, false)
  | _ => ([], s, true)

/-- `equalsOut` -/
def equalsOut (i j : ℕ) : Bool := i = j

def closeOut (i : ℕ) (s : State) : Result :=
  StreamIO.closeOut w i
    { s with openOutstreams := s.openOutstreams.filter fun p => !equalsOut i p.1 }

/-! ### The cleaners -/

/-- `List.app`, which an exception ends. -/
def app {α : Type} (f : α → State → Result) : List α → State → Result
  | [], s => ([], s, true)
  | a :: as, s =>
    match f a s with
    | (es, s, true) => let (es', r) := app f as s; (es ++ es', r)
    | (es, s, false) => (es, s, false)

/-- The cleaner that `mkOutstream''` has added. -/
def cleanOut (s : State) : Result :=
  app (fun p => if p.2 then StreamIO.closeOut w p.1 else flushOut w p.1) s.openOutstreams s

/-- The cleaner that `mkInstream''` has added. -/
def cleanIn (s : State) : Result := app (Close.close w) s.closeAtExits s

/-- `Cleaner.clean` on both, the one that was added last comes first. -/
def clean (s : State) : List Event :=
  let (es, s, _) := cleanIn w s
  es ++ (cleanOut w s).1

end Code

/-! ### Runs -/

inductive Op
  | mkIn (closeAtExit closed : Bool)
  | closeIn (i : ℕ)
  | mkOut (closeAtExit closed : Bool)
  | closeOut (i : ℕ)
  deriving DecidableEq

/-- A call, with what the reader or writer does then. -/
def step (w : World) : Op → State → State
  | .mkIn closeAtExit closed, s => mkInstream'' closeAtExit closed s
  | .closeIn i, s => (closeIn w i s).2.1
  | .mkOut closeAtExit closed, s => mkOutstream'' closeAtExit closed s
  | .closeOut i, s => (closeOut w i s).2.1

def init : State := ⟨[], [], [], []⟩

/-- The state after some calls. -/
def run (cs : List (World × Op)) : State := cs.foldl (fun s c => step c.1 c.2 s) init

@[simp] theorem run_concat (cs : List (World × Op)) (c : World × Op) :
    run (cs ++ [c]) = step c.1 c.2 (run cs) := by
  simp [run]

/-! ### What the lists should hold -/

/-- The instream is open and to be closed at exit. -/
def State.InOpen (s : State) (i : ℕ) : Prop := s.ins[i]? = some ⟨true, false⟩

/-- The outstream is open; `b` if it is to be closed at exit. -/
def State.OutOpen (s : State) (i : ℕ) (b : Bool) : Prop := s.outs[i]? = some ⟨b, false⟩

/-- The lists hold exactly the streams that are open, each once. -/
structure Exact (s : State) : Prop where
  nodup_in : s.closeAtExits.Nodup
  mem_in : ∀ i, i ∈ s.closeAtExits ↔ s.InOpen i
  nodup_out : (s.openOutstreams.map Prod.fst).Nodup
  mem_out : ∀ i b, (i, b) ∈ s.openOutstreams ↔ s.OutOpen i b

/-- The cleaners close or flush exactly the streams that are open, each once. -/
structure ExitExact (w : World) (s : State) : Prop where
  nodup : (clean w s).Nodup
  closeReader : ∀ i, .closeReader i ∈ clean w s ↔ s.InOpen i
  flush : ∀ i, .flush i ∈ clean w s ↔ ∃ b, s.OutOpen i b
  closeWriter : ∀ i, .closeWriter i ∈ clean w s ↔ s.OutOpen i true

/-- The calls that keep the lists exact: an instream is closed only when none is to be closed at
exit, and no writer raises an exception when it is closed. -/
def Fits (w : World) (s : State) : Op → Prop
  | .closeIn _ => s.closeAtExits = []
  | .closeOut i => w.flush i = true ∧ w.closeWriter i = true
  | _ => True

/-! ### The lists -/

section Lists

variable {w : World} {s : State} {i : ℕ}

theorem getElem?_set_open {α : Type} {xs : List α} {i j : ℕ} {x y : α} (hne : x ≠ y) :
    (xs.set i x)[j]? = some y ↔ xs[j]? = some y ∧ j ≠ i := by
  rw [getElem?_set]
  split_ifs with heq hlt
  · exact iff_of_false (fun h => hne (Option.some.inj h)) fun h => h.2 heq.symm
  · exact iff_of_false (fun h => by cases h) fun h => h.2 heq.symm
  · exact (and_iff_left (Ne.symm heq)).symm

theorem exact_init : Exact init :=
  ⟨nodup_nil, fun i => by simp [init, State.InOpen], nodup_nil,
    fun i b => by simp [init, State.OutOpen]⟩

/-- Opening a stream adds a reference that no stream had. -/
theorem getElem?_concat {α : Type} {xs : List α} {x y : α} {j : ℕ} :
    (xs ++ [x])[j]? = some y ↔ xs[j]? = some y ∨ j = xs.length ∧ x = y := by
  rcases lt_trichotomy j xs.length with hlt | rfl | hlt
  · rw [getElem?_append_left hlt]
    exact (or_iff_left fun h => hlt.ne h.1).symm
  · simp
  · rw [getElem?_eq_none (by simpa using hlt), getElem?_eq_none hlt.le]
    exact iff_of_false (fun h => by cases h) (not_or.2 ⟨fun h => (by cases h), fun h => hlt.ne' h.1⟩)

theorem Exact.mkIn (h : Exact s) (closeAtExit closed : Bool) :
    Exact (mkInstream'' closeAtExit closed s) := by
  have hnew : s.ins.length ∉ s.closeAtExits := fun hmem => by
    have := (List.getElem?_eq_some_iff.1 ((h.mem_in _).1 hmem)).1
    omega
  unfold mkInstream''
  dsimp only
  split_ifs with hkeep
  · refine ⟨h.nodup_in, fun i => (h.mem_in i).trans ?_, h.nodup_out, h.mem_out⟩
    refine ((getElem?_concat).trans (or_iff_left ?_)).symm
    rintro ⟨-, heq⟩
    cases heq
    simp at hkeep
  · refine ⟨List.nodup_cons.2 ⟨hnew, h.nodup_in⟩, fun i => ?_, h.nodup_out, h.mem_out⟩
    simp only [Bool.or_eq_true, Bool.not_eq_true', not_or, Bool.not_eq_true, Bool.not_eq_false] at hkeep
    rw [List.mem_cons, h.mem_in, or_comm, hkeep.1, hkeep.2]
    exact ((getElem?_concat).trans (by simp [State.InOpen])).symm

theorem Exact.mkOut (h : Exact s) (closeAtExit closed : Bool) :
    Exact (mkOutstream'' closeAtExit closed s) := by
  have hnew : s.outs.length ∉ s.openOutstreams.map Prod.fst := fun hmem => by
    obtain ⟨⟨i, b⟩, hp, hi⟩ := List.mem_map.1 hmem
    have := (List.getElem?_eq_some_iff.1 ((h.mem_out i b).1 hp)).1
    simp only at hi
    omega
  unfold mkOutstream''
  dsimp only
  split_ifs with hclosed
  · refine ⟨h.nodup_in, h.mem_in, h.nodup_out, fun i b => (h.mem_out i b).trans ?_⟩
    refine ((getElem?_concat).trans (or_iff_left ?_)).symm
    rintro ⟨-, heq⟩
    cases heq
    cases hclosed
  · refine ⟨h.nodup_in, h.mem_in, List.nodup_cons.2 ⟨hnew, h.nodup_out⟩, fun i b => ?_⟩
    have hclosed : closed = false := by simpa using hclosed
    rw [List.mem_cons, h.mem_out, or_comm, hclosed, Prod.mk.injEq]
    exact ((getElem?_concat).trans (by simp [State.OutOpen, eq_comm])).symm

/-- Closing an outstream takes it off the list. -/
theorem Exact.closeOut (h : Exact s) (hflush : w.flush i = true) (hclose : w.closeWriter i = true) :
    Exact (closeOut w i s).2.1 := by
  have hmem (j : ℕ) (b : Bool) :
      (j, b) ∈ s.openOutstreams.filter (fun p => !equalsOut i p.1) ↔ s.OutOpen j b ∧ j ≠ i := by
    rw [mem_filter, h.mem_out, equalsOut, Bool.not_eq_true', decide_eq_false_iff_not,
      ne_comm]
  have hnodup : ((s.openOutstreams.filter fun p => !equalsOut i p.1).map Prod.fst).Nodup :=
    (filter_sublist.map _).nodup h.nodup_out
  unfold StreamExit.closeOut StreamIO.closeOut
  dsimp only
  split
  · rename_i closeAtExit hopen
    rw [if_pos hflush, if_pos hclose]
    exact ⟨h.nodup_in, h.mem_in, hnodup, fun j b => (hmem j b).trans
      (getElem?_set_open (by simp)).symm⟩
  · rename_i hnot
    refine ⟨h.nodup_in, h.mem_in, hnodup, fun j b => (hmem j b).trans (and_iff_left_of_imp ?_)⟩
    rintro hopen rfl
    exact hnot b hopen

/-- What `closeIn` does to the streams: one of them is no longer open. -/
theorem closeIn_inOpen (j : ℕ) :
    (closeIn w i s).2.1.InOpen j ↔ s.InOpen j ∧ j ≠ i := by
  unfold closeIn Close.close State.InOpen
  dsimp only
  split
  · exact getElem?_set_open (by simp)
  · rename_i hnot
    refine (and_iff_left_of_imp ?_).symm
    rintro hopen rfl
    exact hnot true hopen

theorem closeIn_closeAtExits :
    (closeIn w i s).2.1.closeAtExits = s.closeAtExits.filter (· = i) := by
  unfold closeIn Close.close
  dsimp only
  split <;> rfl

theorem closeIn_outs : (closeIn w i s).2.1.outs = s.outs ∧
    (closeIn w i s).2.1.openOutstreams = s.openOutstreams := by
  unfold closeIn Close.close
  dsimp only
  split <;> exact ⟨rfl, rfl⟩

/-- Closing an instream keeps the lists exact where there is nothing to be closed at exit, and only
there: `closeIn` keeps the stream that it closes and drops the others. -/
theorem closeIn_exact_iff (h : Exact s) : Exact (closeIn w i s).2.1 ↔ s.closeAtExits = [] := by
  constructor
  · intro hexact
    refine eq_nil_iff_forall_not_mem.2 fun j hj => ?_
    have hmem := hexact.mem_in j
    rw [closeIn_closeAtExits, closeIn_inOpen, mem_filter, ← h.mem_in] at hmem
    by_cases hji : j = i
    · exact (hmem.1 ⟨hj, by simp [hji]⟩).2 hji
    · exact hji (by simpa using (hmem.2 ⟨hj, hji⟩).2)
  · intro hnil
    have hnone (j : ℕ) : ¬s.InOpen j := fun hopen => by
      have := (h.mem_in j).2 hopen
      rw [hnil] at this
      cases this
    obtain ⟨houts, hopen⟩ := closeIn_outs (w := w) (s := s) (i := i)
    refine ⟨?_, fun j => ?_, ?_, fun j b => ?_⟩
    · rw [closeIn_closeAtExits, hnil]
      exact nodup_nil
    · rw [closeIn_closeAtExits, hnil, closeIn_inOpen]
      exact iff_of_false not_mem_nil fun hin => hnone j hin.1
    · rw [hopen]
      exact h.nodup_out
    · rw [hopen, State.OutOpen, houts]
      exact h.mem_out j b

theorem Exact.step {op : Op} (h : Exact s) (hfits : Fits w s op) : Exact (step w op s) := by
  cases op with
  | mkIn closeAtExit closed => exact h.mkIn closeAtExit closed
  | closeIn i => exact (closeIn_exact_iff h).2 hfits
  | mkOut closeAtExit closed => exact h.mkOut closeAtExit closed
  | closeOut i => exact h.closeOut hfits.1 hfits.2

end Lists

/-! ### Exit -/

section Exit

variable {w : World} {s : State}

theorem cleanIn_eq (hw : w.Returns) {cs : List ℕ} (hnodup : cs.Nodup)
    (hopen : ∀ i ∈ cs, s.InOpen i) :
    (app (Close.close w) cs s).1 = cs.map .closeReader ∧
      (app (Close.close w) cs s).2.1.outs = s.outs ∧
      (app (Close.close w) cs s).2.1.openOutstreams = s.openOutstreams := by
  induction cs generalizing s with
  | nil => exact ⟨rfl, rfl, rfl⟩
  | cons i cs ih =>
    obtain ⟨hnew, hnodup⟩ := List.nodup_cons.1 hnodup
    obtain ⟨hi, hcs⟩ := forall_mem_cons.1 hopen
    have hclose : Close.close w i s =
        ([.closeReader i], { s with ins := s.ins.set i ⟨true, true⟩ }, true) := by
      unfold State.InOpen at hi
      rw [Close.close, hi]
      exact congrArg _ (congrArg _ (hw i).1)
    have hrest := ih (s := { s with ins := s.ins.set i ⟨true, true⟩ }) hnodup fun j hj =>
      (getElem?_set_open (by simp)).2 ⟨hcs j hj, fun heq => hnew (heq ▸ hj)⟩
    rw [app, hclose]
    exact ⟨congrArg _ hrest.1, hrest.2⟩

/-- What is done to an outstream at exit. -/
def cleanOutEvents (p : ℕ × Bool) : List Event :=
  if p.2 then [.flush p.1, .closeWriter p.1] else [.flush p.1]

theorem cleanOut_eq (hw : w.Returns) {ps : List (ℕ × Bool)} (hnodup : (ps.map Prod.fst).Nodup)
    (hopen : ∀ p ∈ ps, s.OutOpen p.1 p.2) :
    (app (fun p => if p.2 then StreamIO.closeOut w p.1 else flushOut w p.1) ps s).1 =
      ps.flatMap cleanOutEvents := by
  induction ps generalizing s with
  | nil => rfl
  | cons p ps ih =>
    obtain ⟨i, b⟩ := p
    rw [map_cons] at hnodup
    obtain ⟨hnew, htail⟩ := List.nodup_cons.1 hnodup
    obtain ⟨hi, hps⟩ := forall_mem_cons.1 hopen
    unfold State.OutOpen at hi
    rw [app]
    cases b with
    | false =>
      have hflush : flushOut w i s = ([.flush i], s, true) := by
        rw [flushOut, hi]
        exact congrArg _ (congrArg _ (hw i).2.1)
      rw [if_neg Bool.false_ne_true, hflush]
      exact congrArg _ (ih htail hps)
    | true =>
      have hclose : StreamIO.closeOut w i s = ([.flush i, .closeWriter i],
          { s with outs := s.outs.set i ⟨true, true⟩ }, true) := by
        rw [ StreamIO.closeOut, hi]
        dsimp only
        rw [if_pos (hw i).2.1, if_pos (hw i).2.2]
      have hrest := ih (s := { s with outs := s.outs.set i ⟨true, true⟩ }) htail fun q hq =>
        (getElem?_set_open (by simp)).2 ⟨hps q hq, fun heq => hnew (List.mem_map.2 ⟨q, hq, heq⟩)⟩
      rw [if_pos rfl, hclose]
      exact congrArg ([.flush i, .closeWriter i] ++ ·) hrest

theorem Exact.clean_eq (h : Exact s) (hw : w.Returns) :
    clean w s = s.closeAtExits.map .closeReader ++ s.openOutstreams.flatMap cleanOutEvents := by
  obtain ⟨hin, houts, hlist⟩ := cleanIn_eq hw h.nodup_in fun i hi => (h.mem_in i).1 hi
  have hout := cleanOut_eq (s := (cleanIn w s).2.1) hw h.nodup_out fun p hp => by
    rw [State.OutOpen, cleanIn, houts]
    exact (h.mem_out p.1 p.2).1 hp
  unfold clean
  dsimp only
  rw [cleanOut, show (cleanIn w s).2.1.openOutstreams = s.openOutstreams from hlist, hout,
    show (cleanIn w s).1 = _ from hin]

theorem Exact.exitExact (h : Exact s) (hw : w.Returns) : ExitExact w s := by
  have hflush (i : ℕ) : .flush i ∈ s.openOutstreams.flatMap cleanOutEvents ↔ ∃ b, s.OutOpen i b := by
    rw [mem_flatMap]
    constructor
    · rintro ⟨⟨j, b⟩, hp, hmem⟩
      have hij : i = j := by
        cases b
        · simpa [cleanOutEvents] using hmem
        · simpa [cleanOutEvents] using hmem
      subst hij
      exact ⟨b, (h.mem_out i b).1 hp⟩
    · rintro ⟨b, hopen⟩
      exact ⟨(i, b), (h.mem_out i b).2 hopen, by cases b <;> simp [cleanOutEvents]⟩
  have hclose (i : ℕ) : .closeWriter i ∈ s.openOutstreams.flatMap cleanOutEvents ↔
      s.OutOpen i true := by
    rw [mem_flatMap]
    constructor
    · rintro ⟨⟨j, b⟩, hp, hmem⟩
      cases b with
      | false => simp [cleanOutEvents] at hmem
      | true =>
        obtain rfl : i = j := by simpa [cleanOutEvents] using hmem
        exact (h.mem_out i true).1 hp
    · intro hopen
      exact ⟨(i, true), (h.mem_out i true).2 hopen, by simp [cleanOutEvents]⟩
  have hreader (i : ℕ) : .closeReader i ∉ s.openOutstreams.flatMap cleanOutEvents := by
    rw [mem_flatMap]
    rintro ⟨⟨j, b⟩, -, hmem⟩
    cases b <;> simp [cleanOutEvents] at hmem
  have hclean := h.clean_eq hw
  refine ⟨?_, fun i => ?_, fun i => ?_, fun i => ?_⟩ <;> rw [hclean]
  · refine List.Nodup.append (h.nodup_in.map fun i j heq => by cases heq; rfl) ?_ ?_
    · refine nodup_flatMap.2 ⟨?_, ?_⟩
      · rintro ⟨j, b⟩ -
        cases b <;> simp [cleanOutEvents]
      · refine (pairwise_map.1 h.nodup_out).imp ?_
        rintro ⟨i, b⟩ ⟨j, c⟩ hne
        cases b <;> cases c <;> simp_all [Function.onFun, cleanOutEvents, List.Disjoint]
    · intro e he
      obtain ⟨i, -, rfl⟩ := List.mem_map.1 he
      exact hreader i
  · rw [mem_append, or_iff_left (hreader i), mem_map_of_injective fun i j heq => by
      cases heq; rfl, h.mem_in]
  · rw [mem_append, hflush, or_iff_right]
    simp
  · rw [mem_append, hclose, or_iff_right]
    simp

/-- **Stream bookkeeping at exit**: in every run whose calls fit, the lists are exact at every
moment, and if nothing raises an exception then the cleaners treat every open stream once. -/
theorem exact_run {cs : List (World × Op)}
    (hcs : ∀ pre c, pre ++ [c] <+: cs → Fits c.1 (run pre) c.2) :
    ∀ pre, pre <+: cs → Exact (run pre) ∧ ∀ w : World, w.Returns → ExitExact w (run pre) := by
  suffices h : ∀ pre, pre <+: cs → Exact (run pre) from
    fun pre hpre => ⟨h pre hpre, fun _ hw => (h pre hpre).exitExact hw⟩
  intro pre hpre
  induction pre using List.reverseRecOn with
  | nil => exact exact_init
  | append_singleton pre c ih =>
    rw [run_concat]
    exact (ih ((List.prefix_append pre [c]).trans hpre)).step (hcs pre c hpre)

end Exit

/-- Nothing raises an exception. -/
def quiet : World := ⟨fun _ => true, fun _ => true, fun _ => true⟩

/-- An instream that is not to be closed at exit is opened and closed, then two outstreams are opened
and one of them closed, and an instream is opened that is to be closed at exit. -/
theorem exact_run_two :
    let cs := [(quiet, .mkIn false false), (quiet, .closeIn 0), (quiet, .mkOut true false),
      (quiet, .mkOut false false), (quiet, .closeOut 0), (quiet, .mkIn true false)]
    Exact (run cs) ∧ ∀ w : World, w.Returns → ExitExact w (run cs) := by
  refine exact_run (fun pre c hpre => ?_) _ List.prefix_rfl
  obtain ⟨post, hpost⟩ := hpre
  match pre, hpost with
  | [], h | [_, _], h | [_, _, _], h | [_, _, _, _, _], h => cases h; exact trivial
  | [_], h => cases h; rfl
  | [_, _, _, _], h => cases h; exact ⟨rfl, rfl⟩
  | _ :: _ :: _ :: _ :: _ :: _ :: _, h => simp at h

/-- Two instreams are opened and the second is closed: it stays on the list, and the first, still
open, is no longer there and is not closed at exit. -/
theorem closeIn_drops :
    (run [(quiet, .mkIn true false), (quiet, .mkIn true false), (quiet, .closeIn 1)]).closeAtExits =
      [1] ∧
    (run [(quiet, .mkIn true false), (quiet, .mkIn true false), (quiet, .closeIn 1)]).InOpen 0 ∧
    ¬Exact (run [(quiet, .mkIn true false), (quiet, .mkIn true false), (quiet, .closeIn 1)]) ∧
    ¬ExitExact quiet
      (run [(quiet, .mkIn true false), (quiet, .mkIn true false), (quiet, .closeIn 1)]) := by
  refine ⟨by decide, rfl, fun h => ?_, fun h => ?_⟩
  · exact absurd ((h.mem_in 0).2 rfl) (by decide)
  · exact absurd ((h.closeReader 0).2 rfl) (by decide)

end MultiMLton.Basis.StreamExit
