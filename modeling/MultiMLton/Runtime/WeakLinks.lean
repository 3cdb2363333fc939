import MultiMLton.Runtime.DfsExact

/-!
# What marking makes of weak objects

`dfsMarkByMode` puts the weak objects that it marks on the list `s->weaks`, if they have a target.
A visitor that writes down the objects it is called on does not change what marking does
(`step_forget`), and the links are those of the objects written down (`Linked.step`).  With the
search of `DfsSimulation` this says which objects are linked, and in which order.

* `linkAll`: the links after a list of objects has been linked;
* `dfsMarkByMode_visits`: a run on one root, in a heap where what is marked stays marked along the
  pointers that the run goes through.
-/

namespace MultiMLton.GC

open List Option Function

universe u

variable {w : ℕ} {σ : Type u}

open DfsMark

/-- The visitor of `o`, which also writes down the objects that it is called on. -/
def DfsOptions.logged (o : DfsOptions w σ) : DfsOptions w (σ × List ℕ) where
  f x header cur prev := (((o.f x.1 header cur prev).1, x.2 ++ [cur]), (o.f x.1 header cur prev).2)
  onStack := none
  mode := o.mode
  shouldHashCons := none
  shouldLinkWeaks := o.shouldLinkWeaks
  ignoreSharedHeap := o.ignoreSharedHeap
  sizeEstimationForLifting := o.sizeEstimationForLifting

namespace DfsMark

def State.forget (s : State w (σ × List ℕ)) : State w σ :=
  ⟨s.heap, s.weaks, s.aux.1, s.size, s.toContinue, s.label⟩

variable {g : Tables} {o : DfsOptions w σ}

section

variable {heap : Heap w} {weaks : ℕ} {aux : σ} {size : ℕ} {toContinue : Bool} {cur prev todo : ℕ}
  {objptrIndex : ℕ} {header : Header w}

/-- `markInNormal` without hash-consing. -/
theorem step_markInNormal (hhash : o.shouldHashCons = none) :
    step g o ⟨heap, weaks, aux, size, toContinue, .markInNormal cur prev header objptrIndex todo⟩ =
      if notFollowed g o ((heap cur).objptr todo) = true ∨
          o.mode.mark = (heap ((heap cur).objptr todo)).header &&& MARK_MASK then
        some ⟨heap, weaks, aux, size, toContinue,
          .markNextInNormal cur prev header objptrIndex todo⟩
      else some ⟨heap.setHeader cur (setCounter header objptrIndex), weaks, aux, size, toContinue,
        .markNext cur prev ((heap cur).objptr todo) (heap ((heap cur).objptr todo)).header
          todo⟩ := by
  simp only [step, shareObjptr, hhash, ite_or]

/-- `markInArray` without hash-consing. -/
theorem step_markInArray (hhash : o.shouldHashCons = none) {arrayIndex : ℕ} :
    step g o ⟨heap, weaks, aux, size, toContinue,
        .markInArray cur prev header arrayIndex objptrIndex todo⟩ =
      if notFollowed g o ((heap cur).objptr todo) = true ∨
          o.mode.mark = (heap ((heap cur).objptr todo)).header &&& MARK_MASK then
        some ⟨heap, weaks, aux, size, toContinue,
          .markNextInArray cur prev header arrayIndex objptrIndex todo⟩
      else some ⟨(heap.modify cur fun ob => { ob with arrayCounter := arrayIndex }).setHeader cur
          (setCounter header objptrIndex), weaks, aux, size, toContinue,
        .markNext cur prev ((heap cur).objptr todo) (heap ((heap cur).objptr todo)).header
          todo⟩ := by
  simp only [step, shareObjptr, hhash, ite_or]

/-- `markInFrame` without hash-consing. -/
theorem step_markInFrame (hhash : o.shouldHashCons = none) {top : ℕ} {frameLayout : FrameLayout} :
    step g o ⟨heap, weaks, aux, size, toContinue,
        .markInFrame cur prev top frameLayout objptrIndex⟩ =
      if objptrIndex = frameLayout.offsets.length then
        some ⟨heap, weaks, aux, size, toContinue, .markInStack cur prev (top - frameLayout.size)⟩
      else
        let todo := top - frameLayout.size + frameLayout.offsets.getD objptrIndex 0
        if (notFollowed g o ((heap cur).objptr todo)
            || (o.sizeEstimationForLifting && !(heap cur).isParasitic)) = true ∨
            o.mode.mark = (heap ((heap cur).objptr todo)).header &&& MARK_MASK then
          some ⟨heap, weaks, aux, size, toContinue,
            .markInFrame cur prev top frameLayout (objptrIndex + 1)⟩
        else some ⟨heap.modify cur fun ob => { ob with markIndex := objptrIndex }, weaks, aux, size,
          toContinue, .markNext cur prev ((heap cur).objptr todo)
            (heap ((heap cur).objptr todo)).header todo⟩ := by
  simp only [step, shareObjptr, hhash, ite_or]

end

theorem step_forget (hstack : o.onStack = none) (hhash : o.shouldHashCons = none)
    (s : State w (σ × List ℕ)) : step g o s.forget = (step g o.logged s).map State.forget := by
  obtain ⟨heap, weaks, aux, size, toContinue, label⟩ := s
  cases label
  case ret cur prev =>
    simp only [step, resume, State.forget]
    split_ifs
    · rfl
    · cases (splitHeader g (heap prev).header).tag <;> rfl
  case «return» => rfl
  case mark cur prev header =>
    by_cases hlink : (o.shouldLinkWeaks &&
        isPointer (heap.setHeader cur (header ^^^ MARK_MASK) cur).weakObjptr) = true
    all_goals
      simp only [step, State.forget, linkWeak, DfsOptions.logged, map_some, hlink]
      split_ifs <;> rfl
  case markInNormal cur prev header objptrIndex todo =>
    rw [State.forget, step_markInNormal hhash, step_markInNormal rfl,
      apply_ite (Option.map State.forget)]
    rfl
  case markInArray cur prev header arrayIndex objptrIndex todo =>
    rw [State.forget, step_markInArray hhash, step_markInArray rfl,
      apply_ite (Option.map State.forget)]
    rfl
  case markInFrame cur prev top frameLayout objptrIndex =>
    rw [State.forget, step_markInFrame hhash, step_markInFrame rfl,
      apply_ite (Option.map State.forget)]
    dsimp only
    rw [apply_ite (Option.map State.forget)]
    rfl
  case markNextInArray cur prev header arrayIndex objptrIndex todo =>
    simp only [step, State.forget, apply_ite (Option.map (@State.forget w σ)),
      map_some]
    rfl
  all_goals
    simp only [step, State.forget, done, DfsOptions.logged, hstack, hhash,
      apply_ite (Option.map (@State.forget w σ)), map_some]

theorem run_forget (hstack : o.onStack = none) (hhash : o.shouldHashCons = none) (fuel : ℕ)
    (s : State w (σ × List ℕ)) :
    run g o fuel s.forget = (run g o.logged fuel s).map State.forget := by
  induction fuel generalizing s with
  | zero => rfl
  | succ fuel ih =>
    rw [run, run, step_forget hstack hhash]
    cases step g o.logged s with
    | none => rfl
    | some s' => exact ih s'

/-! ### Links between weak objects -/

/-- `linkWeak` links the object. -/
def linksWeak (o : DfsOptions w σ) (ob : Obj w) (t : ObjectType) : Bool :=
  decide (t.tag = .weak) && (o.shouldLinkWeaks && isPointer ob.weakObjptr)

/-- The links after these objects have been linked, and the last one of them. -/
def linkAll : List ℕ → (ℕ → ℕ) × ℕ → (ℕ → ℕ) × ℕ
  | [], x => x
  | p :: ps, x => linkAll ps (Function.update x.1 p x.2, p)

theorem linkAll_append (l l' : List ℕ) (x : (ℕ → ℕ) × ℕ) :
    linkAll (l ++ l') x = linkAll l' (linkAll l x) := by
  induction l generalizing x with
  | nil => rfl
  | cons p l ih => exact ih _

theorem linkAll_of_notMem {l : List ℕ} {x : (ℕ → ℕ) × ℕ} {p : ℕ} (hp : p ∉ l) :
    (linkAll l x).1 p = x.1 p := by
  induction l generalizing x with
  | nil => rfl
  | cons q l ih =>
    rw [mem_cons, not_or] at hp
    obtain ⟨hpq, hpl⟩ := hp
    rw [linkAll, ih hpl]
    exact update_of_ne hpq _ _

/-- The list starts at an object that has been linked. -/
theorem linkAll_mem {l : List ℕ} (hl : l ≠ []) (x : (ℕ → ℕ) × ℕ) : (linkAll l x).2 ∈ l := by
  induction l generalizing x with
  | nil => exact absurd rfl hl
  | cons p l ih =>
    cases l with
    | nil => exact mem_singleton_self p
    | cons q l => exact mem_cons_of_mem p (ih (cons_ne_nil q l) _)

/-- Links between objects of `A`, when the list starts in `A`. -/
theorem linkAll_closed {A : ℕ → Prop} {l : List ℕ} (hl : ∀ p ∈ l, A p) {x : (ℕ → ℕ) × ℕ}
    (hx : A x.2) : A (linkAll l x).2 ∧ ∀ p ∈ l, A ((linkAll l x).1 p) := by
  induction l generalizing x with
  | nil => exact ⟨hx, nofun⟩
  | cons p l ih =>
    have hp : A p := hl p mem_cons_self
    obtain ⟨hlast, hall⟩ := ih (x := (Function.update x.1 p x.2, p))
      (fun q hq => hl q (mem_cons_of_mem p hq)) hp
    refine ⟨hlast, fun q hq => ?_⟩
    by_cases hmem : q ∈ l
    · exact hall q hmem
    · obtain rfl : q = p := (mem_cons.1 hq).resolve_right hmem
      rw [linkAll, linkAll_of_notMem hmem]
      simpa using hx

/-- The header that a label has is that of an object of the same type. -/
def Label.Typed (type : ℕ → ObjectType) (g : Tables) : Label w → Prop
  | .markNext _ _ next nextHeader _ => splitHeader g nextHeader = type next
  | .mark cur _ header => splitHeader g header = type cur
  | .markInNormal cur _ header _ _ => splitHeader g header = type cur
  | .markNextInNormal cur _ header _ _ => splitHeader g header = type cur
  | .markArrayElt cur _ header _ _ => splitHeader g header = type cur
  | .markInArray cur _ header _ _ _ => splitHeader g header = type cur
  | .markNextInArray cur _ header _ _ _ => splitHeader g header = type cur
  | _ => True

/-- What marking has made of the weak objects, given the objects that it has marked. -/
structure Linked (g : Tables) (o : DfsOptions w σ) (h₀ : Heap w) (weaks₀ : ℕ)
    (s : State w (σ × List ℕ)) : Prop where
  type : ∀ p, splitHeader g (s.heap p).header = splitHeader g (h₀ p).header
  weakObjptr : ∀ p, (s.heap p).weakObjptr = (h₀ p).weakObjptr
  label : s.label.Typed (fun p => splitHeader g (h₀ p).header) g
  chain : ((fun p => (s.heap p).weakLink), s.weaks) =
    linkAll (s.aux.2.filter fun p => linksWeak o (h₀ p) (splitHeader g (h₀ p).header))
      ((fun p => (h₀ p).weakLink), weaks₀)

variable {s s' : State w (σ × List ℕ)} {h₀ : Heap w}

/-- A step that marks nothing. -/
theorem Linked.quiet {weaks₀ : ℕ}
    (hs : Linked g o h₀ weaks₀ s) (hob : ∀ p, splitHeader g (s'.heap p).header =
      splitHeader g (s.heap p).header ∧ (s'.heap p).weakObjptr = (s.heap p).weakObjptr ∧
      (s'.heap p).weakLink = (s.heap p).weakLink) (hweaks : s'.weaks = s.weaks)
    (haux : s'.aux = s.aux) (hlabel : s'.label.Typed (fun p => splitHeader g (h₀ p).header) g) :
    Linked g o h₀ weaks₀ s' := by
  refine ⟨fun p => (hob p).1.trans (hs.type p), fun p => (hob p).2.1.trans (hs.weakObjptr p),
    hlabel, ?_⟩
  rw [haux, hweaks, ← hs.chain]
  congr 1
  funext p
  exact (hob p).2.2

/-- One object of a heap changes, in none of the fields that links are made of. -/
theorem quiet_modify (h : Heap w) (cur : ℕ) (f : Obj w → Obj w)
    (htype : splitHeader g (f (h cur)).header = splitHeader g (h cur).header)
    (hobjptr : (f (h cur)).weakObjptr = (h cur).weakObjptr)
    (hlink : (f (h cur)).weakLink = (h cur).weakLink) (p : ℕ) :
    splitHeader g (h.modify cur f p).header = splitHeader g (h p).header ∧
      (h.modify cur f p).weakObjptr = (h p).weakObjptr ∧
      (h.modify cur f p).weakLink = (h p).weakLink := by
  by_cases hp : p = cur
  · subst hp
    simp only [Heap.modify, update_self]
    exact ⟨htype, hobjptr, hlink⟩
  · simp only [Heap.modify, update_of_ne hp]
    exact ⟨trivial, trivial, trivial⟩

theorem weakLink_modify (h : Heap w) (cur x p : ℕ) :
    (h.modify cur (fun ob => { ob with weakLink := x }) p).header = (h p).header ∧
      (h.modify cur (fun ob => { ob with weakLink := x }) p).weakObjptr = (h p).weakObjptr ∧
      (h.modify cur (fun ob => { ob with weakLink := x }) p).weakLink =
        Function.update (fun q => (h q).weakLink) cur x p := by
  by_cases hp : p = cur
  · subst hp
    simp [Heap.modify]
  · simp [Heap.modify, hp]

/-- A step that marks an object. -/
theorem Linked.mark {weaks₀ : ℕ} {heap : Heap w} {weaks : ℕ} {aux : σ × List ℕ}
    {size : ℕ} {toContinue : Bool} {cur prev : ℕ} {header : Header w}
    (hs : Linked g o h₀ weaks₀ ⟨heap, weaks, aux, size, toContinue, .mark cur prev header⟩)
    {s' : State w (σ × List ℕ)}
    (hstep : DfsMark.step g o.logged ⟨heap, weaks, aux, size, toContinue, .mark cur prev header⟩ =
      some s') : Linked g o h₀ weaks₀ s' := by
  have hheader : splitHeader g (header ^^^ MARK_MASK) = splitHeader g (h₀ cur).header := by
    rw [splitHeader, typeIndex_xor_MARK_MASK]
    exact hs.label
  have hquiet := quiet_modify heap cur (fun ob => { ob with header := header ^^^ MARK_MASK })
    (hheader.trans (hs.type cur).symm) rfl rfl
  have hfilter :
      (aux.2 ++ [cur]).filter (fun p => linksWeak o (h₀ p) (splitHeader g (h₀ p).header)) =
      aux.2.filter (fun p => linksWeak o (h₀ p) (splitHeader g (h₀ p).header)) ++
        if linksWeak o (h₀ cur) (splitHeader g (h₀ cur).header) then [cur] else [] := by
    rw [filter_append, filter_cons, filter_nil]
  have hlabel (toContinue : Bool) : (afterMark g (heap cur) cur prev (header ^^^ MARK_MASK)
      toContinue).Typed (fun p => splitHeader g (h₀ p).header) g := by
    unfold afterMark
    split
    all_goals
      repeat' split_ifs
      all_goals trivial
  have hobjptr : (heap.setHeader cur (header ^^^ MARK_MASK) cur).weakObjptr = (h₀ cur).weakObjptr :=
    (hquiet cur).2.1.trans (hs.weakObjptr cur)
  have hchain := hs.chain
  -- the object is not linked
  have hkeep (hlinks : linksWeak o (h₀ cur) (splitHeader g (h₀ cur).header) = false) :
      Linked g o h₀ weaks₀ ⟨heap.setHeader cur (header ^^^ MARK_MASK), weaks,
        (o.logged.f aux (heap cur).header cur prev).1,
        size + bytesMarked g o.logged (heap cur) cur (splitHeader g (header ^^^ MARK_MASK)),
        (o.logged.f aux (heap cur).header cur prev).2,
        afterMark g (heap cur) cur prev (header ^^^ MARK_MASK)
          (o.logged.f aux (heap cur).header cur prev).2⟩ := by
    refine ⟨fun p => (hquiet p).1.trans (hs.type p),
      fun p => (hquiet p).2.1.trans (hs.weakObjptr p), hlabel _, ?_⟩
    rw [DfsOptions.logged, hfilter, hlinks, if_neg (by decide), append_nil, ← hchain]
    refine congrArg (·, weaks) ?_
    funext p
    exact (hquiet p).2.2
  cases hstep
  split_ifs with htag
  · rw [linkWeak]
    split_ifs with hlink
    · have hlinks : linksWeak o (h₀ cur) (splitHeader g (h₀ cur).header) = true := by
        rw [linksWeak, ← hheader, htag, ← hobjptr, decide_eq_true rfl, Bool.true_and]
        exact hlink
      have hlinked := weakLink_modify (heap.setHeader cur (header ^^^ MARK_MASK)) cur weaks
      refine ⟨fun p => ?_, fun p => ?_, hlabel _, ?_⟩
      · rw [(hlinked p).1]
        exact (hquiet p).1.trans (hs.type p)
      · rw [(hlinked p).2.1]
        exact (hquiet p).2.1.trans (hs.weakObjptr p)
      · rw [DfsOptions.logged, hfilter, hlinks, if_pos rfl, linkAll_append, ← hchain]
        refine congrArg (·, cur) ?_
        funext p
        rw [(hlinked p).2.2]
        congr 1
        funext q
        exact (hquiet q).2.2
    · refine hkeep ?_
      rw [linksWeak, ← hobjptr, Bool.and_eq_false_iff]
      exact Or.inr (Bool.eq_false_of_not_eq_true hlink)
  · refine hkeep ?_
    rw [linksWeak, ← hheader, decide_eq_false htag, Bool.false_and]

theorem modify_modify (h : Heap w) (cur : ℕ) (f f' : Obj w → Obj w) :
    (h.modify cur f).modify cur f' = h.modify cur fun ob => f' (f ob) := by
  simp [Heap.modify]

theorem Linked.step {weaks₀ : ℕ}
    (hs : Linked g o h₀ weaks₀ s) (hstep : DfsMark.step g o.logged s = some s') :
    Linked g o h₀ weaks₀ s' := by
  have hlabel := hs.label
  have htype := hs.type
  obtain ⟨heap, weaks, aux, size, toContinue, label⟩ := s
  have hcounter (cur : ℕ) (header : Header w) (c : ℕ)
      (hheader : splitHeader g header = splitHeader g (h₀ cur).header) :
      splitHeader g (setCounter header c) = splitHeader g (heap cur).header := by
    rw [htype cur, ← hheader, splitHeader, typeIndex_setCounter, splitHeader]
  have hclear (cur : ℕ) (header : Header w)
      (hheader : splitHeader g header = splitHeader g (h₀ cur).header) :
      splitHeader g (clearCounter header) = splitHeader g (heap cur).header := by
    rw [htype cur, ← hheader, splitHeader, typeIndex_clearCounter, splitHeader]
  cases label
  case markNext cur prev next nextHeader todo =>
    cases hstep
    exact hs.quiet (quiet_modify _ _ _ rfl rfl rfl) rfl rfl hlabel
  case mark cur prev header => exact hs.mark hstep
  case markInNormal cur prev header objptrIndex todo =>
    rw [step_markInNormal rfl] at hstep
    split_ifs at hstep
    · cases hstep
      exact hs.quiet (fun _ => ⟨rfl, rfl, rfl⟩) rfl rfl hlabel
    · cases hstep
      exact hs.quiet (quiet_modify _ _ _ (hcounter _ _ _ hlabel) rfl rfl) rfl rfl (htype _)
  case markNextInNormal cur prev header objptrIndex todo =>
    simp only [DfsMark.step] at hstep
    split_ifs at hstep
    · cases hstep
      exact hs.quiet (quiet_modify _ _ _ (hclear _ _ hlabel) rfl rfl) rfl rfl trivial
    · cases hstep
      exact hs.quiet (fun _ => ⟨rfl, rfl, rfl⟩) rfl rfl hlabel
  case normalDone cur prev | arrayDone cur prev =>
    cases hstep
    exact hs.quiet (fun _ => ⟨rfl, rfl, rfl⟩) rfl rfl trivial
  case markArrayElt cur prev header arrayIndex todo =>
    cases hstep
    exact hs.quiet (fun _ => ⟨rfl, rfl, rfl⟩) rfl rfl hlabel
  case markInArray cur prev header arrayIndex objptrIndex todo =>
    rw [step_markInArray rfl] at hstep
    split_ifs at hstep
    · cases hstep
      exact hs.quiet (fun _ => ⟨rfl, rfl, rfl⟩) rfl rfl hlabel
    · cases hstep
      refine hs.quiet (fun p => ?_) rfl rfl (htype _)
      rw [Heap.setHeader, modify_modify]
      exact quiet_modify heap cur (fun ob => { ob with
        arrayCounter := arrayIndex, header := setCounter header objptrIndex })
        (hcounter _ _ _ hlabel) rfl rfl p
  case markNextInArray cur prev header arrayIndex objptrIndex todo =>
    simp only [DfsMark.step] at hstep
    split_ifs at hstep
    · cases hstep
      exact hs.quiet (fun _ => ⟨rfl, rfl, rfl⟩) rfl rfl hlabel
    · cases hstep
      exact hs.quiet (fun _ => ⟨rfl, rfl, rfl⟩) rfl rfl hlabel
    · cases hstep
      refine hs.quiet (fun p => ?_) rfl rfl trivial
      rw [Heap.setHeader, modify_modify]
      exact quiet_modify heap cur (fun ob => { ob with
        arrayCounter := 0, header := clearCounter header }) (hclear _ _ hlabel) rfl rfl p
  case markInStack cur prev top =>
    simp only [DfsMark.step, DfsOptions.logged] at hstep
    split_ifs at hstep
    · cases hstep
      exact hs.quiet (fun _ => ⟨rfl, rfl, rfl⟩) rfl rfl trivial
    · cases hstep
      exact hs.quiet (fun _ => ⟨rfl, rfl, rfl⟩) rfl rfl trivial
    · cases hstep
      exact hs.quiet (quiet_modify _ _ _ rfl rfl rfl) rfl rfl trivial
  case markInFrame cur prev top frameLayout objptrIndex =>
    rw [step_markInFrame rfl] at hstep
    dsimp only at hstep
    split_ifs at hstep
    · cases hstep
      exact hs.quiet (fun _ => ⟨rfl, rfl, rfl⟩) rfl rfl trivial
    · cases hstep
      exact hs.quiet (fun _ => ⟨rfl, rfl, rfl⟩) rfl rfl trivial
    · cases hstep
      exact hs.quiet (quiet_modify _ _ _ rfl rfl rfl) rfl rfl (htype _)
  case ret cur prev =>
    simp only [DfsMark.step, resume] at hstep
    split_ifs at hstep
    · cases hstep
      exact hs.quiet (fun _ => ⟨rfl, rfl, rfl⟩) rfl rfl trivial
    · cases hstep
      split
      · exact hs.quiet (quiet_modify _ _ _ rfl rfl rfl) rfl rfl (htype _)
      · exact hs.quiet (quiet_modify _ _ _ rfl rfl rfl) rfl rfl (htype _)
      · exact hs.quiet (quiet_modify _ _ _ rfl rfl rfl) rfl rfl trivial
  case «return» => cases hstep

theorem run_linked {weaks₀ fuel : ℕ}
    (hs : Linked g o h₀ weaks₀ s) (hrun : run g o.logged fuel s = some s') :
    Linked g o h₀ weaks₀ s' := by
  induction fuel generalizing s with
  | zero => cases hrun
  | succ fuel ih =>
    rw [run] at hrun
    cases hstep : DfsMark.step g o.logged s with
    | none =>
      rw [hstep] at hrun
      cases hrun
      exact hs
    | some t =>
      rw [hstep] at hrun
      exact ih (hs.step hstep) hrun

/-! ### Runs -/

/-- What the visitor makes of a list of objects. -/
def visitAll (o : DfsOptions w σ) (h : Heap w) (x : σ) (l : List ℕ) : σ :=
  l.foldl (fun x p => (o.f x (h p).header p 0).1) x

theorem visits_logged {x y : σ × List ℕ} {l : List (Node × Bool)}
    (hvisits : PointerReversal.Visits (visitor g o.logged h₀) x l y) :
    y = (visitAll o h₀ x.1 (l.map fun a => a.1.1), x.2 ++ l.map fun a => a.1.1) := by
  induction hvisits with
  | nil x => simp [visitAll]
  | cons _ ih =>
    rw [ih]
    simp [visitAll, visitor, DfsOptions.logged]

theorem dfsMarkByMode_forget (hstack : o.onStack = none) (hhash : o.shouldHashCons = none)
    (fuel : ℕ) (h : Heap w) (weaks : ℕ) (x : σ) (log : List ℕ) (root : ℕ) :
    dfsMarkByMode g o fuel h weaks x root =
      (dfsMarkByMode g o.logged fuel h weaks (x, log) root).map
        fun r => ⟨r.heap, r.weaks, r.aux.1, r.size⟩ := by
  have hrun := run_forget (g := g) hstack hhash fuel
    ⟨h, weaks, (x, log), 0, true, .mark root 0 (h root).header⟩
  rw [State.forget] at hrun
  rw [dfsMarkByMode, dfsMarkByMode, hrun, apply_ite (Option.map _), apply_ite (Option.map _),
    Option.map_map, Option.map_map]
  rfl

/-- What marking has done from a heap, a list of weak objects and a state of the visitor on: of the
objects that are `reached` it has visited those of the list `l`, which were not marked before. -/
structure Visited (g : Tables) (o : DfsOptions w σ) (S : Finset ℕ) (reached : ℕ → Prop)
    (h : Heap w) (weaks : ℕ) (x : σ) (r : DfsResult w σ) (l : List ℕ) : Prop where
  nodup : l.Nodup
  subset : ∀ p ∈ l, p ∈ S
  mem : ∀ p, p ∈ l ↔ reached p ∧ isPointerMarkedByMode (h p).header o.mode = false
  aux : r.aux = visitAll o h x l
  chain : ((fun p => (r.heap p).weakLink), r.weaks) =
    linkAll (l.filter fun p => linksWeak o (h p) (splitHeader g (h p).header))
      ((fun p => (h p).weakLink), weaks)
  others : ∀ p, p ∉ S → r.heap p = h p
  marked : ∀ p ∈ S, Marked o.mode (h p) (r.heap p)
    (isPointerMarkedByMode (h p).header o.mode || decide (p ∈ l))

variable {S : Finset ℕ} {h : Heap w}

theorem markBit_processed (mode : MarkMode) (header : Header w) :
    markBit mode (isPointerMarkedByMode header mode) = isMarked header := by
  cases mode <;> simp [markBit, isPointerMarkedByMode]

/-- An object that is left as it is. -/
theorem Marked.refl {mode : MarkMode} {ob : Obj w} (hcounter : getCounter ob.header = 0) :
    Marked mode ob ob (isPointerMarkedByMode ob.header mode) where
  same := SameFields.refl ob
  header := by rw [markBit_processed, setMark_self _ hcounter]
  objptr := rfl
  arrayCounter := rfl

/-- Objects that are not marked lie on paths of such objects, if marks stay along the paths. -/
theorem white_path_of_closed (hset : Setting g o h S) (root : Node) (hroot : root.1 ∈ S)
    (hclosed : ∀ p q, Relation.ReflTransGen (Scans g o h) root p →
      isPointerMarkedByMode (h p).header o.mode = true → Scans g o h p q →
      isPointerMarkedByMode (h q).header o.mode = true)
    {p : ℕ} (hpath : Relation.ReflTransGen (Scans g o h) root p)
    (hwhite : isPointerMarkedByMode (h p).header o.mode = false) :
    ∃ n : Node, n.1 = p ∧ n.1 ∈ S ∧ Relation.ReflTransGen
      (PointerReversal.White (graph g o h) (heapOf g o h)) root n := by
  induction hpath with
  | refl => exact ⟨root, rfl, hroot, .refl⟩
  | @tail b p hpath hscans ih =>
    have hb : isPointerMarkedByMode (h b).header o.mode = false := by
      by_contra hb
      rw [hclosed b p hpath (Bool.eq_true_of_not_eq_false hb) hscans] at hwhite
      exact Bool.noConfusion hwhite
    obtain ⟨n, rfl, hn, hwhitePath⟩ := ih hb
    obtain ⟨n', hn', hmem, hedge⟩ := edge_of_scans hset hn hscans
    exact ⟨n', hn', hmem, hwhitePath.tail ⟨hb, hedge⟩⟩

/-- The links that a run leaves. -/
theorem chain_of_run {fuel weaks root : ℕ} {x : σ × List ℕ} {r : DfsResult w (σ × List ℕ)}
    (hmark : isPointerMarkedByMode (h root).header o.mode = false) (hlog : x.2 = [])
    (hlocal : (o.ignoreSharedHeap && isPointerInSharedHeap g root) = false)
    (hrun : dfsMarkByMode g o.logged fuel h weaks x root = some r) :
    ((fun p => (r.heap p).weakLink), r.weaks) =
      linkAll (r.aux.2.filter fun p => linksWeak o (h p) (splitHeader g (h p).header))
        ((fun p => (h p).weakLink), weaks) := by
  have hstart : Linked g o h weaks ⟨h, weaks, x, 0, true, .mark root 0 (h root).header⟩ := by
    refine ⟨fun _ => rfl, fun _ => rfl, rfl, ?_⟩
    rw [hlog]
    rfl
  rw [dfsMarkByMode, if_neg (by rw [DfsOptions.logged, hmark]; decide),
    if_neg (by rw [DfsOptions.logged, hlocal]; decide)] at hrun
  obtain ⟨s, hs, rfl⟩ := map_eq_some_iff.1 hrun
  exact (run_linked hstart hs).chain

/-- `dfsMarkByMode` on a root, when what is marked stays marked along the pointers that it goes
through. -/
theorem dfsMarkByMode_visits (hset : Setting g o h S) (hstack : o.onStack = none) {root : ℕ}
    (hroot : root ∈ S) (hlocal : (o.ignoreSharedHeap && isPointerInSharedHeap g root) = false)
    (hclosed : ∀ p q, Relation.ReflTransGen (Scans g o h) root p →
      isPointerMarkedByMode (h p).header o.mode = true → Scans g o h p q →
      isPointerMarkedByMode (h q).header o.mode = true) (weaks : ℕ) (x : σ) :
    ∃ (l : List ℕ) (r : DfsResult w σ) (fuel₀ : ℕ),
      (∀ fuel, fuel₀ ≤ fuel → dfsMarkByMode g o fuel h weaks x root = some r) ∧
      Visited g o S (Relation.ReflTransGen (Scans g o h) root) h weaks x r l := by
  cases hmark : isPointerMarkedByMode (h root).header o.mode with
  | true =>
    refine ⟨[], ⟨h, weaks, x, 0⟩, 0, fun fuel _ => ?_, nodup_nil, nofun, fun p => ?_, rfl, rfl,
      fun _ _ => rfl, fun p hp => ?_⟩
    · rw [dfsMarkByMode, if_pos hmark]
    · refine iff_of_false not_mem_nil ?_
      rintro ⟨hpath, hwhite⟩
      have hall : isPointerMarkedByMode (h p).header o.mode = true := by
        clear hwhite
        induction hpath with
        | refl => exact hmark
        | tail hpath hscans ih => exact hclosed _ _ hpath ih hscans
      exact Bool.noConfusion (hall.symm.trans hwhite)
    · simpa using Marked.refl (hset.wellFormed p hp).counter
  | false =>
    have hne : root ≠ 0 := fun heq => hset.nonzero (heq ▸ hroot)
    have hset' : Setting g o.logged h S :=
      ⟨hset.width, hset.nonzero, hset.closed, hset.wellFormed, fun x header p prev prev' => by
        simp only [DfsOptions.logged, hset.visitor x.1 header p prev prev'],
        fun _ x header p prev => hset.continues hstack x.1 header p prev, rfl⟩
    obtain ⟨l, y, r, fuel₀, hrun, hvisits, hsearched, haux, -, hothers, hmarked⟩ :=
      dfsMarkByMode_search hset' (show (⟨root, hne⟩ : Node).1 ∈ S from hroot) hmark hlocal weaks
        (x, [])
    rw [visits_logged hvisits, nil_append] at haux
    have hmem := fun n : Node => hsearched.mem_iff (n := n)
      (hvisits.all_true (f := visitor g o.logged h)
        fun x n => hset.continues hstack x.1 (h n).header n 0)
    have hlog : l.map (fun a => a.1.1) = (l.map Prod.fst).map Subtype.val := by
      rw [List.map_map]
      rfl
    have hval (n : Node) : n.1 ∈ l.map (fun a => a.1.1) ↔ n ∈ l.map Prod.fst := by
      rw [hlog]
      exact mem_map_of_injective Subtype.val_injective
    refine ⟨l.map fun a => a.1.1, ⟨r.heap, r.weaks, r.aux.1, r.size⟩, fuel₀, fun fuel hfuel => ?_,
      ?_, fun p hp => ?_, fun p => ?_, ?_, ?_, hothers, fun p hp => ?_⟩
    · rw [dfsMarkByMode_forget hstack hset.noHashCons fuel h weaks x [] root, hrun fuel hfuel,
        map_some]
    · rw [hlog]
      exact hsearched.nodup.map Subtype.val_injective
    · obtain ⟨a, ha, rfl⟩ := mem_map.1 hp
      obtain ⟨n, hn⟩ : ∃ n, n = a.1 := ⟨a.1, rfl⟩
      have hpath := ((hmem a.1).1 (mem_map_of_mem ha)).2
      rw [← hn] at hpath ⊢
      clear hn
      induction hpath with
      | refl => exact hroot
      | tail _ hedge ih => exact hset'.edge _ ih _ hedge.2
    · constructor
      · intro hp
        obtain ⟨a, ha, rfl⟩ := mem_map.1 hp
        obtain ⟨hwhite, hpath⟩ := (hmem a.1).1 (mem_map_of_mem ha)
        exact ⟨hpath.lift Subtype.val fun _ _ hab => scans_of_edge hab.2, hwhite⟩
      · rintro ⟨hpath, hwhite⟩
        obtain ⟨n, rfl, -, hwhitePath⟩ :=
          white_path_of_closed hset ⟨root, hne⟩ hroot hclosed hpath hwhite
        exact (hval n).2 ((hmem n).2 ⟨hwhite, hwhitePath⟩)
    · rw [haux]
    · have hchain := chain_of_run hmark rfl hlocal (hrun fuel₀ le_rfl)
      rw [haux] at hchain
      exact hchain
    · have hp0 : p ≠ 0 := fun heq => hset.nonzero (heq ▸ hp)
      have hob := hmarked ⟨p, hp0⟩ hp
      have heq : ((heapOf g o.logged h).markAll l).marked ⟨p, hp0⟩ =
          (isPointerMarkedByMode (h p).header o.mode || decide (p ∈ l.map fun a => a.1.1)) :=
        congrArg (isPointerMarkedByMode (h p).header o.mode || ·)
          (decide_eq_decide.2 (hval ⟨p, hp0⟩).symm)
      rw [heq] at hob
      exact hob

/-! ### One run after another -/

variable {reached reached' : ℕ → Prop} {weaks : ℕ} {x : σ} {r r' : DfsResult w σ} {l l' : List ℕ}

theorem Marked.trans {mode : MarkMode} {ob ob' ob'' : Obj w} {m m' : Bool}
    (h : Marked mode ob ob' m) (h' : Marked mode ob' ob'' m') : Marked mode ob ob'' m' where
  same := h.same.trans h'.same
  header := by rw [h'.header, h.header, setMark_setMark _ _ (by decide) _ (by decide)]
  objptr := h'.objptr.trans h.objptr
  arrayCounter := h'.arrayCounter.trans h.arrayCounter

/-- A heap that differs by its marks is as good a place to mark in. -/
theorem Setting.of_marked {mode : MarkMode} {h' : Heap w} {m : ℕ → Bool} (hset : Setting g o h S)
    (hmarked : ∀ p ∈ S, Marked mode (h p) (h' p) (m p)) : Setting g o h' S where
  width := hset.width
  nonzero := hset.nonzero
  closed p hp off hoff hfollows := by
    rw [(hmarked p hp).layout.slots] at hoff
    rw [(hmarked p hp).follows_eq, (hmarked p hp).objptr] at hfollows
    rw [(hmarked p hp).objptr]
    exact hset.closed p hp off hoff hfollows
  wellFormed p hp := (hmarked p hp).wellFormed hset.width (hset.wellFormed p hp)
  visitor := hset.visitor
  continues := hset.continues
  noHashCons := hset.noHashCons

/-- Nothing has been marked yet. -/
theorem Visited.start (r : DfsResult w σ)
    (hset : Setting g o r.heap S) :
    Visited g o S (fun _ => False) r.heap r.weaks r.aux r [] := by
  refine ⟨nodup_nil, nofun, fun p => ?_, rfl, rfl, fun _ _ => rfl, fun p hp => ?_⟩
  · exact iff_of_false not_mem_nil fun hp => hp.1
  · simpa using Marked.refl (hset.wellFormed p hp).counter

theorem setting_of_markable (hh : Markable g S h)
    (hvisitor : ∀ x header p prev prev', o.f x header p prev = o.f x header p prev')
    (hcontinues : ∀ x header p prev, (o.f x header p prev).2 = true)
    (hhash : o.shouldHashCons = none) : Setting g o h S where
  width := hh.width
  nonzero := hh.nonzero
  closed p hp _ hoff hfollows :=
    hh.closed p hp _ (mem_append_left _ (mem_map_of_mem hoff))
      (isPointer_of_follows hfollows)
  wellFormed := hh.wellFormed
  visitor := hvisitor
  continues _ := hcontinues
  noHashCons := hhash

theorem Visited.processed (hv : Visited g o S reached h weaks x r l) (hw : 32 ≤ w) (p : ℕ) :
    isPointerMarkedByMode (r.heap p).header o.mode =
      (isPointerMarkedByMode (h p).header o.mode || decide (p ∈ l)) := by
  by_cases hp : p ∈ S
  · rw [(hv.marked p hp).header, isPointerMarkedByMode_setMark hw _ _ _ (by decide)]
  · have hnotmem : p ∉ l := fun hmem => hp (hv.subset p hmem)
    rw [hv.others p hp, decide_eq_false hnotmem, Bool.or_false]

/-- The header of an object that is still to be marked. -/
theorem Visited.header_eq (hv : Visited g o S reached h weaks x r l) (hset : Setting g o h S)
    {p : ℕ} (hp : isPointerMarkedByMode (r.heap p).header o.mode = false) :
    (r.heap p).header = (h p).header := by
  rw [hv.processed hset.width] at hp
  by_cases hmem : p ∈ S
  · have hwhite := (Bool.or_eq_false_iff.1 hp).1
    rw [(hv.marked p hmem).header, hp, ← hwhite, markBit_processed,
      setMark_self _ (hset.wellFormed p hmem).counter]
  · rw [hv.others p hmem]

theorem Visited.linksWeak_eq (hv : Visited g o S reached h weaks x r l) (p : ℕ) :
    linksWeak o (r.heap p) (splitHeader g (r.heap p).header) =
      linksWeak o (h p) (splitHeader g (h p).header) := by
  by_cases hp : p ∈ S
  · rw [(hv.marked p hp).layout.splitHeader, linksWeak, linksWeak,
      (hv.marked p hp).same.weakObjptr]
  · rw [hv.others p hp]

theorem visitAll_append (o : DfsOptions w σ) (h : Heap w) (x : σ) (l l' : List ℕ) :
    visitAll o h x (l ++ l') = visitAll o h (visitAll o h x l) l' := foldl_append

theorem visitAll_congr {h' : Heap w} (hheader : ∀ p ∈ l, (h' p).header = (h p).header) (x : σ) :
    visitAll o h' x l = visitAll o h x l := by
  induction l generalizing x with
  | nil => rfl
  | cons p l ih =>
    rw [visitAll, foldl_cons, hheader p mem_cons_self]
    exact ih (fun q hq => hheader q (mem_cons_of_mem p hq)) _

theorem Visited.trans (hset : Setting g o h S) (hv : Visited g o S reached h weaks x r l)
    (hv' : Visited g o S reached' r.heap r.weaks r.aux r' l') :
    Visited g o S (fun p => reached p ∨ reached' p) h weaks x r' (l ++ l') := by
  have hnew (p : ℕ) (hp : p ∈ l') : isPointerMarkedByMode (r.heap p).header o.mode = false :=
    ((hv'.mem p).1 hp).2
  refine ⟨?_, fun p hp => ?_, fun p => ?_, ?_, ?_, fun p hp => ?_, fun p hp => ?_⟩
  · refine nodup_append.2 ⟨hv.nodup, hv'.nodup, ?_⟩
    rintro p hp q hq rfl
    have hwhite := hnew p hq
    rw [hv.processed hset.width, decide_eq_true hp, Bool.or_true] at hwhite
    exact Bool.noConfusion hwhite
  · exact (mem_append.1 hp).elim (hv.subset p) (hv'.subset p)
  · rw [mem_append, hv.mem, hv'.mem, hv.processed hset.width, Bool.or_eq_false_iff,
      decide_eq_false_iff_not, hv.mem]
    tauto
  · rw [visitAll_append, ← hv.aux, hv'.aux]
    exact visitAll_congr (fun p hp => hv.header_eq hset (hnew p hp)) _
  · simp only [hv'.chain, filter_append, linkAll_append, hv.chain, hv.linksWeak_eq]
  · rw [hv'.others p hp, hv.others p hp]
  · have hob := (hv.marked p hp).trans (hv'.marked p hp)
    rw [hv.processed hset.width] at hob
    have heq : (isPointerMarkedByMode (h p).header o.mode || decide (p ∈ l) || decide (p ∈ l')) =
        (isPointerMarkedByMode (h p).header o.mode || decide (p ∈ l ++ l')) := by
      rw [Bool.or_assoc, ← Bool.decide_or]
      simp only [mem_append]
    rwa [heq] at hob

end DfsMark

end MultiMLton.GC
