import Mathlib
import MultiMLton.Runtime.WeakLinks

/-!
# Which shared objects belong to one core

`computeExclusivityInformation` of `gc/reclaim.c`.  The first processor marks, and unmarks, what is
reached from the globals, and then what is reached from the roots of each processor; each time the
objects of the shared heap are noted down.  A hash table merges the notes: an object that is noted
for one core alone goes on the list of that core.
-/

namespace MultiMLton.GC

open List
open Function (update update_eq_self update_of_ne update_self)

namespace Exclusivity

variable {w : ℕ}

/-! ### The functions -/

def LIFT_MASK : Header w := 0x00080000#w

/-- `(getHeader(p) & ~(LIFT_MASK | VIRGIN_MASK)) == (GC_header)0x3` -/
def isThreadHeader (header : Header w) : Bool :=
  header &&& ~~~(LIFT_MASK ||| VIRGIN_MASK) == 3#w

/-- The array `s->reachable` is the state of the visitor. -/
def addToReachableArray (g : Tables) (reachable : List ℕ) (header : Header w) (p _prev : ℕ) :
    List ℕ × Bool :=
  if isPointerInSharedHeap g p && !isThreadHeader header then (reachable ++ [p], true)
  else (reachable, true)

/-- The call `dfsMarkByMode (s, p, addToReachableArray, MARK_MODE, FALSE, TRUE, FALSE, FALSE)`. -/
def markOptions (g : Tables) : DfsOptions w (List ℕ) where
  f := addToReachableArray g
  onStack := none
  mode := .MARK_MODE
  shouldHashCons := none
  shouldLinkWeaks := true
  ignoreSharedHeap := false
  sizeEstimationForLifting := false

/-- The call `dfsMarkByMode (s, p, emptyForeachObjectFun, UNMARK_MODE, FALSE, TRUE, FALSE,
FALSE)`. -/
def unmarkOptions : DfsOptions w (List ℕ) where
  f := emptyForeachObjectFun
  onStack := none
  mode := .UNMARK_MODE
  shouldHashCons := none
  shouldLinkWeaks := true
  ignoreSharedHeap := false
  sizeEstimationForLifting := false

/-- `dfsMarkReachable`, `dfsUnmarkReachable`: there is nothing to read where a value that is not a
pointer points to. -/
def dfsReachable (g : Tables) (o : DfsOptions w (List ℕ)) (fuel : ℕ) (r : DfsResult w (List ℕ))
    (p : ℕ) : Option (DfsResult w (List ℕ)) :=
  if isPointer p then dfsMarkByMode g o fuel r.heap r.weaks r.aux p else none

/-- `dfsReachable` on some roots, one after the other. -/
def foreachRoot (g : Tables) (o : DfsOptions w (List ℕ)) (fuel : ℕ) :
    List ℕ → DfsResult w (List ℕ) → Option (DfsResult w (List ℕ))
  | [], r => some r
  | p :: roots, r => (dfsReachable g o fuel r p).bind (foreachRoot g o fuel roots)

/-- The fields of a `GC_state` that hold roots.  `roots` is empty when it is not there, and
`schedulerQueue` has the keys of the three queues. -/
structure Proc where
  callFromCHandlerThread : ℕ
  currentThread : ℕ
  savedThread : ℕ
  signalHandlerThread : ℕ
  savedClosure : ℕ
  pacmlThreadId : ℕ
  roots : List ℕ
  danglingStackList : List ℕ
  moveOnWBA : List ℕ
  preemptOnWBA : List ℕ
  spawnOnWBA : List ℕ
  schedulerQueue : List ℕ
  liftingObject : ℕ

/-- The processors, of which there is at least one, and `s->globals`; `offsetofStack` is the offset
of the field `stack` in a thread. -/
structure Config (n : ℕ) where
  procs : Fin (n + 1) → Proc
  globals : List ℕ
  offsetofStack : ℕ

/-- The pointers that `foreachObjptrInWBAs` goes through. -/
def objptrsInWBAs (s : Proc) : List ℕ := s.moveOnWBA ++ s.preemptOnWBA ++ s.spawnOnWBA

/-- The pointers that `foreachObjptrInExportableWBAs` goes through. -/
def objptrsInExportableWBAs (s : Proc) : List ℕ := s.moveOnWBA ++ s.spawnOnWBA

/-- The roots of a processor, those of `foreachGlobalObjptrInScope` that are not globals:
`callIfIsObjptr` leaves out what is not a pointer. -/
def localRoots (offsetofStack : ℕ) (s : Proc) (h : Heap w) : List ℕ :=
  ([s.callFromCHandlerThread, s.currentThread, s.savedThread, s.signalHandlerThread, s.savedClosure,
      s.pacmlThreadId]
    ++ s.roots
    ++ s.danglingStackList.flatMap (fun stk => [stk, (h (h stk).thread).objptr offsetofStack])
    ++ objptrsInWBAs s
    ++ s.schedulerQueue
    ++ [s.liftingObject]).filter isPointer

variable {n : ℕ}

/-- The roots that `foreachGlobalObjptrInScope` goes through. -/
def rootsInScope (c : Config n) (core : Fin (n + 1)) (h : Heap w) : List ℕ :=
  c.globals.filter isPointer ++ localRoots c.offsetofStack (c.procs core) h

/-- The roots that belong to all: the globals, which are not asked whether they are pointers, and
for each processor the exportable arrays and the dangling stacks. -/
def globalRoots (c : Config n) : List ℕ :=
  c.globals ++ (List.finRange (n + 1)).flatMap fun core =>
    (objptrsInExportableWBAs (c.procs core)).filter isPointer ++
      (c.procs core).danglingStackList.filter isPointer

/-- Mark, noting down, and unmark. -/
def markAndUnmark (g : Tables) (fuel : ℕ) (roots : Heap w → List ℕ) (h : Heap w) (weaks : ℕ) :
    Option (DfsResult w (List ℕ)) :=
  (foreachRoot g (markOptions g) fuel (roots h) ⟨h, weaks, [], 0⟩).bind fun r =>
    foreachRoot g unmarkOptions fuel (roots r.heap) r

/-- What the processors share, and for each processor its list of weak objects and its array
`reachable`. -/
structure State (w n : ℕ) where
  heap : Heap w
  weaks : Fin (n + 1) → ℕ
  reachable : Fin (n + 1) → List ℕ

/-- The loop over the local heaps. -/
def localHeaps (g : Tables) (c : Config n) (fuel : ℕ) :
    List (Fin (n + 1)) → State w n → Option (State w n)
  | [], s => some s
  | core :: cores, s =>
    (markAndUnmark g fuel (rootsInScope c core) s.heap (s.weaks core)).bind fun r =>
      localHeaps g c fuel cores ⟨r.heap, update s.weaks core r.weaks,
        update s.reachable core r.aux⟩

/-- `GC_objectSharingInfo`: the location of an object and its `coreId`, which is `none` for `-1`. -/
abbrev SharingInfo (n : ℕ) := ℕ × Option (Fin (n + 1))

/-- The table is the list of its elements, in the order in which they have been added. -/
def addToHashTable (map : List (SharingInfo n)) (p : ℕ) (coreId : Option (Fin (n + 1))) :
    List (SharingInfo n) :=
  match map.lookup p with
  | some found =>
    if found ≠ coreId then map.map fun e => if e.1 = p then (p, none) else e else map
  | none => map ++ [(p, coreId)]

/-- The objects of an array are added from its back. -/
def addAll (map : List (SharingInfo n)) (reachable : List ℕ) (coreId : Option (Fin (n + 1))) :
    List (SharingInfo n) :=
  reachable.foldr (fun p map => addToHashTable map p coreId) map

/-- The table for the objects noted down for all and for each processor. -/
def sharingInfo (globalReachable : List ℕ) (reachable : Fin (n + 1) → List ℕ) :
    List (SharingInfo n) :=
  (List.finRange (n + 1)).foldl (fun map core => addAll map (reachable core) (some core))
    (addAll [] globalReachable none)

/-- The lists of the processors, which are not there until something is pushed on them. -/
def pushExclusive (map : List (SharingInfo n)) : Fin (n + 1) → Option (List ℕ) :=
  map.foldl (fun reachable e => match e.2 with
    | none => reachable
    | some core => update reachable core (some ((reachable core).getD [] ++ [e.1])))
    fun _ => none

/-- What `computeExclusivityInformation` leaves. -/
structure Result (w n : ℕ) where
  heap : Heap w
  weaks : Fin (n + 1) → ℕ
  reachable : Fin (n + 1) → Option (List ℕ)

def computeExclusivityInformation (g : Tables) (c : Config n) (fuel : ℕ) (h : Heap w)
    (weaks : Fin (n + 1) → ℕ) : Option (Result w n) :=
  (markAndUnmark g fuel (fun _ => globalRoots c) h (weaks 0)).bind fun r =>
    (localHeaps g c fuel (List.finRange (n + 1))
      ⟨r.heap, update weaks 0 r.weaks, fun _ => []⟩).map fun s =>
        ⟨s.heap, s.weaks, pushExclusive (sharingInfo r.aux s.reachable)⟩

open DfsMark

variable {g : Tables} {S : Finset ℕ} {h : Heap w}

/-! ### The lists of weak objects -/

/-- A list of weak objects that is linked through `link` ends. -/
def Ends (link : ℕ → ℕ) (weaks : ℕ) : Prop := ∃ k, link^[k] weaks = 0

theorem not_ends_of_closed {link : ℕ → ℕ} {weaks : ℕ} {A : ℕ → Prop} (hweaks : A weaks)
    (hlink : ∀ p, A p → A (link p)) (hzero : ¬ A 0) : ¬ Ends link weaks := by
  rintro ⟨k, hk⟩
  have hall (k : ℕ) : A (link^[k] weaks) := by
    induction k with
    | zero => exact hweaks
    | succ k ih =>
      rw [Function.iterate_succ_apply']
      exact hlink _ ih
  exact hzero (hk ▸ hall k)

/-- Objects that are linked twice make a list that does not end. -/
theorem linkAll_linkAll {l l' : List ℕ} (hl : l ≠ []) (hmem : ∀ p, p ∈ l' ↔ p ∈ l) (hzero : 0 ∉ l)
    (x : (ℕ → ℕ) × ℕ) :
    ¬ Ends (linkAll l' (linkAll l x)).1 (linkAll l' (linkAll l x)).2 := by
  obtain ⟨hlast, hall⟩ := linkAll_closed (A := (· ∈ l)) (fun p hp => (hmem p).1 hp)
    (linkAll_mem hl x)
  exact not_ends_of_closed hlast (fun p hp => hall p ((hmem p).2 hp)) hzero

/-! ### Phases -/

variable {p : ℕ}

theorem foreachRoot_eq_none {o : DfsOptions w (List ℕ)} {fuel : ℕ} {roots : List ℕ}
    (hp : p ∈ roots) (hpointer : isPointer p = false) (r : DfsResult w (List ℕ)) :
    foreachRoot g o fuel roots r = none := by
  induction roots generalizing r with
  | nil => exact absurd hp not_mem_nil
  | cons q roots ih =>
    rw [foreachRoot, Option.bind_eq_none_iff]
    intro r' hr'
    rcases mem_cons.1 hp with rfl | hmem
    · rw [dfsReachable, hpointer, if_neg (by decide)] at hr'
      cases hr'
    · exact ih hmem r'

/-- What marking reaches from some roots. -/
def FromRoots (reach : ℕ → ℕ → Prop) (roots : List ℕ) (p : ℕ) : Prop := ∃ root ∈ roots, reach root p

/-- A phase in the middle: what is reached from the roots that are left has not been marked, or
unmarked, when the phase began. -/
theorem foreachRoot_visits {o : DfsOptions w (List ℕ)} (hset : Setting g o h S)
    (hstack : o.onStack = none) (hlocal : o.ignoreSharedHeap = false) {roots : List ℕ}
    (hroots : ∀ p ∈ roots, isPointer p = true ∧ p ∈ S)
    (hwhite : ∀ root ∈ roots, ∀ p, Relation.ReflTransGen (Scans g o h) root p →
      isPointerMarkedByMode (h p).header o.mode = false)
    {reached : ℕ → Prop} (hclosed : ∀ p q, reached p → Scans g o h p q → reached q)
    {weaks : ℕ} {x : List ℕ} {r : DfsResult w (List ℕ)} {l : List ℕ}
    (hv : DfsMark.Visited g o S reached h weaks x r l) :
    ∃ (l' : List ℕ) (r' : DfsResult w (List ℕ)) (fuel₀ : ℕ),
      (∀ fuel, fuel₀ ≤ fuel → foreachRoot g o fuel roots r = some r') ∧
      DfsMark.Visited g o S
        (fun p => reached p ∨ FromRoots (Relation.ReflTransGen (Scans g o h)) roots p)
        h weaks x r' l' := by
  induction roots generalizing reached r l with
  | nil =>
    refine ⟨l, r, 0, fun _ _ => rfl, ?_⟩
    convert hv using 2
    exact ⟨fun hp => hp.elim id fun ⟨_, hroot, _⟩ => absurd hroot not_mem_nil, Or.inl⟩
  | cons root roots ih =>
    obtain ⟨hpointer, hroot⟩ := hroots root mem_cons_self
    have hscans : Scans g o r.heap = Scans g o h := scans_eq hv.others hv.marked
    have hstay (p q : ℕ) (hpath : Relation.ReflTransGen (Scans g o r.heap) root p)
        (hp : isPointerMarkedByMode (r.heap p).header o.mode = true) (hpq : Scans g o r.heap p q) :
        isPointerMarkedByMode (r.heap q).header o.mode = true := by
      rw [hscans] at hpath hpq
      have hpWhite := hwhite root mem_cons_self p hpath
      have hqWhite := hwhite root mem_cons_self q (hpath.tail hpq)
      rw [hv.processed hset.width, hpWhite, Bool.false_or, decide_eq_true_iff, hv.mem] at hp
      rw [hv.processed hset.width, hqWhite, Bool.false_or, decide_eq_true_iff, hv.mem]
      exact ⟨hclosed p q hp.1 hpq, hqWhite⟩
    obtain ⟨l₁, r₁, fuel₁, hrun₁, hv₁⟩ := dfsMarkByMode_visits (hset.of_marked hv.marked) hstack
      hroot (by rw [hlocal, Bool.false_and]) hstay r.weaks r.aux
    have hv₁ := hv.trans hset hv₁
    rw [hscans] at hv₁
    obtain ⟨l', r', fuel₂, hrun₂, hv₂⟩ := ih (fun p hp => hroots p (mem_cons_of_mem _ hp))
      (fun q hq => hwhite q (mem_cons_of_mem _ hq))
      (fun p q hp hpq => hp.imp (fun hp => hclosed p q hp hpq) fun hp => hp.tail hpq) hv₁
    refine ⟨l', r', max fuel₁ fuel₂, fun fuel hfuel => ?_, ?_⟩
    · rw [foreachRoot, dfsReachable, if_pos hpointer, hrun₁ fuel (le_of_max_le_left hfuel)]
      exact hrun₂ fuel (le_of_max_le_right hfuel)
    · convert hv₂ using 2
      simp [FromRoots, or_assoc]

theorem addToReachableArray_continues (x : List ℕ) (header : Header w) (p prev : ℕ) :
    (addToReachableArray g x header p prev).2 = true := by
  rw [addToReachableArray]
  split_ifs <;> rfl

/-- An object that `addToReachableArray` notes down. -/
def noted (g : Tables) (h : Heap w) (p : ℕ) : Bool :=
  isPointerInSharedHeap g p && !isThreadHeader (h p).header

theorem visitAll_markOptions (x l : List ℕ) :
    visitAll (markOptions g) h x l = x ++ l.filter (noted g h) := by
  induction l generalizing x with
  | nil => exact (append_nil x).symm
  | cons p l ih =>
    have hvisit : (addToReachableArray g x (h p).header p 0).1 =
        x ++ if noted g h p then [p] else [] := by
      rw [addToReachableArray, noted]
      split_ifs
      · rfl
      · rw [append_nil]
    have hcons : visitAll (markOptions g) h x (p :: l) =
        visitAll (markOptions g) h (addToReachableArray g x (h p).header p 0).1 l := rfl
    rw [hcons, ih, hvisit, append_assoc, filter_cons]
    split_ifs <;> rfl

theorem visitAll_unmarkOptions (x l : List ℕ) : visitAll unmarkOptions h x l = x := by
  induction l with
  | nil => rfl
  | cons p l ih => exact ih

/-- A weak object that has a target. -/
def hasTarget (g : Tables) (ob : Obj w) : Bool :=
  decide ((splitHeader g ob.header).tag = .weak) && isPointer ob.weakObjptr

/-- Two heaps agree on all but the fields that marking uses for itself and the links of weak
objects. -/
structure Unchanged (h h' : Heap w) : Prop where
  same : ∀ p, SameFields (h p) (h' p)
  header : ∀ p, (h' p).header = (h p).header
  objptr : ∀ p, (h' p).objptr = (h p).objptr
  arrayCounter : ∀ p, (h' p).arrayCounter = (h p).arrayCounter

theorem linksWeak_eq {o : DfsOptions w (List ℕ)} (hlink : o.shouldLinkWeaks = true) (ob : Obj w) :
    linksWeak o ob (splitHeader g ob.header) = hasTarget g ob := by
  rw [linksWeak, hlink, Bool.true_and, hasTarget]

theorem markAndUnmark_spec (hh : Markable g S h) (roots : Heap w → List ℕ)
    (hroots : ∀ p ∈ roots h, isPointer p = true ∧ p ∈ S)
    (hsame : ∀ h' : Heap w, (∀ p, (h' p).objptr = (h p).objptr) →
      (∀ p, (h' p).thread = (h p).thread) → roots h' = roots h) (weaks : ℕ) :
    ∃ (l : List ℕ) (r : DfsResult w (List ℕ)) (fuel₀ : ℕ),
      (∀ fuel, fuel₀ ≤ fuel → markAndUnmark g fuel roots h weaks = some r) ∧ l.Nodup ∧
      (∀ p, p ∈ l ↔ FromRoots (Scanned g false false h) (roots h) p) ∧
      r.aux = l.filter (noted g h) ∧ Unchanged h r.heap ∧
      ((∀ p ∈ l, hasTarget g (h p) = false) ∧ (∀ p, (r.heap p).weakLink = (h p).weakLink) ∧
          r.weaks = weaks ∨
        (∃ p ∈ l, hasTarget g (h p) = true) ∧ ¬ Ends (fun p => (r.heap p).weakLink) r.weaks) := by
  have hmark : Setting g (markOptions g) h S :=
    setting_of_markable hh (fun _ _ _ _ _ => rfl) addToReachableArray_continues rfl
  have hunmark : Setting g unmarkOptions h S :=
    setting_of_markable hh (fun _ _ _ _ _ => rfl) (fun _ _ _ _ => rfl) rfl
  have hscans : Scans g (markOptions g) h = Scans g (plain .MARK_MODE false false false) h := rfl
  have hscans' : Scans g unmarkOptions h = Scans g (plain .MARK_MODE false false false) h := rfl
  -- what is reached from the roots is not marked
  have hpathMem {root p : ℕ} (hroot : root ∈ roots h)
      (hpath : Relation.ReflTransGen (Scans g (markOptions g) h) root p) : p ∈ S :=
    Reachable.mem hh (hroots root hroot).2
      (reachable_of_scanned (show Scanned g false false h root p from ⟨rfl, hpath⟩))
  obtain ⟨l, r, fuel₁, hrun, hv⟩ := foreachRoot_visits hmark rfl rfl hroots
    (fun root hroot p hpath => hh.unmarked p (hpathMem hroot hpath)) (fun _ _ hp _ => hp.elim)
    (DfsMark.Visited.start ⟨h, weaks, [], 0⟩ hmark)
  have hmem (p : ℕ) : p ∈ l ↔ FromRoots (Scanned g false false h) (roots h) p := by
    rw [hv.mem]
    constructor
    · rintro ⟨hp | ⟨root, hroot, hpath⟩, -⟩
      · exact hp.elim
      · exact ⟨root, hroot, rfl, hpath⟩
    · rintro ⟨root, hroot, -, hpath⟩
      exact ⟨.inr ⟨root, hroot, hpath⟩, hh.unmarked p (hpathMem hroot hpath)⟩
  have hmarkedEq (p : ℕ) : isMarked (r.heap p).header = (isMarked (h p).header || decide (p ∈ l)) :=
    hv.processed hh.width p
  have hrootsEq : roots r.heap = roots h := by
    refine hsame r.heap (fun p => ?_) fun p => ?_
    all_goals by_cases hp : p ∈ S
    · exact (hv.marked p hp).objptr
    · rw [hv.others p hp]
    · exact (hv.marked p hp).same.thread
    · rw [hv.others p hp]
  have hscansEq : Scans g unmarkOptions r.heap = Scans g (markOptions g) h :=
    (scans_eq hv.others hv.marked).trans hscans'
  obtain ⟨l', r', fuel₂, hrun', hv'⟩ := foreachRoot_visits (hunmark.of_marked hv.marked) rfl rfl
    hroots (fun root hroot p hpath => by
      rw [hscansEq] at hpath
      have hpl : p ∈ l := (hmem p).2 ⟨root, hroot, rfl, hpath⟩
      show (!isMarked (r.heap p).header) = false
      rw [hmarkedEq, decide_eq_true hpl, Bool.or_true, Bool.not_true]) (fun _ _ hp _ => hp.elim)
    (DfsMark.Visited.start r (hunmark.of_marked hv.marked))
  rw [hscansEq] at hv'
  have hmem' (p : ℕ) : p ∈ l' ↔ p ∈ l := by
    rw [hv'.mem]
    constructor
    · rintro ⟨hp | ⟨root, hroot, hpath⟩, -⟩
      · exact hp.elim
      · exact (hmem p).2 ⟨root, hroot, rfl, hpath⟩
    · intro hp
      obtain ⟨root, hroot, -, hpath⟩ := (hmem p).1 hp
      refine ⟨.inr ⟨root, hroot, hpath⟩, ?_⟩
      show (!isMarked (r.heap p).header) = false
      rw [hmarkedEq, decide_eq_true hp, Bool.or_true, Bool.not_true]
  refine ⟨l, r', max fuel₁ fuel₂, fun fuel hfuel => ?_, hv.nodup, hmem, ?_, ?_, ?_⟩
  · rw [markAndUnmark, hrun fuel (le_of_max_le_left hfuel), Option.bind_some, hrootsEq]
    exact hrun' fuel (le_of_max_le_right hfuel)
  · rw [hv'.aux, visitAll_unmarkOptions, hv.aux, visitAll_markOptions, nil_append]
  · have hob (p : ℕ) : SameFields (h p) (r'.heap p) ∧ (r'.heap p).header = (h p).header ∧
        (r'.heap p).objptr = (h p).objptr ∧ (r'.heap p).arrayCounter = (h p).arrayCounter := by
      by_cases hp : p ∈ S
      · have hob := hv.marked p hp
        have hob' := hv'.marked p hp
        have hall : (isPointerMarkedByMode (r.heap p).header (unmarkOptions (w := w)).mode ||
            decide (p ∈ l')) = true := by
          show (!isMarked (r.heap p).header || decide (p ∈ l')) = true
          rw [hmarkedEq, hh.unmarked p hp, decide_eq_decide.2 (hmem' p)]
          cases decide (p ∈ l) <;> rfl
        refine ⟨hob.same.trans hob'.same, ?_, hob'.objptr.trans hob.objptr,
          hob'.arrayCounter.trans hob.arrayCounter⟩
        rw [hob'.header, hall, hob.header, setMark_setMark _ _ (by decide) _ (by decide)]
        have hself := setMark_self _ (hh.wellFormed p hp).counter
        rwa [hh.unmarked p hp] at hself
      · rw [hv'.others p hp, hv.others p hp]
        exact ⟨SameFields.refl _, rfl, rfl, rfl⟩
    exact ⟨fun p => (hob p).1, fun p => (hob p).2.1, fun p => (hob p).2.2.1,
      fun p => (hob p).2.2.2⟩
  · have hweak (p : ℕ) : linksWeak unmarkOptions (r.heap p) (splitHeader g (r.heap p).header) =
        hasTarget g (h p) := (hv.linksWeak_eq p).trans (linksWeak_eq rfl (h p))
    have hchain' := hv'.chain
    simp only [hweak] at hchain'
    have hchain := hv.chain
    simp only [linksWeak_eq (o := markOptions g) rfl] at hchain
    rw [hchain] at hchain'
    by_cases hnone : ∀ p ∈ l, hasTarget g (h p) = false
    · have hnil (l₀ : List ℕ) (hl₀ : ∀ p ∈ l₀, p ∈ l) :
          l₀.filter (fun p => hasTarget g (h p)) = [] :=
        filter_eq_nil_iff.2 fun p hp => by rw [hnone p (hl₀ p hp)]; decide
      rw [hnil l' fun p hp => (hmem' p).1 hp, hnil l fun _ hp => hp] at hchain'
      refine .inl ⟨hnone, fun p => ?_, congrArg Prod.snd hchain'⟩
      exact congrFun (congrArg Prod.fst hchain') p
    · simp only [not_forall, Bool.not_eq_false] at hnone
      obtain ⟨p, hp, htarget⟩ := hnone
      refine .inr ⟨⟨p, hp, htarget⟩, ?_⟩
      have hsame (q : ℕ) : q ∈ l'.filter (fun p => hasTarget g (h p)) ↔
          q ∈ l.filter fun p => hasTarget g (h p) := by
        rw [mem_filter, mem_filter, hmem']
      have hends := linkAll_linkAll (ne_nil_of_mem (mem_filter.2 ⟨hp, htarget⟩)) hsame
        (fun hzero => hh.nonzero (hv.subset 0 (mem_filter.1 hzero).1))
        ((fun p => (h p).weakLink), weaks)
      rwa [← hchain'] at hends

/-! ### All scopes -/

theorem Unchanged.refl (h : Heap w) : Unchanged h h :=
  ⟨fun p => SameFields.refl (h p), fun _ => rfl, fun _ => rfl, fun _ => rfl⟩

theorem Unchanged.trans {h h' h'' : Heap w} (hu : Unchanged h h') (hu' : Unchanged h' h'') :
    Unchanged h h'' where
  same p := (hu.same p).trans (hu'.same p)
  header p := (hu'.header p).trans (hu.header p)
  objptr p := (hu'.objptr p).trans (hu.objptr p)
  arrayCounter p := (hu'.arrayCounter p).trans (hu.arrayCounter p)

variable {h' : Heap w}

theorem Unchanged.layout (hu : Unchanged h h') (p : ℕ) : SameLayout g (h p) (h' p) where
  splitHeader := by rw [hu.header]
  arrayLength := (hu.same p).arrayLength
  used := (hu.same p).used
  returnAddress := (hu.same p).returnAddress

theorem Unchanged.scans_eq (hu : Unchanged h h') {o : DfsOptions w Unit} :
    Scans g o h' = Scans g o h := by
  funext p q
  rw [Scans, Scans, (hu.layout p).slots, hu.objptr, follows, follows, hu.header,
    (hu.same p).isParasitic]

theorem Unchanged.markable (hu : Unchanged h h') (hh : Markable g S h) : Markable g S h' where
  width := hh.width
  nonzero := hh.nonzero
  closed p hp q hq hpointer := by
    rw [strongPointers, (hu.layout p).slots, hu.objptr, hu.header, (hu.same p).thread] at hq
    exact hh.closed p hp q hq hpointer
  wellFormed p hp := by
    refine (hu.layout p).wellFormed ?_ (hu.arrayCounter p) (hh.wellFormed p hp)
    rw [hu.header, (hh.wellFormed p hp).counter]
  unmarked p hp := by rw [hu.header, hh.unmarked p hp]

theorem Unchanged.hasTarget_eq (hu : Unchanged h h') (p : ℕ) :
    hasTarget g (h' p) = hasTarget g (h p) := by
  rw [hasTarget, hu.header, (hu.same p).weakObjptr, hasTarget]

theorem localRoots_congr {h h' : Heap w} (hobjptr : ∀ p, (h' p).objptr = (h p).objptr)
    (hthread : ∀ p, (h' p).thread = (h p).thread) (offsetofStack : ℕ) (s : Proc) :
    localRoots offsetofStack s h' = localRoots offsetofStack s h := by
  simp only [localRoots, hobjptr, hthread]

/-- What the lists of weak objects have become, once the objects that are `scanned` have been marked
and unmarked: they are as they were, or one of them does not end any more. -/
def WeakLists (g : Tables) (h h' : Heap w) (weaks weaks' : Fin (n + 1) → ℕ) (scanned : ℕ → Prop) :
    Prop :=
  (∀ p, scanned p → hasTarget g (h p) = false) ∧ (∀ p, (h' p).weakLink = (h p).weakLink) ∧
      weaks' = weaks ∨
    (∃ p, scanned p ∧ hasTarget g (h p) = true) ∧
      ∃ core, ¬ Ends (fun p => (h' p).weakLink) (weaks' core)

/-- One more scope, for the processor `core`. -/
theorem WeakLists.next {h'' : Heap w} {weaks weaks' : Fin (n + 1) → ℕ} {scanned : ℕ → Prop}
    (hlists : WeakLists g h h' weaks weaks' scanned) (hu : Unchanged h h') {core : Fin (n + 1)}
    {weak : ℕ} {l : List ℕ}
    (hscope : (∀ p ∈ l, hasTarget g (h' p) = false) ∧ (∀ p, (h'' p).weakLink = (h' p).weakLink) ∧
        weak = weaks' core ∨
      (∃ p ∈ l, hasTarget g (h' p) = true) ∧ ¬ Ends (fun p => (h'' p).weakLink) weak) :
    WeakLists g h h'' weaks (update weaks' core weak) fun p => scanned p ∨ p ∈ l := by
  simp only [hu.hasTarget_eq] at hscope
  rcases hscope with ⟨hnone, hlinks, rfl⟩ | ⟨⟨p, hp, htarget⟩, hends⟩
  · rw [update_eq_self]
    simp only [WeakLists, hlinks]
    rcases hlists with ⟨hall, hkept⟩ | ⟨⟨p, hp, htarget⟩, hends⟩
    · exact .inl ⟨fun p hp => hp.elim (hall p) (hnone p), hkept⟩
    · exact .inr ⟨⟨p, .inl hp, htarget⟩, hends⟩
  · refine .inr ⟨⟨p, .inr hp, htarget⟩, core, ?_⟩
    rwa [update_self]

theorem WeakLists.congr {weaks weaks' : Fin (n + 1) → ℕ} {scanned scanned' : ℕ → Prop}
    (hlists : WeakLists g h h' weaks weaks' scanned) (hiff : ∀ p, scanned p ↔ scanned' p) :
    WeakLists g h h' weaks weaks' scanned' := by
  obtain rfl : scanned = scanned' := funext fun p => propext (hiff p)
  exact hlists

/-- An array `reachable` after a scope. -/
structure Notes (g : Tables) (h : Heap w) (roots : List ℕ) (reachable : List ℕ) : Prop where
  nodup : reachable.Nodup
  mem : ∀ p, p ∈ reachable ↔
    noted g h p = true ∧ FromRoots (Scanned g false false h) roots p

theorem Unchanged.scanned_eq (hu : Unchanged h h') :
    Scanned g false false h' = Scanned g false false h := by
  funext root p
  rw [Scanned, Scanned, hu.scans_eq]

theorem Unchanged.noted_eq (hu : Unchanged h h') : noted g h' = noted g h := by
  funext p
  rw [noted, noted, hu.header]

/-- The roots of the scopes are pointers to objects. -/
structure Rooted (S : Finset ℕ) (c : Config n) (h : Heap w) : Prop where
  globals : ∀ p ∈ c.globals, isPointer p = true → p ∈ S
  locals : ∀ core, ∀ p ∈ localRoots c.offsetofStack (c.procs core) h, p ∈ S

variable {c : Config n}

theorem Rooted.inScope (hr : Rooted S c h) {core : Fin (n + 1)}
    (hp : p ∈ rootsInScope c core h) : isPointer p = true ∧ p ∈ S := by
  rcases mem_append.1 hp with hglobal | hlocal
  · obtain ⟨hmem, hpointer⟩ := mem_filter.1 hglobal
    exact ⟨hpointer, hr.globals p hmem hpointer⟩
  · exact ⟨(mem_filter.1 hlocal).2, hr.locals core p hlocal⟩

theorem localHeaps_spec (hh : Markable g S h) (hr : Rooted S c h) (cores : List (Fin (n + 1)))
    {s : State w n} (hu : Unchanged h s.heap) {weaks : Fin (n + 1) → ℕ} {scanned : ℕ → Prop}
    (hlists : WeakLists g h s.heap weaks s.weaks scanned) :
    ∃ (s' : State w n) (fuel₀ : ℕ), (∀ fuel, fuel₀ ≤ fuel → localHeaps g c fuel cores s = some s') ∧
      Unchanged h s'.heap ∧
      WeakLists g h s'.heap weaks s'.weaks (fun p => scanned p ∨
        ∃ core ∈ cores, FromRoots (Scanned g false false h) (rootsInScope c core h) p) ∧
      (∀ core ∈ cores, Notes g h (rootsInScope c core h) (s'.reachable core)) ∧
      ∀ core ∉ cores, s'.reachable core = s.reachable core := by
  induction cores generalizing s scanned with
  | nil =>
    refine ⟨s, 0, fun _ _ => rfl, hu, hlists.congr fun p => ?_, nofun, fun _ _ => rfl⟩
    simp
  | cons core cores ih =>
    have hsame : rootsInScope c core s.heap = rootsInScope c core h := by
      rw [rootsInScope, localRoots_congr hu.objptr (fun p => (hu.same p).thread), rootsInScope]
    obtain ⟨l, r, fuel₁, hrun₁, hnodup, hmem, haux, hkept, hweak⟩ := markAndUnmark_spec
      (hu.markable hh) (rootsInScope c core) (fun p hp => hr.inScope (hsame ▸ hp))
      (fun h' hobjptr hthread => by
        rw [rootsInScope, localRoots_congr hobjptr hthread, rootsInScope]) (s.weaks core)
    rw [hsame, hu.scanned_eq] at hmem
    rw [hu.noted_eq] at haux
    obtain ⟨s', fuel₂, hrun₂, hu', hlists', hnotes, hother⟩ := ih
      (s := ⟨r.heap, update s.weaks core r.weaks, update s.reachable core r.aux⟩)
      (hu.trans hkept) (hlists.next hu hweak)
    refine ⟨s', max fuel₁ fuel₂, fun fuel hfuel => ?_, hu', hlists'.congr fun p => ?_,
      fun core' hcore' => ?_, fun core' hcore' => ?_⟩
    · rw [localHeaps, hrun₁ fuel (le_of_max_le_left hfuel)]
      exact hrun₂ fuel (le_of_max_le_right hfuel)
    · rw [hmem]
      simp [or_assoc]
    · by_cases hlater : core' ∈ cores
      · exact hnotes core' hlater
      · obtain rfl : core' = core := (mem_cons.1 hcore').resolve_right hlater
        rw [hother core' hlater]
        dsimp only
        rw [update_self, haux]
        refine ⟨hnodup.filter _, fun p => ?_⟩
        rw [mem_filter, hmem, and_comm]
    · rw [mem_cons, not_or] at hcore'
      rw [hother core' hcore'.2]
      exact update_of_ne hcore'.1 r.aux s.reachable

/-! ### The hash table -/

variable {map : List (SharingInfo n)}

/-- What the table says of the objects added to it, in whatever order: an object has a core if it
has been added for that core only. -/
structure Tallies (map : List (SharingInfo n)) (added : ℕ → Option (Fin (n + 1)) → Prop) :
    Prop where
  nodup : (map.map Prod.fst).Nodup
  keys : ∀ p, p ∈ map.map Prod.fst ↔ ∃ coreId, added p coreId
  exclusive : ∀ p core, (p, some core) ∈ map ↔
    added p (some core) ∧ ∀ coreId, added p coreId → coreId = some core

variable {added : ℕ → Option (Fin (n + 1)) → Prop}

theorem Tallies.eq_of_mem (ht : Tallies map added) {a b : Option (Fin (n + 1))}
    (ha : (p, a) ∈ map) (hb : (p, b) ∈ map) : a = b :=
  congrArg Prod.snd (inj_on_of_nodup_map ht.nodup ha hb rfl)

theorem Tallies.congr {added' : ℕ → Option (Fin (n + 1)) → Prop} (ht : Tallies map added)
    (hiff : ∀ p coreId, added p coreId ↔ added' p coreId) : Tallies map added' := by
  obtain rfl : added = added' := by
    funext p coreId
    exact propext (hiff p coreId)
  exact ht

/-- An object that is there under another core is marked as shared. -/
theorem Tallies.modify (ht : Tallies map added) {found coreId : Option (Fin (n + 1))}
    (hfound : (p, found) ∈ map) (hne : found ≠ coreId) :
    Tallies (map.map fun e => if e.1 = p then (p, none) else e)
      fun q x => added q x ∨ q = p ∧ x = coreId := by
  have hkeys : (map.map fun e => if e.1 = p then (p, none) else e).map Prod.fst =
      map.map Prod.fst := by
    rw [map_map]
    refine map_congr_left fun e _ => ?_
    rw [Function.comp_apply]
    split_ifs with he
    · exact he.symm
    · rfl
  have hkey : p ∈ map.map Prod.fst := mem_map_of_mem hfound
  refine ⟨hkeys ▸ ht.nodup, fun q => ?_, fun q core => ?_⟩
  · rw [hkeys, ht.keys]
    constructor
    · exact fun ⟨x, hx⟩ => ⟨x, .inl hx⟩
    · rintro ⟨x, hx | ⟨rfl, rfl⟩⟩
      · exact ⟨x, hx⟩
      · exact (ht.keys q).1 hkey
  · have hmem : (q, some core) ∈ map.map (fun e => if e.1 = p then (p, none) else e) ↔
        q ≠ p ∧ (q, some core) ∈ map := by
      rw [mem_map]
      constructor
      · rintro ⟨e, he, heq⟩
        split_ifs at heq with hep
        · cases heq
        · subst heq
          exact ⟨hep, he⟩
      · exact fun ⟨hqp, he⟩ => ⟨_, he, if_neg hqp⟩
    rw [hmem, ht.exclusive]
    by_cases hqp : q = p
    · subst hqp
      refine iff_of_false (fun hq => hq.1 rfl) fun ⟨_, hall⟩ => ?_
      -- the object has been added before, so for this core, and is in the table as such
      have hcore : coreId = some core := hall coreId (.inr ⟨rfl, rfl⟩)
      obtain ⟨x, hx⟩ := (ht.keys q).1 hkey
      have hold : added q (some core) := hall x (.inl hx) ▸ hx
      have hentry := (ht.exclusive q core).2 ⟨hold, fun y hy => hall y (.inl hy)⟩
      exact hne ((ht.eq_of_mem hfound hentry).trans hcore.symm)
    · simp [hqp]

theorem Tallies.add (ht : Tallies map added) (p : ℕ) (coreId : Option (Fin (n + 1))) :
    Tallies (addToHashTable map p coreId) fun q x => added q x ∨ q = p ∧ x = coreId := by
  unfold addToHashTable
  split
  case h_1 found hlookup =>
    obtain ⟨l₁, l₂, hmap, -⟩ := lookup_eq_some_iff.1 hlookup
    have hfound : (p, found) ∈ map := by
      rw [hmap]
      exact mem_append_right l₁ mem_cons_self
    split_ifs with hne
    · exact ht.modify hfound hne
    · obtain rfl : found = coreId := not_not.1 hne
      refine ⟨ht.nodup, fun q => ?_, fun q core => ?_⟩
      · rw [ht.keys]
        constructor
        · exact fun ⟨x, hx⟩ => ⟨x, .inl hx⟩
        · rintro ⟨x, hx | ⟨rfl, rfl⟩⟩
          · exact ⟨x, hx⟩
          · exact (ht.keys q).1 (mem_map_of_mem hfound)
      · by_cases hqp : q = p
        · subst hqp
          constructor
          · intro hq
            obtain ⟨hadd, hall⟩ := (ht.exclusive q core).1 hq
            refine ⟨.inl hadd, fun x hx => hx.elim (hall x) fun heq => heq.2.trans ?_⟩
            exact ht.eq_of_mem hfound hq
          · rintro ⟨-, hall⟩
            obtain rfl : found = some core := hall found (.inr ⟨rfl, rfl⟩)
            exact hfound
        · rw [ht.exclusive]
          simp [hqp]
  case h_2 hlookup =>
    have hkey : p ∉ map.map Prod.fst := by
      intro hp
      obtain ⟨e, he, rfl⟩ := mem_map.1 hp
      simpa using lookup_eq_none_iff.1 hlookup e he
    have hnone (x : Option (Fin (n + 1))) : ¬ added p x := fun hx => hkey ((ht.keys p).2 ⟨x, hx⟩)
    refine ⟨?_, fun q => ?_, fun q core => ?_⟩
    · rw [map_append, nodup_append]
      refine ⟨ht.nodup, nodup_singleton _, ?_⟩
      rintro a ha b hb rfl
      obtain rfl : a = p := mem_singleton.1 hb
      exact hkey ha
    · rw [map_append, mem_append, ht.keys]
      simp [exists_or]
    · rw [mem_append, ht.exclusive]
      by_cases hqp : q = p
      · subst hqp
        simp [hnone, eq_comm]
      · simp [hqp]

theorem Tallies.addAll (ht : Tallies map added) (reachable : List ℕ)
    (coreId : Option (Fin (n + 1))) :
    Tallies (addAll map reachable coreId) fun q x => added q x ∨ q ∈ reachable ∧ x = coreId := by
  induction reachable with
  | nil => exact ht.congr fun q x => by simp
  | cons p reachable ih =>
    refine (ih.add p coreId).congr fun q x => ?_
    rw [mem_cons, or_and_right, or_assoc]
    exact or_congr Iff.rfl or_comm

theorem sharingInfo_tallies (globalReachable : List ℕ) (reachable : Fin (n + 1) → List ℕ) :
    Tallies (sharingInfo globalReachable reachable) fun p coreId =>
      p ∈ globalReachable ∧ coreId = none ∨ ∃ core, p ∈ reachable core ∧ coreId = some core := by
  have hempty : Tallies ([] : List (SharingInfo n)) fun _ _ => False :=
    ⟨nodup_nil, fun p => by simp, fun p core => by simp⟩
  have hglobal := hempty.addAll globalReachable none
  have hfold (cores : List (Fin (n + 1))) {map : List (SharingInfo n)}
      {added : ℕ → Option (Fin (n + 1)) → Prop} (ht : Tallies map added) :
      Tallies (cores.foldl (fun map core => addAll map (reachable core) (some core)) map)
        fun p coreId =>
          added p coreId ∨ ∃ core ∈ cores, p ∈ reachable core ∧ coreId = some core := by
    induction cores generalizing map added with
    | nil => exact ht.congr fun p x => by simp
    | cons core cores ih =>
      refine (ih (ht.addAll (reachable core) (some core))).congr fun p x => ?_
      simp [or_assoc]
  refine (hfold (finRange (n + 1)) hglobal).congr fun p x => ?_
  simp

theorem pushExclusive_getD (core : Fin (n + 1)) :
    (pushExclusive map core).getD [] =
      (map.filter fun e => decide (e.2 = some core)).map Prod.fst := by
  have hfold (map : List (SharingInfo n)) (reachable : Fin (n + 1) → Option (List ℕ)) :
      ((map.foldl (fun reachable e => match e.2 with
        | none => reachable
        | some core => update reachable core (some ((reachable core).getD [] ++ [e.1])))
        reachable) core).getD [] = (reachable core).getD [] ++
          (map.filter fun e => decide (e.2 = some core)).map Prod.fst := by
    induction map generalizing reachable with
    | nil => simp
    | cons e map ih =>
      obtain ⟨p, coreId⟩ := e
      rw [foldl_cons, ih]
      cases coreId with
      | none => simp
      | some core' =>
        by_cases hcore : core' = core
        · subst hcore
          simp
        · simp [hcore, update_of_ne (Ne.symm hcore)]
  exact hfold map fun _ => none

/-! ### The whole computation -/

theorem fromRoots_append {reach : ℕ → ℕ → Prop} {l l' : List ℕ} :
    FromRoots reach (l ++ l') p ↔ FromRoots reach l p ∨ FromRoots reach l' p := by
  simp only [FromRoots, mem_append, or_and_right, exists_or]

theorem FromRoots.mono {reach : ℕ → ℕ → Prop} {l l' : List ℕ} (hsub : ∀ p ∈ l, p ∈ l')
    (hp : FromRoots reach l p) : FromRoots reach l' p := by
  obtain ⟨root, hroot, hpath⟩ := hp
  exact ⟨root, hsub root hroot, hpath⟩

/-- Reachable from the roots of one core, and from nothing else. -/
def ExclusiveTo (reach : ℕ → ℕ → Prop) (c : Config n) (h : Heap w) (core : Fin (n + 1)) (p : ℕ) :
    Prop :=
  FromRoots reach (localRoots c.offsetofStack (c.procs core) h) p ∧
    (∀ other, FromRoots reach (localRoots c.offsetofStack (c.procs other) h) p → other = core) ∧
    ¬ FromRoots reach ((globalRoots c).filter isPointer) p

/-- The lists are exact, and the heap is as it was. -/
structure Exact (g : Tables) (S : Finset ℕ) (c : Config n) (h : Heap w) (r : Result w n) :
    Prop where
  lists : ∀ core p, noted g h p = true →
    (p ∈ (r.reachable core).getD [] ↔ ExclusiveTo (Reachable g false h) c h core p)
  once : ∀ core, ((r.reachable core).getD []).Nodup
  unmarked : ∀ p ∈ S, isMarked (r.heap p).header = false
  unchanged : Unchanged h r.heap
  weaks : ∀ core, Ends (fun p => (r.heap p).weakLink) (r.weaks core)

/-- Every global is a pointer, no weak object with a target is marked, and it makes no difference
for the shared objects that marking does not go from a stack to its thread. -/
structure Undisturbed (g : Tables) (c : Config n) (h : Heap w) : Prop where
  globals : ∀ p ∈ c.globals, isPointer p = true
  weak : ∀ core p, FromRoots (Scanned g false false h) (rootsInScope c core h) p →
    hasTarget g (h p) = false
  threads : ∀ core p, noted g h p = true →
    (ExclusiveTo (Scanned g false false h) c h core p ↔
      ExclusiveTo (Reachable g false h) c h core p)

theorem mem_globalRoots (hp : p ∈ globalRoots c) (h : Heap w) :
    p ∈ c.globals ∨ ∃ core, p ∈ localRoots c.offsetofStack (c.procs core) h := by
  refine (mem_append.1 hp).imp id fun hp => ?_
  obtain ⟨core, -, hp⟩ := mem_flatMap.1 hp
  refine ⟨core, ?_⟩
  rcases mem_append.1 hp with hwba | hstack
  · obtain ⟨hmem, hpointer⟩ := mem_filter.1 hwba
    refine mem_filter.2 ⟨?_, hpointer⟩
    simp only [objptrsInExportableWBAs, objptrsInWBAs, mem_append] at hmem ⊢
    tauto
  · obtain ⟨hmem, hpointer⟩ := mem_filter.1 hstack
    refine mem_filter.2 ⟨?_, hpointer⟩
    simp only [mem_append, mem_flatMap]
    exact .inl (.inl (.inl (.inr ⟨p, hmem, mem_cons_self⟩)))

theorem mem_globalRoots_of_mem_globals (hp : p ∈ c.globals) : p ∈ globalRoots c :=
  mem_append_left _ hp

theorem computeExclusivityInformation_spec (hh : Markable g S h) (hr : Rooted S c h)
    (hglobals : ∀ p ∈ c.globals, isPointer p = true) (weaks : Fin (n + 1) → ℕ) :
    ∃ (r : Result w n) (fuel₀ : ℕ),
      (∀ fuel, fuel₀ ≤ fuel → computeExclusivityInformation g c fuel h weaks = some r) ∧
      Unchanged h r.heap ∧
      WeakLists g h r.heap weaks r.weaks (fun p => ∃ core,
        FromRoots (Scanned g false false h) (rootsInScope c core h) p) ∧
      (∀ core, ((r.reachable core).getD []).Nodup) ∧
      ∀ core p, p ∈ (r.reachable core).getD [] ↔
        noted g h p = true ∧ ExclusiveTo (Scanned g false false h) c h core p := by
  have hroots (p : ℕ) (hp : p ∈ globalRoots c) : isPointer p = true ∧ p ∈ S := by
    rcases mem_globalRoots hp h with hglobal | ⟨core, hlocal⟩
    · exact ⟨hglobals p hglobal, hr.globals p hglobal (hglobals p hglobal)⟩
    · exact ⟨(mem_filter.1 hlocal).2, hr.locals core p hlocal⟩
  have hfilter : (globalRoots c).filter isPointer = globalRoots c :=
    filter_eq_self.2 fun p hp => (hroots p hp).1
  have hscope (p : ℕ) (hp : FromRoots (Scanned g false false h) (globalRoots c) p) :
      ∃ core, FromRoots (Scanned g false false h) (rootsInScope c core h) p := by
    obtain ⟨root, hroot, hpath⟩ := hp
    rcases mem_globalRoots hroot h with hglobal | ⟨core, hlocal⟩
    · exact ⟨0, root, mem_append_left _ (mem_filter.2 ⟨hglobal, (hroots root hroot).1⟩),
        hpath⟩
    · exact ⟨core, root, mem_append_right _ hlocal, hpath⟩
  obtain ⟨l, r, fuel₁, hrun₁, hnodup, hmem, haux, hkept, hweak⟩ :=
    markAndUnmark_spec hh (fun _ => globalRoots c) hroots (fun _ _ _ => rfl) (weaks 0)
  have hlists : WeakLists g h h weaks weaks fun _ => False :=
    .inl ⟨fun _ hp => hp.elim, fun _ => rfl, rfl⟩
  obtain ⟨s, fuel₂, hrun₂, hu, hweaks, hnotes, -⟩ := localHeaps_spec hh hr (finRange (n + 1))
    (s := ⟨r.heap, update weaks 0 r.weaks, fun _ => []⟩) hkept
    (hlists.next (Unchanged.refl h) hweak)
  have ht := sharingInfo_tallies r.aux s.reachable
  refine ⟨⟨s.heap, s.weaks, pushExclusive (sharingInfo r.aux s.reachable)⟩, max fuel₁ fuel₂,
    fun fuel hfuel => ?_, hu, hweaks.congr fun p => ?_, fun core => ?_, fun core p => ?_⟩
  · rw [computeExclusivityInformation, hrun₁ fuel (le_of_max_le_left hfuel), Option.bind_some,
      hrun₂ fuel (le_of_max_le_right hfuel), Option.map_some]
  · simp only [false_or, mem_finRange, true_and, hmem]
    exact ⟨fun hp => hp.elim (hscope p) id, .inr⟩
  · dsimp only
    rw [pushExclusive_getD]
    exact ht.nodup.sublist ((filter_sublist).map Prod.fst)
  · have hcore (core : Fin (n + 1)) : p ∈ s.reachable core ↔ noted g h p = true ∧
        (FromRoots (Scanned g false false h) (c.globals.filter isPointer) p ∨
          FromRoots (Scanned g false false h) (localRoots c.offsetofStack (c.procs core) h) p) := by
      rw [(hnotes core (mem_finRange core)).mem, rootsInScope, fromRoots_append]
    have hglobal : p ∈ r.aux ↔
        noted g h p = true ∧ FromRoots (Scanned g false false h) (globalRoots c) p := by
      rw [haux, mem_filter, hmem, and_comm]
    have hsub (hp : FromRoots (Scanned g false false h) (c.globals.filter isPointer) p) :
        FromRoots (Scanned g false false h) (globalRoots c) p :=
      hp.mono fun q hq => mem_globalRoots_of_mem_globals (mem_filter.1 hq).1
    have hlist : p ∈ (pushExclusive (sharingInfo r.aux s.reachable) core).getD [] ↔
        (p, some core) ∈ sharingInfo r.aux s.reachable := by
      rw [pushExclusive_getD]
      simp
    dsimp only
    rw [hlist, ht.exclusive, ExclusiveTo, hfilter]
    simp only [hglobal, hcore]
    constructor
    · rintro ⟨⟨-, hnone⟩ | ⟨core', ⟨hnoted, hreach⟩, heq⟩, hall⟩
      · cases hnone
      · obtain rfl : core = core' := Option.some.inj heq
        have hnot (hp : FromRoots (Scanned g false false h) (globalRoots c) p) : False :=
          Option.some_ne_none core (hall none (.inl ⟨⟨hnoted, hp⟩, rfl⟩)).symm
        refine ⟨hnoted, hreach.resolve_left fun hp => hnot (hsub hp), fun other hp => ?_, hnot⟩
        exact Option.some.inj (hall (some other) (.inr ⟨other, ⟨hnoted, .inr hp⟩, rfl⟩))
    · rintro ⟨hnoted, hlocal, hothers, hnot⟩
      refine ⟨.inr ⟨core, ⟨hnoted, .inr hlocal⟩, rfl⟩, fun coreId hadded => ?_⟩
      rcases hadded with ⟨⟨-, hp⟩, -⟩ | ⟨core', ⟨-, hp⟩, rfl⟩
      · exact absurd hp hnot
      · rw [hothers core' (hp.resolve_left fun hp => hnot (hsub hp))]

/-- Where marking gets to the threads of the stacks too, it reaches all that is reachable. -/
theorem scanned_eq_reachable (hthread : ∀ p, (splitHeader g (h p).header).tag = .stack →
      isPointer (h p).thread = true → ∀ root, Scanned g false false h root p →
        Scanned g false false h root (h p).thread) :
    Scanned g false false h = Reachable g false h := by
  funext root p
  refine propext ⟨reachable_of_scanned, ?_⟩
  rintro ⟨-, hpath⟩
  induction hpath with
  | refl => exact ⟨rfl, .refl⟩
  | @tail p q _ hpoints ih =>
    obtain ⟨hmem, hpointer, henters⟩ := hpoints
    rcases mem_append.1 hmem with hslot | hstack
    · obtain ⟨off, hoff, rfl⟩ := mem_map.1 hslot
      have hfollows : follows g (plain .MARK_MODE false false false) (h p) ((h p).objptr off) =
          true := follows_plain_iff.2 ⟨hpointer, henters, nofun⟩
      exact ⟨rfl, ih.2.tail ⟨off, hoff, rfl, hfollows⟩⟩
    · split_ifs at hstack with htag
      · obtain rfl := mem_singleton.1 hstack
        exact hthread p htag hpointer root ih
      · exact absurd hstack not_mem_nil

/-- The computation comes to an end with exact lists, and with the heap as it was, if and only if
nothing disturbs it. -/
theorem exclusivity_exact_iff (hh : Markable g S h) (hr : Rooted S c h) {weaks : Fin (n + 1) → ℕ}
    (hends : ∀ core, Ends (fun p => (h p).weakLink) (weaks core)) :
    (∃ (r : Result w n) (fuel₀ : ℕ),
      (∀ fuel, fuel₀ ≤ fuel → computeExclusivityInformation g c fuel h weaks = some r) ∧
      Exact g S c h r) ↔ Undisturbed g c h := by
  by_cases hglobals : ∀ p ∈ c.globals, isPointer p = true
  · obtain ⟨r, fuel₀, hrun, hu, hweaks, honce, hlists⟩ :=
      computeExclusivityInformation_spec hh hr hglobals weaks
    have hunmarked (p : ℕ) (hp : p ∈ S) : isMarked (r.heap p).header = false := by
      rw [hu.header, hh.unmarked p hp]
    constructor
    · rintro ⟨r', fuel₁, hrun', hexact⟩
      obtain rfl : r = r' := by
        have heq := hrun (max fuel₀ fuel₁) (le_max_left _ _)
        rw [hrun' _ (le_max_right _ _)] at heq
        exact (Option.some.inj heq).symm
      refine ⟨hglobals, fun core p hp => ?_, fun core p hp => ?_⟩
      · rcases hweaks with ⟨hnone, -⟩ | ⟨-, core', hcyclic⟩
        · exact hnone p ⟨core, hp⟩
        · exact absurd (hexact.weaks core') hcyclic
      · rw [← hexact.lists core p hp, hlists, hp, eq_self_iff_true, true_and]
    · intro hall
      refine ⟨r, fuel₀, hrun, fun core p hp => ?_, honce, hunmarked, hu, fun core => ?_⟩
      · rw [hlists, hp, eq_self_iff_true, true_and, hall.threads core p hp]
      · rcases hweaks with ⟨-, hlinks, heq⟩ | ⟨⟨p, ⟨core', hp⟩, htarget⟩, -⟩
        · rw [heq]
          simpa only [hlinks] using hends core
        · rw [hall.weak core' p hp] at htarget
          exact Bool.noConfusion htarget
  · refine iff_of_false ?_ fun hall => hglobals hall.globals
    rintro ⟨r, fuel₀, hrun, -⟩
    simp only [not_forall, Bool.not_eq_true] at hglobals
    obtain ⟨p, hp, hpointer⟩ := hglobals
    have hfault := hrun fuel₀ le_rfl
    rw [computeExclusivityInformation, markAndUnmark,
      foreachRoot_eq_none (mem_globalRoots_of_mem_globals hp) hpointer] at hfault
    cases hfault

/-- Objects with one pointer each, and weak objects; the shared heap is at 8. -/
def exampleTables : Tables where
  model := ⟨8, 8, Model.eight_eq, Model.eight_eq⟩
  objectTypes i := if i = 3 then ⟨.weak, true, 8, 1⟩ else ⟨.normal, true, 0, 1⟩
  getFrameLayoutFromReturnAddress _ := ⟨[], 8⟩
  sharedHeapStart := 8
  sharedHeapSize := 40

/-- In the shared heap two objects at 8 and 24 that point to themselves, and a weak object at 40
whose target is at 24; and a local object at 64 that points to the one at 8. -/
def exampleHeap : Heap 64 := fun p =>
  { header := if p = 40 then 7#64 else 9#64
    arrayCounter := 0, arrayLength := 0
    objptr := fun _ => if p = 24 then 24 else 8
    returnAddress := fun _ => 0
    markTop := 0, markIndex := 0, reserved := 0, used := 0, thread := 1, isParasitic := false
    weakLink := 0, weakObjptr := if p = 40 then 24 else 1 }

/-- A processor with two roots. -/
def exampleProc (currentThread savedClosure : ℕ) : Proc where
  callFromCHandlerThread := 1
  currentThread := currentThread
  savedThread := 1
  signalHandlerThread := 1
  savedClosure := savedClosure
  pacmlThreadId := 1
  roots := []
  danglingStackList := []
  moveOnWBA := []
  preemptOnWBA := []
  spawnOnWBA := []
  schedulerQueue := []
  liftingObject := 1

theorem exampleHeap_markable : Markable exampleTables {8, 24, 40, 64} exampleHeap where
  width := by decide
  nonzero := by decide
  closed := by decide
  wellFormed p hp := by
    have htag : (splitHeader exampleTables (exampleHeap p).header).tag ≠ .stack ∧
        (splitHeader exampleTables (exampleHeap p).header).tag ≠ .array ∧
        (splitHeader exampleTables (exampleHeap p).header).numObjptrs = 1 ∧
        getCounter (exampleHeap p).header = 0 := by
      revert p
      decide
    obtain ⟨hstack, harray, hnum, hcounter⟩ := htag
    exact ⟨hcounter, fun h => absurd h harray, fun _ => by rw [hnum]; decide,
      fun h => absurd h hstack⟩
  unmarked := by decide

/-- Two cores, each with an object of its own in the shared heap. -/
def exampleConfig : Config 1 where
  procs core := if core.val = 0 then exampleProc 64 1 else exampleProc 24 1
  globals := []
  offsetofStack := 16

/-- A core that has a weak object. -/
def weakConfig : Config 0 where
  procs _ := exampleProc 64 40
  globals := []
  offsetofStack := 16

theorem exampleConfig_rooted : Rooted {8, 24, 40, 64} exampleConfig exampleHeap where
  globals := by decide
  locals := by decide

theorem weakConfig_rooted : Rooted {8, 24, 40, 64} weakConfig exampleHeap where
  globals := by decide
  locals := by decide

/-- A core may get to its weak object twice, and then its list of weak objects does not end. -/
theorem exclusivity_not_exact : ¬ ∀ (n : ℕ) (g : Tables) (S : Finset ℕ) (c : Config n) (h : Heap 64)
    (weaks : Fin (n + 1) → ℕ), Markable g S h → Rooted S c h →
      (∀ core, Ends (fun p => (h p).weakLink) (weaks core)) →
      ∃ (r : Result 64 n) (fuel₀ : ℕ),
        (∀ fuel, fuel₀ ≤ fuel → computeExclusivityInformation g c fuel h weaks = some r) ∧
        Exact g S c h r := by
  intro hclaim
  obtain ⟨r, fuel₀, hrun, hexact⟩ := hclaim 0 exampleTables {8, 24, 40, 64} weakConfig exampleHeap
    (fun _ => 0) exampleHeap_markable weakConfig_rooted fun _ => ⟨0, rfl⟩
  obtain ⟨r', fuel₁, hrun', -, hweaks, -⟩ := computeExclusivityInformation_spec
    exampleHeap_markable weakConfig_rooted nofun fun _ => 0
  obtain rfl : r = r' := by
    have heq := hrun (max fuel₀ fuel₁) (le_max_left _ _)
    rw [hrun' _ (le_max_right _ _)] at heq
    exact (Option.some.inj heq).symm
  rcases hweaks with ⟨hnone, -⟩ | ⟨-, core, hcyclic⟩
  · have hreach : FromRoots (Scanned exampleTables false false exampleHeap)
        (rootsInScope weakConfig 0 exampleHeap) 40 := ⟨40, by decide, rfl, .refl⟩
    exact absurd (hnone 40 ⟨0, hreach⟩) (by decide)
  · exact hcyclic (hexact.weaks core)

/-- Two cores that share nothing, and a weak object that is garbage. -/
theorem exclusivity_exact_exampleHeap : ∃ (r : Result 64 1) (fuel₀ : ℕ),
    (∀ fuel, fuel₀ ≤ fuel →
      computeExclusivityInformation exampleTables exampleConfig fuel exampleHeap (fun _ => 0) =
        some r) ∧
    Exact exampleTables {8, 24, 40, 64} exampleConfig exampleHeap r := by
  refine (exclusivity_exact_iff exampleHeap_markable exampleConfig_rooted fun _ => ⟨0, rfl⟩).2
    ⟨nofun, fun core p hp => ?_, fun core p _ => ?_⟩
  · obtain ⟨root, hroot, -, hpath⟩ := hp
    have hroots : ∀ core, ∀ root ∈ rootsInScope exampleConfig core exampleHeap,
        root = 64 ∨ root = 24 := by decide
    have hp : p = 8 ∨ p = 24 ∨ p = 64 := by
      induction hpath with
      | refl => exact (hroots core root hroot).elim (fun h => .inr (.inr h)) fun h => .inr (.inl h)
      | tail _ hscans ih =>
        obtain ⟨off, -, rfl, -⟩ := hscans
        rcases ih with rfl | rfl | rfl
        · exact .inl rfl
        · exact .inr (.inl rfl)
        · exact .inl rfl
    rcases hp with rfl | rfl | rfl <;> decide
  · have htag (p : ℕ) : (splitHeader exampleTables (exampleHeap p).header).tag ≠ .stack := by
      by_cases hp : p = 40
      · subst hp
        decide
      · have hheader : (exampleHeap p).header = 9#64 := if_neg hp
        rw [hheader]
        decide
    rw [scanned_eq_reachable fun p hstack => absurd hstack (htag p)]

end Exclusivity
end MultiMLton.GC
