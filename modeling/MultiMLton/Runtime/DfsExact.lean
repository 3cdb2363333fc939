import MultiMLton.Runtime.DfsSimulation

/-!
# What marking reaches and counts

`dfsMarkByMode` without hash-consing: the objects that are marked, the bytes that are returned, and
the run that takes the marks away.
-/

namespace MultiMLton.GC

open DfsMark List

variable {w : ℕ}

/-- The arguments of `dfsMarkByMode` with `emptyForeachObjectFun` and without hash-consing. -/
def plain (mode : MarkMode) (shouldLinkWeaks ignoreSharedHeap sizeEstimationForLifting : Bool) :
    DfsOptions w Unit where
  f := emptyForeachObjectFun
  onStack := none
  mode := mode
  shouldHashCons := none
  shouldLinkWeaks := shouldLinkWeaks
  ignoreSharedHeap := ignoreSharedHeap
  sizeEstimationForLifting := sizeEstimationForLifting

variable (g : Tables)

/-- `sizeofObject` -/
def objSize (ob : Obj w) : ℕ :=
  let t := splitHeader g ob.header
  match t.tag with
  | .normal => sizeofObject g.model (.normal t.bytesNonObjptrs t.numObjptrs)
  | .weak => sizeofObject g.model (.weak t.bytesNonObjptrs t.numObjptrs)
  | .array => sizeofObject g.model (.array ob.arrayLength t.bytesNonObjptrs t.numObjptrs)
  | .stack => sizeofObject g.model (.stack ob.reserved [])

/-- The pointers of an object that are not weak, the thread of a stack among them. -/
def strongPointers (ob : Obj w) : List ℕ :=
  (slots g ob).map ob.objptr ++ if (splitHeader g ob.header).tag = .stack then [ob.thread] else []

/-- Whether a pointer may be entered. -/
def enters (ignoreSharedHeap : Bool) (p : ℕ) : Bool :=
  !(ignoreSharedHeap && isPointerInSharedHeap g p)

/-- An object points to another one. -/
def PointsTo (ignoreSharedHeap : Bool) (h : Heap w) (p q : ℕ) : Prop :=
  q ∈ strongPointers g (h p) ∧ isPointer q = true ∧ enters g ignoreSharedHeap q = true

/-- Reachable through pointers that are not weak. -/
def Reachable (ignoreSharedHeap : Bool) (h : Heap w) (root p : ℕ) : Prop :=
  enters g ignoreSharedHeap root = true ∧ Relation.ReflTransGen (PointsTo g ignoreSharedHeap h) root p

/-- Reachable through the pointers that marking goes through. -/
def Scanned (ignoreSharedHeap sizeEstimationForLifting : Bool) (h : Heap w) (root p : ℕ) : Prop :=
  enters g ignoreSharedHeap root = true ∧
    Relation.ReflTransGen (Scans g (plain .MARK_MODE false ignoreSharedHeap
      sizeEstimationForLifting) h) root p

/-- A finite set of objects, closed under their pointers, of which none is marked. -/
structure Markable (S : Finset ℕ) (h : Heap w) : Prop where
  width : 32 ≤ w
  nonzero : 0 ∉ S
  closed : ∀ p ∈ S, ∀ q ∈ strongPointers g (h p), isPointer q = true → q ∈ S
  wellFormed : ∀ p ∈ S, (h p).WellFormed g
  unmarked : ∀ p ∈ S, isMarked (h p).header = false

open Classical in
/-- Marking is exact, and the run that follows undoes it. -/
structure ExactAndReversible (ignoreSharedHeap : Bool) (S : Finset ℕ) (h : Heap w) (root : ℕ)
    (r r' : DfsResult w Unit) : Prop where
  marks : ∀ p ∈ S, isMarked (r.heap p).header = true ↔ Reachable g ignoreSharedHeap h root p
  others : ∀ p, p ∉ S → r.heap p = h p
  size : r.size = ∑ p ∈ S.filter (Reachable g ignoreSharedHeap h root), objSize g (h p)
  pointers : ∀ p, (r.heap p).objptr = (h p).objptr ∧ SameFields (h p) (r.heap p)
  arrayCounters : ∀ p, (r.heap p).arrayCounter = (h p).arrayCounter
  counters : ∀ p, getCounter (r.heap p).header = getCounter (h p).header
  headers : ∀ p, (r'.heap p).header = (h p).header

/-- All that is reachable is reached and counted: there is no weak object, the threads of stacks are
reached by other pointers, and an estimation for lifting leaves nothing out. -/
structure NothingLeftOut (ignoreSharedHeap sizeEstimationForLifting : Bool) (h : Heap w) (root : ℕ) :
    Prop where
  weak : ∀ p, Scanned g ignoreSharedHeap sizeEstimationForLifting h root p →
    (splitHeader g (h p).header).tag ≠ .weak
  thread : ∀ p, Scanned g ignoreSharedHeap sizeEstimationForLifting h root p →
    (splitHeader g (h p).header).tag = .stack → isPointer (h p).thread = true →
    enters g ignoreSharedHeap (h p).thread = true →
    Scanned g ignoreSharedHeap sizeEstimationForLifting h root (h p).thread
  estimation : sizeEstimationForLifting = true →
    ∀ p, Scanned g ignoreSharedHeap sizeEstimationForLifting h root p →
      isPointerInSharedHeap g p = false ∧
        ((splitHeader g (h p).header).tag = .stack → (h p).isParasitic = true)

variable {g} {S : Finset ℕ} {h : Heap w} {root : ℕ} {ish sefl slw : Bool}

theorem Markable.setting (hh : Markable g S h) (mode : MarkMode) (slw ish sefl : Bool) :
    Setting g (plain mode slw ish sefl) h S where
  width := hh.width
  nonzero := hh.nonzero
  closed p hp off hoff hfollows := by
    refine hh.closed p hp _ ?_ (isPointer_of_follows hfollows)
    exact mem_append_left _ (mem_map_of_mem hoff)
  wellFormed := hh.wellFormed
  visitor _ _ _ _ _ := rfl
  continues _ _ _ _ _ := rfl
  noHashCons := rfl

/-! ### Runs -/

/-- A run that marks (or unmarks) what it scans, all of which is unmarked (or marked) before. -/
theorem run_plain {mode : MarkMode} (hset : Setting g (plain mode slw ish sefl) h S)
    (hroot : root ∈ S) (henters : enters g ish root = true)
    (hwhite : ∀ p ∈ S, Relation.ReflTransGen (Scans g (plain .MARK_MODE false ish sefl) h) root p →
      isPointerMarkedByMode (h p).header mode = false) (weaks : ℕ) :
    ∃ (l : List ℕ) (r : DfsResult w Unit) (fuel₀ : ℕ), (∀ fuel, fuel₀ ≤ fuel →
        dfsMarkByMode g (plain mode slw ish sefl) fuel h weaks () root = some r) ∧
      l.Nodup ∧ (∀ p ∈ l, p ∈ S) ∧ (∀ p ∈ S, p ∈ l ↔ isPointerMarkedByMode (h p).header mode = false ∧
        Scanned g ish sefl h root p) ∧
      r.size = (l.map fun p => bytesMarked g (plain mode slw ish sefl) (h p) p
        (splitHeader g (h p).header)).sum ∧
      (∀ p, p ∉ S → r.heap p = h p) ∧
      ∀ p ∈ S, Marked mode (h p) (r.heap p)
        (isPointerMarkedByMode (h p).header mode || decide (p ∈ l)) := by
  have hne : root ≠ 0 := fun heq => hset.nonzero (heq ▸ hroot)
  have hunmarked := hwhite root hroot .refl
  have hlocal : (ish && isPointerInSharedHeap g root) = false := by
    simpa only [enters, Bool.not_eq_true'] using henters
  obtain ⟨l, y, r, fuel₀, hrun, hvisits, hsearched, -, hsize, hothers, hmarked⟩ :=
    dfsMarkByMode_search hset (show (⟨root, hne⟩ : Node).1 ∈ S from hroot) hunmarked hlocal weaks ()
  have hmem := fun n : Node => hsearched.mem_iff (n := n) (hvisits.all_true fun _ _ => rfl)
  have hvals {n : Node} : n.1 ∈ (l.map Prod.fst).map Subtype.val ↔ n ∈ l.map Prod.fst :=
    mem_map_of_injective Subtype.val_injective
  refine ⟨(l.map Prod.fst).map Subtype.val, r, fuel₀, hrun,
    hsearched.nodup.map Subtype.val_injective, fun p hp => ?_, fun p hp => ?_, ?_, hothers,
    fun p hp => ?_⟩
  · obtain ⟨n, hn, rfl⟩ := mem_map.1 hp
    have hpath := ((hmem n).1 hn).2
    clear hp hn
    induction hpath with
    | refl => exact hroot
    | tail _ hedge ih => exact hset.edge _ ih _ hedge.2
  · have hp0 : p ≠ 0 := fun heq => hset.nonzero (heq ▸ hp)
    rw [show p = (⟨p, hp0⟩ : Node).1 from rfl, hvals, hmem]
    have hiff (q : ℕ) := white_path_iff hset (show (⟨root, hne⟩ : Node).1 ∈ S from hroot) hwhite
      (p := q)
    refine and_congr Iff.rfl ⟨fun hpath => ⟨henters, ?_⟩, fun hscanned => ?_⟩
    · exact (hiff p).1 ⟨_, rfl, hpath⟩
    · obtain ⟨n, hn, hpath⟩ := (hiff p).2 hscanned.2
      obtain rfl : n = ⟨p, hp0⟩ := Subtype.ext hn
      exact hpath
  · rw [hsize, bytesOf, map_map, map_map]
    rfl
  · have hp0 : p ≠ 0 := fun heq => hset.nonzero (heq ▸ hp)
    have hob := hmarked ⟨p, hp0⟩ hp
    have heq : ((heapOf g (plain mode slw ish sefl) h).markAll l).marked ⟨p, hp0⟩ =
        (isPointerMarkedByMode (h p).header mode ||
          decide (p ∈ (l.map Prod.fst).map Subtype.val)) := by
      have hiff : p ∈ (l.map Prod.fst).map Subtype.val ↔ (⟨p, hp0⟩ : Node) ∈ l.map Prod.fst :=
        hvals (n := ⟨p, hp0⟩)
      exact congrArg (isPointerMarkedByMode (h p).header mode || ·) (decide_eq_decide.2 hiff.symm)
    rw [heq] at hob
    exact hob

/-! ### Marking and unmarking -/

/-- The two runs, on a root that may be entered. -/
theorem mark_unmark (hh : Markable g S h) (hroot : root ∈ S) (henters : enters g ish root = true)
    (slw slw' sefl : Bool) (weaks weaks' : ℕ) :
    ∃ (l : List ℕ) (r r' : DfsResult w Unit) (fuel₀ : ℕ), (∀ fuel, fuel₀ ≤ fuel →
        dfsMarkByMode g (plain .MARK_MODE slw ish sefl) fuel h weaks () root = some r ∧
        dfsMarkByMode g (plain .UNMARK_MODE slw' ish sefl) fuel r.heap weaks' () root = some r') ∧
      l.Nodup ∧ (∀ p, p ∈ l ↔ p ∈ S ∧ Scanned g ish sefl h root p) ∧
      r.size = (l.map fun p => bytesMarked g (plain .MARK_MODE slw ish sefl) (h p) p
        (splitHeader g (h p).header)).sum ∧
      (∀ p, p ∉ S → r.heap p = h p) ∧ (∀ p ∈ S, Marked .MARK_MODE (h p) (r.heap p)
        (decide (p ∈ l))) ∧
      ∀ p, (r'.heap p).header = (h p).header := by
  have hwhite (p : ℕ) (hp : p ∈ S) : isPointerMarkedByMode (h p).header .MARK_MODE = false :=
    hh.unmarked p hp
  obtain ⟨l, r, fuel₁, hrun, hnodup, hl, hmem, hsize, hothers, hmarked⟩ :=
    run_plain (hh.setting .MARK_MODE slw ish sefl) hroot henters
      (fun p hp _ => hwhite p hp) weaks
  have hmarked (p : ℕ) (hp : p ∈ S) : Marked .MARK_MODE (h p) (r.heap p) (decide (p ∈ l)) := by
    have hob := hmarked p hp
    rwa [hwhite p hp, Bool.false_or] at hob
  have hmem (p : ℕ) : p ∈ l ↔ p ∈ S ∧ Scanned g ish sefl h root p := by
    constructor
    · exact fun hp => ⟨hl p hp, ((hmem p (hl p hp)).1 hp).2⟩
    · exact fun hp => (hmem p hp.1).2 ⟨hwhite p hp.1, hp.2⟩
  have hscans : Scans g (plain .MARK_MODE false ish sefl) r.heap =
      Scans g (plain .MARK_MODE false ish sefl) h := scans_eq hothers hmarked
  have hmark (p : ℕ) (hp : p ∈ S) : isMarked (r.heap p).header = decide (p ∈ l) := by
    rw [(hmarked p hp).header, isMarked_setMark _ _ hh.width (by decide)]
    rfl
  have hset' : Setting g (plain .UNMARK_MODE slw' ish sefl) r.heap S := by
    refine ⟨hh.width, hh.nonzero, fun p hp off hoff hfollows => ?_, fun p hp => ?_,
      fun _ _ _ _ _ => rfl, fun _ _ _ _ _ => rfl, rfl⟩
    · rw [(hmarked p hp).layout.slots] at hoff
      rw [(hmarked p hp).follows_eq, (hmarked p hp).objptr] at hfollows
      rw [(hmarked p hp).objptr]
      exact (hh.setting .MARK_MODE slw ish sefl).closed p hp off hoff hfollows
    · exact (hmarked p hp).wellFormed hh.width (hh.wellFormed p hp)
  have hblack (p : ℕ) (hp : p ∈ S)
      (hpath : Relation.ReflTransGen (Scans g (plain .MARK_MODE false ish sefl) r.heap) root p) :
      isPointerMarkedByMode (r.heap p).header .UNMARK_MODE = false := by
    rw [hscans] at hpath
    have hpl : p ∈ l := (hmem p).2 ⟨hp, henters, hpath⟩
    show (!isMarked (r.heap p).header) = false
    rw [hmark p hp]
    simpa using hpl
  obtain ⟨l', r', fuel₂, hrun', -, -, hmem', -, hothers', hmarked'⟩ :=
    run_plain hset' hroot henters hblack weaks'
  refine ⟨l, r, r', max fuel₁ fuel₂, fun fuel hfuel =>
    ⟨hrun fuel (le_of_max_le_left hfuel), hrun' fuel (le_of_max_le_right hfuel)⟩, hnodup, hmem,
    hsize, hothers, hmarked, fun p => ?_⟩
  by_cases hp : p ∈ S
  · have hiff : p ∈ l' ↔ p ∈ l := by
      rw [hmem' p hp, hmem p]
      simp only [Scanned, hscans]
      constructor
      · exact fun hpl => ⟨hp, hpl.2⟩
      · exact fun hpl => ⟨hblack p hp (hscans ▸ hpl.2.2), hpl.2⟩
    have hall : (isPointerMarkedByMode (r.heap p).header .UNMARK_MODE || decide (p ∈ l')) = true := by
      show (!isMarked (r.heap p).header || decide (p ∈ l')) = true
      rw [hmark p hp]
      by_cases hpl : p ∈ l <;> simp [hpl, hiff]
    have hheader := (hmarked' p hp).header
    rw [hall, (hmarked p hp).header] at hheader
    rw [hheader, setMark_setMark _ _ (by decide) _ (by decide)]
    have hself := setMark_self _ (hh.wellFormed p hp).counter
    rwa [hh.unmarked p hp] at hself
  · rw [hothers' p hp, hothers p hp]

/-! ### What is left out -/

/-- The bytes counted for an object are its size, or too few. -/
theorem bytesMarked_le (ob : Obj w) (p : ℕ) :
    bytesMarked g (plain (w := w) .MARK_MODE slw ish sefl) ob p (splitHeader g ob.header) ≤
      objSize g ob := by
  cases ht : (splitHeader g ob.header).tag <;> simp only [bytesMarked, objSize, ht, zero_le]
  all_goals
    split_ifs
    · exact le_rfl
    · exact Nat.zero_le _

theorem bytesMarked_eq_iff (ob : Obj w) (p : ℕ) :
    bytesMarked g (plain (w := w) .MARK_MODE slw ish sefl) ob p (splitHeader g ob.header) =
      objSize g ob ↔ (splitHeader g ob.header).tag ≠ .weak ∧ (sefl = true →
        isPointerInSharedHeap g p = false ∧
          ((splitHeader g ob.header).tag = .stack → ob.isParasitic = true)) := by
  have hpos (o : Shape) : sizeofObject g.model o ≠ 0 := (sizeofObject_pos g.model o).ne'
  cases ht : (splitHeader g ob.header).tag <;> simp only [bytesMarked, objSize, ht, plain]
  case weak => simp [(hpos _).symm]
  all_goals
    cases sefl <;> cases isPointerInSharedHeap g p <;> cases ob.isParasitic <;>
      simp [(hpos _).symm]

theorem follows_plain_iff {ob : Obj w} {q : ℕ} :
    follows g (plain (w := w) .MARK_MODE false ish sefl) ob q = true ↔
      isPointer q = true ∧ enters g ish q = true ∧ (sefl = true →
        (splitHeader g ob.header).tag = .stack → ob.isParasitic = true) := by
  by_cases ht : (splitHeader g ob.header).tag = .stack <;> cases hpar : ob.isParasitic <;>
    cases sefl <;> simp [follows, notFollowed, plain, enters, ht, hpar]

theorem pointsTo_of_scans {p q : ℕ}
    (hscans : Scans g (plain (w := w) .MARK_MODE false ish sefl) h p q) : PointsTo g ish h p q := by
  obtain ⟨off, hoff, rfl, hfollows⟩ := hscans
  obtain ⟨hpointer, henters, -⟩ := follows_plain_iff.1 hfollows
  exact ⟨mem_append_left _ (mem_map_of_mem hoff), hpointer, henters⟩

theorem reachable_of_scanned {p : ℕ} (hscanned : Scanned g ish sefl h root p) :
    Reachable g ish h root p :=
  ⟨hscanned.1, hscanned.2.lift id fun _ _ hscans => pointsTo_of_scans hscans⟩

theorem Reachable.mem (hh : Markable g S h) (hroot : root ∈ S) {p : ℕ}
    (hreach : Reachable g ish h root p) : p ∈ S := by
  obtain ⟨-, hpath⟩ := hreach
  induction hpath with
  | refl => exact hroot
  | tail _ hpoints ih => exact hh.closed _ ih _ hpoints.1 hpoints.2.1

/-- If nothing is left out, everything that is reachable is scanned. -/
theorem NothingLeftOut.scanned (hall : NothingLeftOut g ish sefl h root) {p : ℕ}
    (hreach : Reachable g ish h root p) : Scanned g ish sefl h root p := by
  obtain ⟨henters, hpath⟩ := hreach
  induction hpath with
  | refl => exact ⟨henters, .refl⟩
  | @tail p q _ hpoints ih =>
    obtain ⟨hmem, hpointer, hq⟩ := hpoints
    rcases mem_append.1 hmem with hslot | hthread
    · obtain ⟨off, hoff, rfl⟩ := mem_map.1 hslot
      have hfollows := follows_plain_iff.2 ⟨hpointer, hq, fun hsefl ht =>
        (hall.estimation hsefl p ih).2 ht⟩
      exact ⟨henters, ih.2.tail ⟨off, hoff, rfl, hfollows⟩⟩
    · by_cases ht : (splitHeader g (h p).header).tag = .stack
      · rw [if_pos ht, mem_singleton] at hthread
        subst hthread
        exact hall.thread p ih ht hpointer hq
      · rw [if_neg ht] at hthread
        exact absurd hthread not_mem_nil

open Classical in
/-- `dfsMarkByMode` without hash-consing and a second run that unmarks: both end, and they are exact
if and only if nothing is left out. -/
theorem dfsMark_exact_iff (hh : Markable g S h) (hroot : root ∈ S) (slw slw' ish sefl : Bool)
    (weaks weaks' : ℕ) :
    ∃ (r r' : DfsResult w Unit) (fuel₀ : ℕ), (∀ fuel, fuel₀ ≤ fuel →
        dfsMarkByMode g (plain .MARK_MODE slw ish sefl) fuel h weaks () root = some r ∧
        dfsMarkByMode g (plain .UNMARK_MODE slw' ish sefl) fuel r.heap weaks' () root = some r') ∧
      (ExactAndReversible g ish S h root r r' ↔ NothingLeftOut g ish sefl h root) := by
  cases henters : enters g ish root with
  | false =>
    have hunmarked := hh.unmarked root hroot
    have hskip : (ish && isPointerInSharedHeap g root) = true := by
      simpa only [enters, Bool.not_eq_false'] using henters
    have hnever {p : ℕ} (hreach : Reachable g ish h root p) : False := by
      rw [hreach.1] at henters
      exact Bool.noConfusion henters
    have hrun (fuel weaks : ℕ) (mode : MarkMode) (slw : Bool) :
        dfsMarkByMode g (plain mode slw ish sefl) fuel h weaks () root = some ⟨h, weaks, (), 0⟩ := by
      have hskip' : ((plain (w := w) mode slw ish sefl).ignoreSharedHeap
          && isPointerInSharedHeap g root) = true := hskip
      rw [dfsMarkByMode, if_pos hskip']
      split_ifs <;> rfl
    refine ⟨⟨h, weaks, (), 0⟩, ⟨h, weaks', (), 0⟩, 0, fun fuel _ => ⟨hrun .., hrun ..⟩, ?_⟩
    refine iff_of_true ⟨fun p hp => ?_, fun _ _ => rfl, ?_, fun p => ⟨rfl, ?_⟩, fun _ => rfl,
      fun _ => rfl, fun _ => rfl⟩ ⟨fun p hp => ?_, fun p hp => ?_, fun _ p hp => ?_⟩
    · simp only [hh.unmarked p hp, Bool.false_eq_true, false_iff]
      exact hnever
    · rw [Finset.filter_false_of_mem fun p _ hreach => hnever hreach, Finset.sum_empty]
    · exact ⟨rfl, rfl, rfl, rfl, rfl, rfl, rfl⟩
    · exact (hnever (reachable_of_scanned hp)).elim
    · exact (hnever (reachable_of_scanned hp)).elim
    · exact (hnever (reachable_of_scanned hp)).elim
  | true =>
    obtain ⟨l, r, r', fuel₀, hrun, hnodup, hmem, hsize, hothers, hmarked, hheaders⟩ :=
      mark_unmark hh hroot henters slw slw' sefl weaks weaks'
    refine ⟨r, r', fuel₀, hrun, ?_⟩
    have hscanned {p : ℕ} : p ∈ l ↔ Scanned g ish sefl h root p := by
      refine (hmem p).trans ⟨And.right, fun hp => ⟨(reachable_of_scanned hp).mem hh hroot, hp⟩⟩
    have hmark (p : ℕ) (hp : p ∈ S) : isMarked (r.heap p).header = true ↔ p ∈ l := by
      rw [(hmarked p hp).header, isMarked_setMark _ _ hh.width (by decide)]
      simp [markBit]
    have hsum : r.size = ∑ p ∈ l.toFinset, bytesMarked g (plain .MARK_MODE slw ish sefl) (h p) p
        (splitHeader g (h p).header) := by
      rw [hsize, List.sum_toFinset _ hnodup]
    constructor
    · intro hexact
      have hreach {p : ℕ} : Scanned g ish sefl h root p ↔ Reachable g ish h root p := by
        constructor
        · exact reachable_of_scanned
        · intro hp
          have hpS := hp.mem hh hroot
          exact hscanned.1 ((hmark p hpS).1 ((hexact.marks p hpS).2 hp))
      have hfilter : S.filter (Reachable g ish h root) = l.toFinset := by
        ext p
        rw [Finset.mem_filter, List.mem_toFinset, hmem, hreach]
      have heq := hexact.size
      rw [hfilter, hsum, Finset.sum_eq_sum_iff_of_le fun p _ => bytesMarked_le (h p) p] at heq
      have hcounted {p : ℕ} (hp : Scanned g ish sefl h root p) :=
        (bytesMarked_eq_iff (h p) p).1 (heq p (List.mem_toFinset.2 (hscanned.2 hp)))
      refine ⟨fun p hp => (hcounted hp).1, fun p hp ht hpointer hthread => ?_,
        fun hsefl p hp => (hcounted hp).2 hsefl⟩
      have hmemThread : (h p).thread ∈ strongPointers g (h p) := by
        refine List.mem_append_right _ ?_
        rw [if_pos ht]
        exact List.mem_singleton_self _
      obtain ⟨henters', hpath⟩ := reachable_of_scanned hp
      exact hreach.2 ⟨henters', hpath.tail ⟨hmemThread, hpointer, hthread⟩⟩
    · intro hall
      have hreach {p : ℕ} : Scanned g ish sefl h root p ↔ Reachable g ish h root p :=
        ⟨reachable_of_scanned, hall.scanned⟩
      have hfilter : S.filter (Reachable g ish h root) = l.toFinset := by
        ext p
        rw [Finset.mem_filter, List.mem_toFinset, hmem, hreach]
      have hsame (p : ℕ) : (r.heap p).objptr = (h p).objptr ∧ SameFields (h p) (r.heap p) ∧
          (r.heap p).arrayCounter = (h p).arrayCounter ∧
          getCounter (r.heap p).header = getCounter (h p).header := by
        by_cases hp : p ∈ S
        · have hob := hmarked p hp
          refine ⟨hob.objptr, hob.same, hob.arrayCounter, ?_⟩
          rw [hob.header, getCounter_setMark _ _ hh.width (by decide), (hh.wellFormed p hp).counter]
        · rw [hothers p hp]
          exact ⟨rfl, ⟨rfl, rfl, rfl, rfl, rfl, rfl, rfl⟩, rfl, rfl⟩
      refine ⟨fun p hp => ?_, hothers, ?_, fun p => ⟨(hsame p).1, (hsame p).2.1⟩,
        fun p => (hsame p).2.2.1, fun p => (hsame p).2.2.2, hheaders⟩
      · rw [hmark p hp, hscanned, hreach]
      · rw [hsum, hfilter]
        refine Finset.sum_congr rfl fun p hp => ?_
        have hp' := hscanned.1 (List.mem_toFinset.1 hp)
        exact (bytesMarked_eq_iff (h p) p).2 ⟨hall.weak p hp', fun hsefl =>
          hall.estimation hsefl p hp'⟩

/-- Objects with one pointer each, and weak objects. -/
def smallTables : Tables where
  model := ⟨8, 8, Model.eight_eq, Model.eight_eq⟩
  objectTypes i := if i = 0 then ⟨.normal, true, 0, 1⟩ else ⟨.weak, true, 8, 1⟩
  getFrameLayoutFromReturnAddress _ := ⟨[], 8⟩
  sharedHeapStart := 0
  sharedHeapSize := 0

/-- Two objects at 8 and 24 that point to each other, and a weak object at 40. -/
def smallHeap : Heap 64 := fun p =>
  { header := if p = 40 then 3#64 else 1#64
    arrayCounter := 0, arrayLength := 0
    objptr := fun _ => if p = 8 then 24 else 8
    returnAddress := fun _ => 0
    markTop := 0, markIndex := 0, reserved := 0, used := 0, thread := 1, isParasitic := false
    weakLink := 0, weakObjptr := 1 }

theorem smallHeap_markable : Markable smallTables {8, 24, 40} smallHeap where
  width := by decide
  nonzero := by decide
  closed := by decide
  wellFormed p hp := by
    have htag : (splitHeader smallTables (smallHeap p).header).tag ≠ .stack ∧
        (splitHeader smallTables (smallHeap p).header).tag ≠ .array ∧
        (splitHeader smallTables (smallHeap p).header).numObjptrs = 1 ∧
        getCounter (smallHeap p).header = 0 := by
      revert p
      decide
    obtain ⟨hstack, harray, hnum, hcounter⟩ := htag
    exact ⟨hcounter, fun h => absurd h harray, fun _ => by rw [hnum]; decide,
      fun h => absurd h hstack⟩
  unmarked := by decide

/-- Two objects that point to each other are marked exactly. -/
theorem dfsMark_exact_smallHeap : ∃ r r' : DfsResult 64 Unit,
    ExactAndReversible smallTables true {8, 24, 40} smallHeap 8 r r' := by
  have hroot : 8 ∈ ({8, 24, 40} : Finset ℕ) := by decide
  obtain ⟨r, r', -, -, hiff⟩ := dfsMark_exact_iff smallHeap_markable hroot true true true false 0 0
  refine ⟨r, r', hiff.2 ?_⟩
  have hscanned {p : ℕ} (hp : Scanned smallTables true false smallHeap 8 p) : p = 8 ∨ p = 24 := by
    obtain ⟨-, hpath⟩ := hp
    induction hpath with
    | refl => exact .inl rfl
    | tail _ hscans ih =>
      obtain ⟨off, -, rfl, -⟩ := hscans
      rcases ih with rfl | rfl
      · exact .inr rfl
      · exact .inl rfl
  have htag {p : ℕ} (hp : Scanned smallTables true false smallHeap 8 p) :
      (splitHeader smallTables (smallHeap p).header).tag = .normal := by
    rcases hscanned hp with rfl | rfl <;> decide
  refine ⟨fun p hp hweak => ?_, fun p hp hstack => ?_, nofun⟩
  · rw [htag hp] at hweak
    exact absurd hweak (by decide)
  · rw [htag hp] at hstack
    exact absurd hstack (by decide)

open Classical in
/-- The bytes of a weak object are not counted. -/
theorem dfsMark_not_exact : ¬ ∀ (g : Tables) (S : Finset ℕ) (h : Heap 64) (root : ℕ),
    Markable g S h → root ∈ S → ∀ (slw slw' ish : Bool) (weaks weaks' fuel : ℕ)
      (r r' : DfsResult 64 Unit),
      dfsMarkByMode g (plain .MARK_MODE slw ish false) fuel h weaks () root = some r →
      dfsMarkByMode g (plain .UNMARK_MODE slw' ish false) fuel r.heap weaks' () root = some r' →
      ExactAndReversible g ish S h root r r' := by
  intro hclaim
  have hrun : ∃ r r', dfsMarkByMode smallTables (plain .MARK_MODE false false false) 3 smallHeap 0 ()
      40 = some r ∧ dfsMarkByMode smallTables (plain .UNMARK_MODE false false false) 3 r.heap 0 ()
      40 = some r' ∧ r.size = 0 := ⟨_, _, rfl, rfl, rfl⟩
  obtain ⟨r, r', hmark, hunmark, hsize⟩ := hrun
  have hexact := hclaim smallTables {8, 24, 40} smallHeap 40 smallHeap_markable (by decide) false
    false false 0 0 3 r r' hmark hunmark
  have hmem : 40 ∈ ({8, 24, 40} : Finset ℕ).filter (Reachable smallTables false smallHeap 40) :=
    Finset.mem_filter.2 ⟨by decide, rfl, .refl⟩
  have hzero := hexact.size
  rw [hsize, eq_comm, Finset.sum_eq_zero_iff] at hzero
  exact absurd (hzero 40 hmem) (by decide)

end MultiMLton.GC
