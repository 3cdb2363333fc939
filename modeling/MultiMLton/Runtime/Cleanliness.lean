import MultiMLton.Runtime.DfsExact

/-!
# Cleanliness

The count of references in a header, as `GC_markCleanliness` of `gc/gc_state.c` keeps it, and the
closures that `gc/object-cleanliness.c` calls clean.  A processor allocates objects, stores pointers
and begins sessions; no local object points into a clean closure from outside.
-/

namespace MultiMLton.GC

open DfsMark Finset
open Function (update update_of_ne update_self)

variable {w : ℕ}

/-! ### The code -/

section

variable (g : Tables)

/-- `isWriteCleanMark`; the state of the visitor is `s->tmpBool`. -/
def isWriteCleanMark (useIdentityForCleanliness : Bool) (tmpPointer : ℕ) (tmpBool : Bool)
    (h : Header w) (p _parent : ℕ) : Bool × Bool :=
  let isClean :=
    if tmpPointer = p then decide (getNumReferences h = ZERO) else decide (getNumReferences h ≤ ONE)
  let isClean :=
    if !isClean && !(splitHeader g h).hasIdentity && useIdentityForCleanliness then true else isClean
  (tmpBool && isClean, tmpBool && isClean)

/-- `isSpawnCleanMark` -/
def isSpawnCleanMark (useIdentityForCleanliness : Bool) (sessionStart frontier tmpPointer : ℕ)
    (tmpBool : Bool) (h : Header w) (p _parent : ℕ) : Bool × Bool :=
  let n := getNumReferences h
  let isClean :=
    if n = ZERO then true
    else if n = ONE then decide (p ≠ tmpPointer)
    else if n = LOCAL_MANY then decide (p > sessionStart) && decide (p < frontier)
    else false
  let isClean :=
    if !isClean && !(splitHeader g h).hasIdentity && useIdentityForCleanliness then true else isClean
  (tmpBool && isClean, tmpBool && isClean)

/-- `isWriteCleanUnmark`, `isSpawnCleanUnmark` -/
def isCleanUnmark (tmpBool : Bool) (_h : Header w) (_p _parent : ℕ) : Bool × Bool := (tmpBool, true)

/-- The arguments with which a closure is marked and unmarked. -/
def cleanOptions (f : Bool → Header w → ℕ → ℕ → Bool × Bool) (mode : MarkMode) :
    DfsOptions w Bool where
  f := f
  onStack := some fun _ => false
  mode := mode
  shouldHashCons := none
  shouldLinkWeaks := false
  ignoreSharedHeap := true
  sizeEstimationForLifting := false

/-- What `__GC_isThreadClosureClean` and `GC_isObjectClosureClean` do with their visitor. -/
def isClosureClean (f : Bool → Header w → ℕ → ℕ → Bool × Bool) (fuel : ℕ) (h : Heap w) (weaks : ℕ)
    (p : ℕ) : Option (Bool × Heap w) :=
  if (splitHeader g (h p).header).tag = .stack then some (false, h)
  else
    (dfsMarkByMode g (cleanOptions f .MARK_MODE) fuel h weaks true p).bind fun r =>
      (dfsMarkByMode g (cleanOptions isCleanUnmark .UNMARK_MODE) fuel r.heap r.weaks r.aux p).map
        fun r' => (r.aux, r'.heap)

def GC_isObjectClosureClean (useIdentityForCleanliness : Bool) (fuel : ℕ) (h : Heap w) (weaks : ℕ)
    (p : ℕ) : Option (Bool × Heap w) :=
  isClosureClean g (isWriteCleanMark g useIdentityForCleanliness p) fuel h weaks p

def GC_isThreadClosureClean (useIdentityForCleanliness : Bool) (sessionStart frontier fuel : ℕ)
    (h : Heap w) (weaks : ℕ) (p : ℕ) : Option (Bool × Heap w) :=
  isClosureClean g (isSpawnCleanMark g useIdentityForCleanliness sessionStart frontier p) fuel h
    weaks p

end

/-- A processor: the heap, the objects of its local heap and the fields of `GC_state` that say where
the session began, where the next object goes and where the heap ends. -/
structure Mutator (w : ℕ) where
  heap : Heap w
  objects : Finset ℕ
  sessionStart : ℕ
  frontier : ℕ
  limitPlusSlop : ℕ

/-- The count that `GC_markCleanliness` writes. -/
def newCount (s : Mutator w) (target oldCount : ℕ) : ℕ :=
  if target < s.sessionStart ∨ target > s.limitPlusSlop then GLOBAL_MANY
  else if oldCount = ZERO then ONE
  else if oldCount = ONE ∨ oldCount = LOCAL_MANY then LOCAL_MANY
  else GLOBAL_MANY

def GC_markCleanliness (s : Mutator w) (target source : ℕ) : Mutator w :=
  if !isPointer source then s
  else
    let h := (s.heap source).header
    let oldCount := getNumReferences h
    if oldCount = newCount s target oldCount then s
    else { s with
      heap := s.heap.setHeader source (setNumReferences h (newCount s target oldCount)) }

/-! ### Runs -/

/-- The pointer fields of objects. -/
inductive Field
  | slot (off : ℕ)
  | thread
  | weak
  deriving DecidableEq

/-- The contents of a field. -/
def Obj.get (ob : Obj w) : Field → ℕ
  | .slot off => ob.objptr off
  | .thread => ob.thread
  | .weak => ob.weakObjptr

def Obj.set (ob : Obj w) (f : Field) (v : ℕ) : Obj w :=
  match f with
  | .slot off => { ob with objptr := update ob.objptr off v }
  | .thread => { ob with thread := v }
  | .weak => { ob with weakObjptr := v }

/-- The fields an object has. -/
def HasField (g : Tables) (ob : Obj w) : Field → Prop
  | .slot off => off ∈ slots g ob
  | .thread => (splitHeader g ob.header).tag = .stack
  | .weak => (splitHeader g ob.header).tag = .weak

/-- A store, and the call of `GC_markCleanliness` that goes with it. -/
def store (s : Mutator w) (target : ℕ) (f : Field) (v : ℕ) : Mutator w :=
  { s with heap := s.heap.modify target fun ob => ob.set f v }

/-- The processor allocates, stores and begins sessions.  The runtime sets the thread of a stack
itself, with or without the call. -/
inductive Mutates (g : Tables) : Mutator w → Mutator w → Prop
  | alloc (s : Mutator w) (p frontier' : ℕ) (ob : Obj w) (fresh : s.frontier < p) (lt : p < frontier')
      (le : frontier' ≤ s.limitPlusSlop) (inLocal : isPointerInSharedHeap g p = false)
      (wellFormed : ob.WellFormed g) (unmarked : isMarked ob.header = false)
      (count : getNumReferences ob.header = ZERO)
      (empty : ∀ f, HasField g ob f → isPointer (ob.get f) = false) :
      Mutates g s { s with
        heap := update s.heap p ob
        objects := insert p s.objects
        frontier := frontier' }
  | store (s : Mutator w) (target : ℕ) (f : Field) (v : ℕ) (mem : target ∈ s.objects)
      (hasField : HasField g (s.heap target) f)
      (value : isPointer v = true → v ∈ s.objects ∨ isPointerInSharedHeap g v = true) :
      Mutates g s (GC_markCleanliness (store s target f v) target v)
  | storeThread (s : Mutator w) (target v : ℕ) (mem : target ∈ s.objects)
      (hasField : HasField g (s.heap target) .thread)
      (value : isPointer v = true → v ∈ s.objects ∨ isPointerInSharedHeap g v = true) :
      Mutates g s (store s target .thread v)
  | newSession (s : Mutator w) : Mutates g s { s with sessionStart := s.frontier }

/-- The local heap is empty. -/
structure Start (s : Mutator w) : Prop where
  empty : s.objects = ∅
  sessionStart : s.sessionStart ≤ s.frontier
  frontier : s.frontier ≤ s.limitPlusSlop

/-- A run of the processor. -/
def Runs (g : Tables) (s : Mutator w) : Prop :=
  ∃ s₀, Start s₀ ∧ Relation.ReflTransGen (Mutates g) s₀ s

/-! ### References and their counts -/

/-- A field of a local object that refers to `n`, the thread of a stack apart. -/
structure Refers (g : Tables) (s : Mutator w) (q : ℕ) (f : Field) (n : ℕ) : Prop where
  mem : q ∈ s.objects
  ne_thread : f ≠ .thread
  hasField : HasField g (s.heap q) f
  eq : (s.heap q).get f = n

/-- What the count of an object says about the fields that refer to it. -/
structure CountOk (g : Tables) (s : Mutator w) (n : ℕ) : Prop where
  zero : getNumReferences (s.heap n).header = ZERO → ∀ q f, ¬ Refers g s q f n
  one : getNumReferences (s.heap n).header ≤ ONE →
    ∀ q f q' f', Refers g s q f n → Refers g s q' f' n → q = q' ∧ f = f'
  session : getNumReferences (s.heap n).header ≠ GLOBAL_MANY → s.sessionStart < n →
    ∀ q f, Refers g s q f n → s.sessionStart ≤ q

/-- The objects of the local heap lie between its start and the frontier, are well-formed, and point
to each other or into the shared heap. -/
structure Mutator.WellFormed (g : Tables) (s : Mutator w) : Prop where
  session : s.sessionStart ≤ s.frontier
  limit : s.frontier ≤ s.limitPlusSlop
  nonzero : 0 ∉ s.objects
  inLocal : ∀ p ∈ s.objects, isPointerInSharedHeap g p = false
  lt : ∀ p ∈ s.objects, p < s.frontier
  ne : ∀ p ∈ s.objects, p ≠ s.sessionStart
  wellFormed : ∀ p ∈ s.objects, (s.heap p).WellFormed g
  unmarked : ∀ p ∈ s.objects, isMarked (s.heap p).header = false
  closed : ∀ p ∈ s.objects, ∀ f, HasField g (s.heap p) f → isPointer ((s.heap p).get f) = true →
    (s.heap p).get f ∈ s.objects ∨ isPointerInSharedHeap g ((s.heap p).get f) = true

/-- The invariant of the runs. -/
structure Counted (g : Tables) (s : Mutator w) : Prop extends s.WellFormed g where
  count : ∀ n ∈ s.objects, CountOk g s n

/-! ### What the steps do to objects -/

section

variable {g : Tables} {s : Mutator w} {target v : ℕ}

variable {ob₀ ob : Obj w}

theorem HasField.congr (h : SameLayout g ob₀ ob) (f : Field) :
    HasField g ob f ↔ HasField g ob₀ f := by
  cases f <;> simp only [HasField, h.slots, h.splitHeader]

theorem SameLayout.refl (ob : Obj w) : SameLayout g ob ob := ⟨rfl, rfl, rfl, rfl⟩

theorem Obj.set_layout (ob : Obj w) (f : Field) (v : ℕ) : SameLayout g ob (ob.set f v) := by
  cases f <;> exact ⟨rfl, rfl, rfl, rfl⟩

theorem Obj.set_header (ob : Obj w) (f : Field) (v : ℕ) : (ob.set f v).header = ob.header := by
  cases f <;> rfl

theorem Obj.set_arrayCounter (ob : Obj w) (f : Field) (v : ℕ) :
    (ob.set f v).arrayCounter = ob.arrayCounter := by
  cases f <;> rfl

@[simp] theorem Obj.get_set (ob : Obj w) (f : Field) (v : ℕ) : (ob.set f v).get f = v := by
  cases f <;> simp [Obj.set, Obj.get]

theorem Obj.get_set_of_ne (ob : Obj w) {f f' : Field} (hne : f' ≠ f) (v : ℕ) :
    (ob.set f v).get f' = ob.get f' := by
  cases f <;> cases f' <;> simp_all [Obj.set, Obj.get]

/-- An object that differs by its count. -/
structure Recounted (ob₀ ob : Obj w) : Prop where
  fields : ob = { ob₀ with header := ob.header }
  header : ∃ n < 2 ^ 2, ob.header = setNumReferences ob₀.header n ∨ ob.header = ob₀.header

theorem Recounted.refl (ob : Obj w) : Recounted ob ob := ⟨rfl, 0, by decide, .inr rfl⟩

theorem Recounted.layout (h : Recounted ob₀ ob) : SameLayout g ob₀ ob := by
  obtain ⟨n, hn, hheader⟩ := h.header
  rw [h.fields]
  refine ⟨?_, rfl, rfl, rfl⟩
  rcases hheader with hheader | hheader <;> rw [hheader]
  rw [splitHeader, typeIndex_setNumReferences _ hn, splitHeader]

theorem Recounted.get (h : Recounted ob₀ ob) (f : Field) : ob.get f = ob₀.get f := by
  rw [h.fields]
  cases f <;> rfl

theorem Recounted.arrayCounter (h : Recounted ob₀ ob) : ob.arrayCounter = ob₀.arrayCounter := by
  rw [h.fields]

theorem Recounted.getCounter_eq (h : Recounted ob₀ ob) :
    getCounter ob.header = getCounter ob₀.header := by
  obtain ⟨n, hn, hheader | hheader⟩ := h.header
  · rw [hheader, getCounter_setNumReferences _ hn]
  · rw [hheader]

theorem Recounted.isMarked_eq (h : Recounted ob₀ ob) :
    isMarked ob.header = isMarked ob₀.header := by
  obtain ⟨n, hn, hheader | hheader⟩ := h.header
  · rw [hheader, isMarked_setNumReferences _ hn]
  · rw [hheader]

theorem newCount_lt (target n : ℕ) : newCount s target n < 2 ^ 2 := by
  unfold newCount
  split
  · decide
  · split
    · decide
    · split <;> decide

theorem GC_markCleanliness_recounted (target v p : ℕ) :
    Recounted (s.heap p) ((GC_markCleanliness s target v).heap p) := by
  simp only [GC_markCleanliness]
  split_ifs with hpointer hcount
  · exact .refl _
  · exact .refl _
  · by_cases hp : p = v
    · subst hp
      refine ⟨?_, newCount s target (getNumReferences (s.heap p).header), newCount_lt _ _, .inl ?_⟩
      · simp [Heap.setHeader, Heap.modify]
      · simp [Heap.setHeader, Heap.modify]
    · have heq : s.heap.setHeader v (setNumReferences (s.heap v).header
          (newCount s target (getNumReferences (s.heap v).header))) p = s.heap p :=
        update_of_ne hp _ _
      show Recounted (s.heap p) (s.heap.setHeader v (setNumReferences (s.heap v).header
          (newCount s target (getNumReferences (s.heap v).header))) p)
      rw [heq]
      exact .refl _

theorem GC_markCleanliness_other {p : ℕ} (hp : p ≠ v) :
    (GC_markCleanliness s target v).heap p = s.heap p := by
  simp only [GC_markCleanliness]
  split_ifs
  · rfl
  · rfl
  · exact update_of_ne hp _ _

theorem GC_markCleanliness_count (hw : 32 ≤ w) (hcounter : getCounter (s.heap v).header = 0)
    (hpointer : isPointer v = true) :
    getNumReferences ((GC_markCleanliness s target v).heap v).header =
      newCount s target (getNumReferences (s.heap v).header) := by
  simp only [GC_markCleanliness, hpointer, Bool.not_true, Bool.false_eq_true, if_false]
  split_ifs with hcount
  · exact hcount
  · have hheader : (s.heap.setHeader v (setNumReferences (s.heap v).header
        (newCount s target (getNumReferences (s.heap v).header))) v).header = setNumReferences
          (s.heap v).header (newCount s target (getNumReferences (s.heap v).header)) := by
      simp [Heap.setHeader, Heap.modify]
    rw [hheader, getNumReferences_setNumReferences _ hw hcounter (newCount_lt _ _)]

theorem GC_markCleanliness_frame (s : Mutator w) (target v : ℕ) :
    (GC_markCleanliness s target v).objects = s.objects ∧
      (GC_markCleanliness s target v).sessionStart = s.sessionStart ∧
      (GC_markCleanliness s target v).frontier = s.frontier ∧
      (GC_markCleanliness s target v).limitPlusSlop = s.limitPlusSlop := by
  simp only [GC_markCleanliness]
  split_ifs <;> exact ⟨rfl, rfl, rfl, rfl⟩

/-- What a store does to an object, its fields apart. -/
structure Stored (g : Tables) (ob₀ ob : Obj w) : Prop where
  layout : SameLayout g ob₀ ob
  header : ob.header = ob₀.header
  arrayCounter : ob.arrayCounter = ob₀.arrayCounter

theorem store_stored (f : Field) (p : ℕ) : Stored g (s.heap p) ((store s target f v).heap p) := by
  by_cases hp : p = target
  · subst hp
    have heq : (store s p f v).heap p = (s.heap p).set f v := by simp [store, Heap.modify]
    rw [heq]
    exact ⟨Obj.set_layout _ _ _, Obj.set_header _ _ _, Obj.set_arrayCounter _ _ _⟩
  · have heq : (store s target f v).heap p = s.heap p := update_of_ne hp _ _
    rw [heq]
    exact ⟨.refl _, rfl, rfl⟩

theorem store_get (f : Field) (p : ℕ) (f' : Field) :
    ((store s target f v).heap p).get f' =
      if p = target ∧ f' = f then v else (s.heap p).get f' := by
  by_cases hp : p = target
  · subst hp
    have heq : (store s p f v).heap p = (s.heap p).set f v := by simp [store, Heap.modify]
    rw [heq]
    by_cases hf : f' = f
    · subst hf
      simp
    · rw [Obj.get_set_of_ne _ hf, if_neg (fun h => hf h.2)]
  · have heq : (store s target f v).heap p = s.heap p := update_of_ne hp _ _
    rw [heq, if_neg (fun h => hp h.1)]

theorem Refers.of_store {f f' : Field} {q n : ℕ} (h : Refers g (store s target f v) q f' n) :
    (q = target ∧ f' = f ∧ v = n) ∨ Refers g s q f' n := by
  have heq := h.eq
  rw [store_get] at heq
  split_ifs at heq with hqf
  · exact .inl ⟨hqf.1, hqf.2, heq⟩
  · exact .inr ⟨h.mem, h.ne_thread, ((HasField.congr (store_stored f q).layout f').1 h.hasField), heq⟩

theorem Refers.of_mark {f : Field} {q n : ℕ} (h : Refers g (GC_markCleanliness s target v) q f n) :
    Refers g s q f n := by
  have hrecounted : Recounted (s.heap q) ((GC_markCleanliness s target v).heap q) :=
    GC_markCleanliness_recounted target v q
  refine ⟨(GC_markCleanliness_frame s target v).1 ▸ h.mem, h.ne_thread,
    (HasField.congr hrecounted.layout f).1 h.hasField, ?_⟩
  rw [← hrecounted.get]
  exact h.eq

theorem Mutator.WellFormed.store (hs : s.WellFormed g) {f : Field}
    (value : isPointer v = true → v ∈ s.objects ∨ isPointerInSharedHeap g v = true) :
    (store s target f v).WellFormed g := by
  have hob (p : ℕ) : Stored g (s.heap p) ((GC.store s target f v).heap p) := store_stored f p
  refine ⟨hs.session, hs.limit, hs.nonzero, hs.inLocal, hs.lt, hs.ne, fun p hp => ?_, fun p hp => ?_,
    fun p hp f' hf' hpointer => ?_⟩
  · refine (hob p).layout.wellFormed ?_ (hob p).arrayCounter (hs.wellFormed p hp)
    rw [(hob p).header, (hs.wellFormed p hp).counter]
  · rw [(hob p).header]
    exact hs.unmarked p hp
  · rw [store_get] at hpointer ⊢
    split_ifs at hpointer ⊢ with hpf
    · exact value hpointer
    · exact hs.closed p hp f' ((HasField.congr (hob p).layout f').1 hf') hpointer

theorem Mutator.WellFormed.mark (hs : s.WellFormed g) :
    (GC_markCleanliness s target v).WellFormed g := by
  obtain ⟨hobjects, hsession, hfrontier, hlimit⟩ := GC_markCleanliness_frame s target v
  have hob (p : ℕ) : Recounted (s.heap p) ((GC_markCleanliness s target v).heap p) :=
    GC_markCleanliness_recounted target v p
  refine ⟨?_, ?_, ?_, ?_, ?_, ?_, fun p hp => ?_, fun p hp => ?_, fun p hp f' hf' hpointer => ?_⟩
  · rw [hsession, hfrontier]
    exact hs.session
  · rw [hfrontier, hlimit]
    exact hs.limit
  · rw [hobjects]
    exact hs.nonzero
  · rw [hobjects]
    exact hs.inLocal
  · rw [hobjects, hfrontier]
    exact hs.lt
  · rw [hobjects, hsession]
    exact hs.ne
  · rw [hobjects] at hp
    refine (hob p).layout.wellFormed ?_ (hob p).arrayCounter (hs.wellFormed p hp)
    rw [(hob p).getCounter_eq, (hs.wellFormed p hp).counter]
  · rw [hobjects] at hp
    rw [(hob p).isMarked_eq]
    exact hs.unmarked p hp
  · rw [hobjects] at hp ⊢
    rw [(hob p).get] at hpointer ⊢
    exact hs.closed p hp f' ((HasField.congr (hob p).layout f').1 hf') hpointer

/-- A store and its call keep the counts right. -/
theorem CountOk.store (hw : 32 ≤ w) (hs : Counted g s) {f : Field} {n : ℕ} (hn : n ∈ s.objects) :
    CountOk g (GC_markCleanliness (store s target f v) target v) n := by
  have hcount := hs.count n hn
  have hheader : ((GC.store s target f v).heap n).header = (s.heap n).header :=
    (store_stored (g := g) f n).header
  obtain ⟨-, hsession, -, -⟩ := GC_markCleanliness_frame (GC.store s target f v) target v
  have hsession : (GC_markCleanliness (GC.store s target f v) target v).sessionStart =
      s.sessionStart := hsession
  by_cases hnv : n = v
  · subst hnv
    have hcounter : getCounter ((GC.store s target f n).heap n).header = 0 := by
      rw [hheader, (hs.wellFormed n hn).counter]
    have hpointer : isPointer n = true := by
      have hlocal := hs.inLocal n hn
      cases hp : isPointer n with
      | true => rfl
      | false => simp [isPointerInSharedHeap, hp] at hlocal
    have hnew : getNumReferences
        ((GC_markCleanliness (GC.store s target f n) target n).heap n).header =
          newCount s target (getNumReferences (s.heap n).header) := by
      rw [GC_markCleanliness_count hw hcounter hpointer, hheader]
      rfl
    have hrefers {q : ℕ} {f' : Field}
        (h : Refers g (GC_markCleanliness (GC.store s target f n) target n) q f' n) :
        (q = target ∧ f' = f) ∨ Refers g s q f' n :=
      h.of_mark.of_store.imp_left fun h => ⟨h.1, h.2.1⟩
    by_cases hout : target < s.sessionStart ∨ target > s.limitPlusSlop
    · have hnew : getNumReferences
          ((GC_markCleanliness (GC.store s target f n) target n).heap n).header = GLOBAL_MANY := by
        rw [hnew, newCount, if_pos hout]
      refine ⟨fun h => ?_, fun h => ?_, fun h => absurd hnew h⟩
      · rw [hnew] at h
        exact absurd h (by decide)
      · rw [hnew] at h
        exact absurd h (by decide)
    · have htarget : s.sessionStart ≤ target := not_lt.1 fun hlt => hout (.inl hlt)
      rw [newCount, if_neg hout] at hnew
      refine ⟨fun h => ?_, fun h => ?_, fun h hlt q f' hq => ?_⟩
      · rw [hnew] at h
        split_ifs at h <;> exact absurd h (by decide)
      · have hzero : getNumReferences (s.heap n).header = ZERO := by
          by_contra hne
          rw [hnew, if_neg hne] at h
          split_ifs at h <;> exact absurd h (by decide)
        intro q f₁ q' f₂ hq hq'
        have hnone := hcount.zero hzero
        rcases hrefers hq with ⟨rfl, rfl⟩ | hq
        · rcases hrefers hq' with ⟨rfl, rfl⟩ | hq'
          · exact ⟨rfl, rfl⟩
          · exact absurd hq' (hnone _ _)
        · exact absurd hq (hnone _ _)
      · rw [hsession] at hlt ⊢
        rcases hrefers hq with ⟨rfl, rfl⟩ | hq
        · exact htarget
        · refine hcount.session (fun hglobal => h ?_) hlt q f' hq
          rw [hnew, hglobal]
          rfl
  · have hsame : ((GC_markCleanliness (GC.store s target f v) target v).heap n).header =
        (s.heap n).header := by
      rw [GC_markCleanliness_other hnv, hheader]
    have hrefers {q : ℕ} {f' : Field}
        (h : Refers g (GC_markCleanliness (GC.store s target f v) target v) q f' n) :
        Refers g s q f' n :=
      h.of_mark.of_store.resolve_left fun h => hnv h.2.2.symm
    refine ⟨fun h q f' hq => ?_, fun h q f₁ q' f₂ hq hq' => ?_, fun h hlt q f' hq => ?_⟩
    · rw [hsame] at h
      exact hcount.zero h q f' (hrefers hq)
    · rw [hsame] at h
      exact hcount.one h q f₁ q' f₂ (hrefers hq) (hrefers hq')
    · rw [hsame] at h
      rw [hsession] at hlt ⊢
      exact hcount.session h hlt q f' (hrefers hq)

theorem isPointer_of_inLocal {p : ℕ} (h : isPointerInSharedHeap g p = false) : isPointer p = true := by
  cases hp : isPointer p with
  | true => rfl
  | false => simp [isPointerInSharedHeap, hp] at h

/-- Nothing refers to a fresh address. -/
theorem Mutator.WellFormed.not_refers_fresh (hs : s.WellFormed g) {p : ℕ} (hfresh : s.frontier < p)
    (hlocal : isPointerInSharedHeap g p = false) (q : ℕ) (f : Field) : ¬ Refers g s q f p := by
  intro href
  have hpointer : isPointer ((s.heap q).get f) = true := by
    rw [href.eq]
    exact isPointer_of_inLocal hlocal
  rcases hs.closed q href.mem f href.hasField hpointer with hmem | hshared
  · rw [href.eq] at hmem
    exact absurd (hs.lt p hmem) (by omega)
  · rw [href.eq, hlocal] at hshared
    exact Bool.noConfusion hshared

theorem Counted.alloc (hs : Counted g s) {p frontier' : ℕ} {ob : Obj w} (fresh : s.frontier < p)
    (lt : p < frontier') (le : frontier' ≤ s.limitPlusSlop)
    (inLocal : isPointerInSharedHeap g p = false) (wellFormed : ob.WellFormed g)
    (unmarked : isMarked ob.header = false)
    (empty : ∀ f, HasField g ob f → isPointer (ob.get f) = false) :
    Counted g { s with
      heap := update s.heap p ob
      objects := insert p s.objects
      frontier := frontier' } := by
  have hsession := hs.session
  have hold {q : ℕ} (hq : q ∈ s.objects) : q ≠ p := by
    have hlt := hs.lt q hq
    omega
  have hsame {q : ℕ} (hq : q ∈ s.objects) : update s.heap p ob q = s.heap q :=
    update_of_ne (hold hq) _ _
  have hself : update s.heap p ob p = ob := update_self ..
  have hpointer := isPointer_of_inLocal inLocal
  -- The new object refers to nothing.
  have hrefers {q : ℕ} {f : Field} {n : ℕ} (hn : isPointer n = true)
      (h : Refers g { s with
        heap := update s.heap p ob
        objects := insert p s.objects
        frontier := frontier' } q f n) : Refers g s q f n := by
    obtain ⟨hmem, hne, hfield, heq⟩ := h
    rcases mem_insert.1 hmem with rfl | hq
    · simp only [hself] at hfield heq
      rw [← heq, empty f hfield] at hn
      exact Bool.noConfusion hn
    · simp only [hsame hq] at hfield heq
      exact ⟨hq, hne, hfield, heq⟩
  constructor
  · constructor
    · show s.sessionStart ≤ frontier'
      omega
    · exact le
    · intro hzero
      rcases mem_insert.1 hzero with rfl | hzero
      · omega
      · exact hs.nonzero hzero
    · exact forall_mem_insert .. |>.2 ⟨inLocal, hs.inLocal⟩
    · refine (forall_mem_insert ..).2 ⟨lt, fun q hq => ?_⟩
      have hlt := hs.lt q hq
      show q < frontier'
      omega
    · refine (forall_mem_insert ..).2 ⟨?_, hs.ne⟩
      show p ≠ s.sessionStart
      omega
    · refine (forall_mem_insert ..).2 ⟨?_, fun q hq => ?_⟩
      · simpa only [hself] using wellFormed
      · simpa only [hsame hq] using hs.wellFormed q hq
    · refine (forall_mem_insert ..).2 ⟨?_, fun q hq => ?_⟩
      · simpa only [hself] using unmarked
      · simpa only [hsame hq] using hs.unmarked q hq
    · refine (forall_mem_insert ..).2 ⟨fun f hf hv => ?_, fun q hq f hf hv => ?_⟩
      · simp only [hself] at hf hv
        rw [empty f hf] at hv
        exact Bool.noConfusion hv
      · simp only [hsame hq] at hf hv ⊢
        exact (hs.closed q hq f hf hv).imp_left (mem_insert_of_mem ·)
  · refine (forall_mem_insert ..).2 ⟨?_, fun n hn => ?_⟩
    · have hnone (q : ℕ) (f : Field) : ¬ Refers g { s with
          heap := update s.heap p ob
          objects := insert p s.objects
          frontier := frontier' } q f p :=
        fun h => hs.not_refers_fresh fresh inLocal q f (hrefers hpointer h)
      exact ⟨fun _ => hnone, fun _ q f _ _ h => absurd h (hnone q f),
        fun _ _ q f h => absurd h (hnone q f)⟩
    · have hcount := hs.count n hn
      have hn' := isPointer_of_inLocal (hs.inLocal n hn)
      have hheader : (update s.heap p ob n).header = (s.heap n).header := by
        rw [hsame hn]
      refine ⟨fun h q f hq => ?_, fun h q f q' f' hq hq' => ?_, fun h hlt q f hq => ?_⟩
      · exact hcount.zero (hheader ▸ h) q f (hrefers hn' hq)
      · exact hcount.one (hheader ▸ h) q f q' f' (hrefers hn' hq) (hrefers hn' hq')
      · exact hcount.session (hheader ▸ h) hlt q f (hrefers hn' hq)

/-- The thread of a stack is not counted. -/
theorem Counted.storeThread (hs : Counted g s)
    (value : isPointer v = true → v ∈ s.objects ∨ isPointerInSharedHeap g v = true) :
    Counted g (GC.store s target .thread v) := by
  refine ⟨hs.toWellFormed.store value, fun n hn => ?_⟩
  have hcount := hs.count n hn
  have hheader : ((GC.store s target .thread v).heap n).header = (s.heap n).header :=
    (store_stored (g := g) .thread n).header
  have hrefers {q : ℕ} {f : Field} (h : Refers g (GC.store s target .thread v) q f n) :
      Refers g s q f n :=
    h.of_store.resolve_left fun heq => h.ne_thread heq.2.1
  refine ⟨fun h q f hq => ?_, fun h q f q' f' hq hq' => ?_, fun h hlt q f hq => ?_⟩
  · exact hcount.zero (hheader ▸ h) q f (hrefers hq)
  · exact hcount.one (hheader ▸ h) q f q' f' (hrefers hq) (hrefers hq')
  · exact hcount.session (hheader ▸ h) hlt q f (hrefers hq)

/-- A session begins at the frontier, behind all objects. -/
theorem Counted.newSession (hs : Counted g s) :
    Counted g { s with sessionStart := s.frontier } := by
  refine ⟨⟨le_rfl, hs.limit, hs.nonzero, hs.inLocal, hs.lt, fun p hp => (hs.lt p hp).ne,
    hs.wellFormed, hs.unmarked, hs.closed⟩, fun n hn => ?_⟩
  have hcount := hs.count n hn
  have hrefers {q : ℕ} {f : Field} (h : Refers g { s with sessionStart := s.frontier } q f n) :
      Refers g s q f n := ⟨h.mem, h.ne_thread, h.hasField, h.eq⟩
  refine ⟨fun h q f hq => hcount.zero h q f (hrefers hq), fun h q f q' f' hq hq' =>
    hcount.one h q f q' f' (hrefers hq) (hrefers hq'), fun _ hlt => ?_⟩
  exact absurd hlt (hs.lt n hn).not_gt

theorem Counted.step (hw : 32 ≤ w) {s' : Mutator w} (hs : Counted g s) (h : Mutates g s s') :
    Counted g s' := by
  cases h with
  | alloc p frontier' ob fresh lt le inLocal wellFormed unmarked count empty =>
    exact hs.alloc fresh lt le inLocal wellFormed unmarked empty
  | store target f v mem hasField value =>
    refine ⟨(hs.toWellFormed.store value).mark, fun n hn => ?_⟩
    rw [(GC_markCleanliness_frame _ _ _).1] at hn
    exact CountOk.store hw hs hn
  | storeThread target v mem hasField value => exact hs.storeThread value
  | newSession => exact hs.newSession

theorem Start.counted (hs : Start s) : Counted g s := by
  have hnone (p : ℕ) : p ∉ s.objects := by simp [hs.empty]
  exact ⟨⟨hs.sessionStart, hs.frontier, hnone 0, fun p hp => absurd hp (hnone p),
    fun p hp => absurd hp (hnone p), fun p hp => absurd hp (hnone p),
    fun p hp => absurd hp (hnone p), fun p hp => absurd hp (hnone p),
    fun p hp => absurd hp (hnone p)⟩, fun n hn => absurd hn (hnone n)⟩

/-- The counts are right in every run. -/
theorem Runs.counted (hw : 32 ≤ w) (h : Runs g s) : Counted g s := by
  obtain ⟨s₀, hstart, hpath⟩ := h
  induction hpath with
  | refl => exact hstart.counted
  | tail _ hstep ih => exact ih.step hw hstep

end

/-! ### Closures -/

/-- `q` has a field, of those that are looked at, that refers to `n`. -/
def PointsInto (g : Tables) (s : Mutator w) (fields : Field → Prop) (q n : ℕ) : Prop :=
  q ∈ s.objects ∧ ∃ f, fields f ∧ HasField g (s.heap q) f ∧ (s.heap q).get f = n

/-- The local closure of `p`. -/
def LocalClosure (g : Tables) (s : Mutator w) (fields : Field → Prop) (p n : ℕ) : Prop :=
  Relation.ReflTransGen (fun q n => n ∈ s.objects ∧ PointsInto g s fields q n) p n

/-- Objects outside the local closure of `p` that point into it have a property. -/
def OutsideOnly (g : Tables) (s : Mutator w) (fields : Field → Prop) (p : ℕ) (allowed : ℕ → Prop) :
    Prop :=
  ∀ q ∈ s.objects, ¬ LocalClosure g s fields p q →
    ∀ n, LocalClosure g s fields p n → PointsInto g s fields q n → allowed q

/-- The pointers that the program sees: all but the thread of a stack. -/
def counted (f : Field) : Prop := f ≠ .thread

/-- A stack belongs to the thread that it names: "The thread that points to this stack." -/
def StackOwned (g : Tables) (s : Mutator w) : Prop :=
  ∀ q ∈ s.objects, (splitHeader g (s.heap q).header).tag = .stack → (s.heap q).thread ∈ s.objects →
    PointsInto g s counted (s.heap q).thread q ∧
      ∀ q', PointsInto g s counted q' q → q' = (s.heap q).thread

/-- The closure has no weak object. -/
def NoWeak (g : Tables) (s : Mutator w) (p : ℕ) : Prop :=
  ∀ n, LocalClosure g s counted p n → (splitHeader g (s.heap n).header).tag ≠ .weak

section

variable {g : Tables} {s : Mutator w} {p : ℕ}

theorem Refers.of_pointsInto {q n : ℕ} (h : PointsInto g s counted q n) : ∃ f, Refers g s q f n := by
  obtain ⟨hq, f, hne, hfield, heq⟩ := h
  exact ⟨f, hq, hne, hfield, heq⟩

theorem LocalClosure.mem {fields : Field → Prop} {n : ℕ} (hp : p ∈ s.objects)
    (h : LocalClosure g s fields p n) : n ∈ s.objects := by
  induction h with
  | refl => exact hp
  | tail _ hstep _ => exact hstep.1

/-- The threads of stacks add nothing to a closure whose root is not a stack. -/
theorem localClosure_thread (hstack : StackOwned g s) (hp : p ∈ s.objects)
    (hroot : (splitHeader g (s.heap p).header).tag ≠ .stack) {n : ℕ} :
    LocalClosure g s (fun _ => True) p n ↔ LocalClosure g s counted p n := by
  constructor
  · intro h
    induction h with
    | refl => exact .refl
    | @tail q n _ hstep ih =>
      obtain ⟨hn, hq, f, -, hfield, heq⟩ := hstep
      by_cases hf : f = .thread
      · subst hf
        have htag : (splitHeader g (s.heap q).header).tag = .stack := hfield
        have hthread : (s.heap q).thread = n := heq
        obtain ⟨-, hunique⟩ := hstack q hq htag (hthread ▸ hn)
        -- The stack was reached from its thread.
        rcases Relation.ReflTransGen.cases_tail ih with rfl | ⟨q', hpath, hstep⟩
        · exact absurd htag hroot
        · rw [hunique q' hstep.2, hthread] at hpath
          exact hpath
      · exact ih.tail ⟨hn, hq, f, hf, hfield, heq⟩
  · intro h
    exact h.lift id fun _ _ hstep => ⟨hstep.1, hstep.2.1, hstep.2.2.imp fun _ hf => ⟨trivial, hf.2⟩⟩

theorem OutsideOnly.thread (hstack : StackOwned g s) (hp : p ∈ s.objects)
    (hroot : (splitHeader g (s.heap p).header).tag ≠ .stack) {allowed : ℕ → Prop}
    (h : OutsideOnly g s counted p allowed) : OutsideOnly g s (fun _ => True) p allowed := by
  intro q hq hout n hn hpoints
  rw [localClosure_thread hstack hp hroot] at hout hn
  obtain ⟨-, f, -, hfield, heq⟩ := hpoints
  by_cases hf : f = .thread
  · subst hf
    have hthread : (s.heap q).thread = n := heq
    obtain ⟨hpoints, -⟩ := hstack q hq hfield (hthread ▸ hn.mem hp)
    rw [hthread] at hpoints
    exact absurd (hn.tail ⟨hq, hpoints⟩) hout
  · exact h q hq hout n hn ⟨hq, f, hf, hfield, heq⟩

/-- Marking goes through the closure. -/
theorem LocalClosure.scans (f : Bool → Header w → ℕ → ℕ → Bool × Bool) (mode : MarkMode)
    (hs : s.WellFormed g) (hweak : NoWeak g s p) {n : ℕ} (h : LocalClosure g s counted p n) :
    Relation.ReflTransGen (Scans g (cleanOptions f mode) s.heap) p n := by
  induction h with
  | refl => exact .refl
  | @tail q n hpath hstep ih =>
    obtain ⟨hn, hq, fd, hne, hfield, heq⟩ := hstep
    refine ih.tail ?_
    cases fd with
    | slot off =>
      refine ⟨off, hfield, heq, ?_⟩
      have hlocal := hs.inLocal n hn
      simp [follows, notFollowed, cleanOptions, hlocal, isPointer_of_inLocal hlocal]
    | thread => exact absurd rfl hne
    | weak => exact absurd hfield (hweak q hpath)

/-! ### The queries -/

variable {f : Bool → Header w → ℕ → ℕ → Bool × Bool}

theorem Mutator.WellFormed.setting (hw : 32 ≤ w) (hs : s.WellFormed g) (mode : MarkMode)
    (hf : ∀ x header p prev prev', f x header p prev = f x header p prev') :
    Setting g (cleanOptions f mode) s.heap s.objects where
  width := hw
  nonzero := hs.nonzero
  closed p hp off hoff hfollows := by
    simp only [follows, notFollowed, cleanOptions, Bool.false_and, Bool.or_false, Bool.true_and,
      Bool.not_or, Bool.not_not, Bool.and_eq_true, Bool.not_eq_true'] at hfollows
    refine (hs.closed p hp (.slot off) hoff hfollows.1).resolve_right fun hshared => ?_
    have hlocal : isPointerInSharedHeap g ((s.heap p).objptr off) = false := hfollows.2
    exact Bool.noConfusion (hlocal.symm.trans hshared)
  wellFormed := hs.wellFormed
  visitor := hf
  continues := nofun
  noHashCons := rfl

/-- A visitor for cleanliness: it goes on as long as the objects pass a test. -/
def Tests (f : Bool → Header w → ℕ → ℕ → Bool × Bool) (c : Header w → ℕ → Bool) : Prop :=
  ∀ x header p prev, f x header p prev = (x && c header p, x && c header p)

/-- A search that says "clean" has gone into every object, and they have passed the test. -/
theorem visits_clean {c : Header w → ℕ → Bool}
    (hf : Tests f c) {mode : MarkMode} {h : Heap w} {x y : Bool} {l : List (Node × Bool)}
    (hvisits : PointerReversal.Visits (visitor g (cleanOptions f mode) h) x l y) (hy : y = true) :
    x = true ∧ ∀ a ∈ l.map Prod.fst, (a, true) ∈ l ∧ c (h a).header a = true := by
  induction hvisits with
  | nil => exact ⟨hy, nofun⟩
  | @cons x y n l _ ih =>
    obtain ⟨hx, ih⟩ := ih hy
    have htest : x = true ∧ c (h n).header n = true ∧
        (visitor g (cleanOptions f mode) h x n).2 = true := by
      simp only [visitor, cleanOptions, hf x _ _ _] at hx ⊢
      split_ifs at hx ⊢
      have hboth := (Bool.and_eq_true ..).mp hx
      exact ⟨hboth.1, hboth.2, hx⟩
    refine ⟨htest.1, fun a ha => ?_⟩
    rcases List.mem_cons.1 ha with rfl | ha
    · refine ⟨?_, htest.2.1⟩
      rw [htest.2.2]
      exact List.mem_cons_self
    · exact ⟨List.mem_cons_of_mem _ (ih a ha).1, (ih a ha).2⟩

/-- Both searches of a query end, and the answer is about the closure. -/
theorem isClosureClean_spec (hw : 32 ≤ w) (hs : s.WellFormed g) (hp : p ∈ s.objects)
    (hweak : NoWeak g s p) {c : Header w → ℕ → Bool} (hf : Tests f c) (weaks : ℕ) :
    ∃ b h' fuel₀, (∀ fuel, fuel₀ ≤ fuel → isClosureClean g f fuel s.heap weaks p = some (b, h')) ∧
      (b = true → (splitHeader g (s.heap p).header).tag ≠ .stack ∧
        ∀ n, LocalClosure g s counted p n → c (s.heap n).header n = true) := by
  by_cases hstack : (splitHeader g (s.heap p).header).tag = .stack
  · refine ⟨false, s.heap, 0, fun fuel _ => ?_, nofun⟩
    rw [isClosureClean, if_pos hstack]
  · have hset := hs.setting hw (f := f) .MARK_MODE fun x header p prev prev' => by
      rw [hf x header p prev, hf x header p prev']
    have hne : p ≠ 0 := fun heq => hs.nonzero (heq ▸ hp)
    have hroot : (⟨p, hne⟩ : Node).1 ∈ s.objects := hp
    have hlocal := hs.inLocal p hp
    obtain ⟨l, y, r, fuel₁, hrun, hvisits, hsearched, haux, -, -, hob⟩ :=
      dfsMarkByMode_search hset hroot (hs.unmarked p hp) ((Bool.true_and _).trans hlocal) weaks true
    -- The second search begins where the first one has ended.
    have hlayout (q : ℕ) (hq : q ∈ s.objects) :
        ∃ m, Marked .MARK_MODE (s.heap q) (r.heap q) m :=
      ⟨_, hob ⟨q, fun heq => hs.nonzero (heq ▸ hq)⟩ hq⟩
    have hset' : Setting g (cleanOptions (isCleanUnmark (w := w)) .UNMARK_MODE) r.heap s.objects := by
      refine ⟨hw, hs.nonzero, fun q hq off hoff hfollows => ?_, fun q hq => ?_, fun _ _ _ _ _ => rfl,
        nofun, rfl⟩
      · obtain ⟨m, hm⟩ := hlayout q hq
        rw [hm.layout.slots] at hoff
        rw [hm.follows_eq, hm.objptr] at hfollows
        rw [hm.objptr]
        exact hset.closed q hq off hoff hfollows
      · obtain ⟨m, hm⟩ := hlayout q hq
        exact hm.wellFormed hw (hs.wellFormed q hq)
    have hmem : (⟨p, hne⟩ : Node) ∈ l.map Prod.fst :=
      (hsearched.covers _ rfl).resolve_left fun hmarked => by
        have hunmarked : isMarked (s.heap p).header = true := hmarked
        rw [hs.unmarked p hp] at hunmarked
        exact Bool.noConfusion hunmarked
    have hmarked : isPointerMarkedByMode (r.heap p).header .UNMARK_MODE = false := by
      have hheader := (hob ⟨p, hne⟩ hp).header
      rw [(PointerReversal.Heap.markAll_marked ..).2 (.inr hmem)] at hheader
      have hbit : isMarked (r.heap p).header = true := by
        rw [hheader, isMarked_setMark _ _ hw (by decide)]
        rfl
      simp only [isPointerMarkedByMode, hbit, Bool.not_true]
    obtain ⟨-, -, r', fuel₂, hrun', -⟩ := dfsMarkByMode_search hset' hroot hmarked
      ((Bool.true_and _).trans hlocal) r.weaks r.aux
    refine ⟨r.aux, r'.heap, max fuel₁ fuel₂, fun fuel hfuel => ?_, fun hclean => ⟨hstack, fun n hn => ?_⟩⟩
    · rw [isClosureClean, if_neg hstack, hrun fuel (le_of_max_le_left hfuel), Option.bind_some,
        hrun' fuel (le_of_max_le_right hfuel), Option.map_some]
    · have hall := (visits_clean hf hvisits (haux ▸ hclean)).2
      have hpath := hn.scans f .MARK_MODE hs hweak
      have hwhite (q : ℕ) (hq : q ∈ s.objects) : isPointerMarkedByMode (s.heap q).header
          MarkMode.MARK_MODE = false := hs.unmarked q hq
      obtain ⟨n', rfl, hpath'⟩ :=
        (white_path_iff hset hroot fun q hq _ => hwhite q hq).2 hpath
      have hn' := (hsearched.mem_iff fun a ha => (hall a ha).1).2
        ⟨hwhite n' (hn.mem hp), hpath'⟩
      exact (hall n' hn').2

/-! ### The tests of the visitors -/

def writeTest (root : ℕ) (header : Header w) (n : ℕ) : Bool :=
  if root = n then decide (getNumReferences header = ZERO)
  else decide (getNumReferences header ≤ ONE)

def spawnTest (sessionStart frontier root : ℕ) (header : Header w) (n : ℕ) : Bool :=
  if getNumReferences header = ZERO then true
  else if getNumReferences header = ONE then decide (n ≠ root)
  else if getNumReferences header = LOCAL_MANY then
    decide (n > sessionStart) && decide (n < frontier)
  else false

theorem isWriteCleanMark_tests (root : ℕ) :
    Tests (isWriteCleanMark g false root) (writeTest (w := w) root) := by
  intro x header p prev
  simp only [isWriteCleanMark, writeTest, Bool.and_false, Bool.false_eq_true, if_false]

theorem isSpawnCleanMark_tests (sessionStart frontier root : ℕ) :
    Tests (isSpawnCleanMark g false sessionStart frontier root)
      (spawnTest (w := w) sessionStart frontier root) := by
  intro x header p prev
  simp only [isSpawnCleanMark, spawnTest, Bool.and_false, Bool.false_eq_true, if_false]

/-- An object of the closure that is referred to at most once, and is not the root, is referred to by
the closure. -/
theorem Counted.inner (hs : Counted g s) (hp : p ∈ s.objects) {q n : ℕ} {f : Field}
    (hn : LocalClosure g s counted p n) (hne : n ≠ p)
    (hone : getNumReferences (s.heap n).header ≤ ONE) (hq : Refers g s q f n) :
    LocalClosure g s counted p q := by
  rcases Relation.ReflTransGen.cases_tail hn with rfl | ⟨q', hpath, -, hpoints⟩
  · exact absurd rfl hne
  · obtain ⟨f', hq'⟩ := Refers.of_pointsInto hpoints
    rw [((hs.count n (hn.mem hp)).one hone q f q' f' hq hq').1]
    exact hpath

theorem Counted.write_outside (hs : Counted g s) (hp : p ∈ s.objects)
    (hall : ∀ n, LocalClosure g s counted p n → writeTest p (s.heap n).header n = true) :
    OutsideOnly g s counted p fun _ => False := by
  intro q _ hout n hn hpoints
  obtain ⟨f, hq⟩ := Refers.of_pointsInto hpoints
  have htest := hall n hn
  by_cases hroot : p = n
  · rw [writeTest, if_pos hroot, decide_eq_true_eq] at htest
    exact (hs.count n (hn.mem hp)).zero htest q f hq
  · rw [writeTest, if_neg hroot, decide_eq_true_eq] at htest
    exact hout (hs.inner hp hn (Ne.symm hroot) htest hq)

theorem Counted.spawn_outside (hs : Counted g s) (hp : p ∈ s.objects)
    (hall : ∀ n, LocalClosure g s counted p n →
      spawnTest s.sessionStart s.frontier p (s.heap n).header n = true) :
    OutsideOnly g s counted p fun q => s.sessionStart < q ∧ q < s.frontier := by
  intro q hmem hout n hn hpoints
  obtain ⟨f, hq⟩ := Refers.of_pointsInto hpoints
  have hcount := hs.count n (hn.mem hp)
  have htest := hall n hn
  simp only [spawnTest] at htest
  split_ifs at htest with hzero hone hmany
  · exact absurd hq (hcount.zero hzero q f)
  · rw [decide_eq_true_eq] at htest
    exact absurd (hs.inner hp hn htest hone.le hq) hout
  · simp only [Bool.and_eq_true, decide_eq_true_eq] at htest
    have hglobal : getNumReferences (s.heap n).header ≠ GLOBAL_MANY := by
      rw [hmany]
      decide
    have hle := hcount.session hglobal htest.1 q f hq
    exact ⟨lt_of_le_of_ne hle (hs.ne q hmem).symm, hs.lt q hmem⟩

/-- What the answer "clean" means: among the pointers that the program sees, and among all pointers
when stacks belong to their threads. -/
def Isolated (g : Tables) (s : Mutator w) (p : ℕ) (allowed : ℕ → Prop) : Prop :=
  OutsideOnly g s counted p allowed ∧
    (StackOwned g s → OutsideOnly g s (fun _ => True) p allowed)

/-- After every run, both queries end; a closure without weak objects that is clean for a write is
pointed into from nowhere, and one that is clean for a spawn only from the session. -/
theorem clean_closure_isolated (hw : 32 ≤ w) (hruns : Runs g s) (hp : p ∈ s.objects)
    (hweak : NoWeak g s p) (weaks : ℕ) :
    (∃ b h' fuel₀, (∀ fuel, fuel₀ ≤ fuel →
        GC_isObjectClosureClean g false fuel s.heap weaks p = some (b, h')) ∧
      (b = true → Isolated g s p fun _ => False)) ∧
    (∃ b h' fuel₀, (∀ fuel, fuel₀ ≤ fuel → GC_isThreadClosureClean g false s.sessionStart s.frontier
        fuel s.heap weaks p = some (b, h')) ∧
      (b = true → Isolated g s p fun q => s.sessionStart < q ∧ q < s.frontier)) := by
  have hs := hruns.counted hw
  constructor
  · obtain ⟨b, h', fuel₀, hrun, hclean⟩ :=
      isClosureClean_spec hw hs.toWellFormed hp hweak (isWriteCleanMark_tests p) weaks
    refine ⟨b, h', fuel₀, hrun, fun hb => ?_⟩
    obtain ⟨hroot, hall⟩ := hclean hb
    have hout := hs.write_outside hp hall
    exact ⟨hout, fun hstack => hout.thread hstack hp hroot⟩
  · obtain ⟨b, h', fuel₀, hrun, hclean⟩ := isClosureClean_spec hw hs.toWellFormed hp hweak
      (isSpawnCleanMark_tests s.sessionStart s.frontier p) weaks
    refine ⟨b, h', fuel₀, hrun, fun hb => ?_⟩
    obtain ⟨hroot, hall⟩ := hclean hb
    have hout := hs.spawn_outside hp hall
    exact ⟨hout, fun hstack => hout.thread hstack hp hroot⟩

end

/-- An object whose pointer is not set, and a heap of such objects. -/
def blank : Obj 64 where
  header := 1#64
  arrayCounter := 0
  arrayLength := 0
  objptr _ := 1
  returnAddress _ := 0
  markTop := 0
  markIndex := 0
  reserved := 0
  used := 0
  thread := 1
  isParasitic := false
  weakLink := 0
  weakObjptr := 1

/-- Two objects at 8 and 24; the pointer of the first one is not set yet. -/
def twoObjects : Mutator 64 where
  heap := update (update (fun _ => blank) 8 blank) 24 blank
  objects := insert 24 (insert 8 ∅)
  sessionStart := 0
  frontier := 32
  limitPlusSlop := 64

theorem runs_twoObjects : Runs smallTables twoObjects := by
  have hempty (f : Field) (hf : HasField smallTables blank f) : isPointer (blank.get f) = false := by
    cases f <;> rfl
  have hwellFormed : blank.WellFormed smallTables :=
    ⟨by decide, fun h => absurd h (by decide), fun _ => by decide, fun h => absurd h (by decide)⟩
  refine ⟨⟨fun _ => blank, ∅, 0, 0, 64⟩, ⟨rfl, le_rfl, by decide⟩, .tail (.tail .refl
    (.alloc _ 8 16 blank ?_ ?_ ?_ ?_ hwellFormed ?_ ?_ hempty))
    (.alloc _ 24 32 blank ?_ ?_ ?_ ?_ hwellFormed ?_ ?_ hempty)⟩ <;> decide

/-- The first object is made to point to the second one. -/
def pair : Mutator 64 := GC_markCleanliness (store twoObjects 8 (.slot 0) 24) 8 24

/-- The first object is clean. -/
theorem clean_closure_isolated_pair :
    (GC_isObjectClosureClean smallTables false 20 pair.heap 0 8).map Prod.fst = some true ∧
      (∃ b h' fuel₀, (∀ fuel, fuel₀ ≤ fuel →
          GC_isObjectClosureClean smallTables false fuel pair.heap 0 8 = some (b, h')) ∧
        (b = true → Isolated smallTables pair 8 fun _ => False)) := by
  have hfield : HasField smallTables (twoObjects.heap 8) (.slot 0) := by
    show 0 ∈ slots smallTables (twoObjects.heap 8)
    decide
  have hruns : Runs smallTables pair := by
    obtain ⟨s₀, hstart, hpath⟩ := runs_twoObjects
    exact ⟨s₀, hstart, hpath.tail (.store _ 8 (.slot 0) 24 (by decide) hfield fun _ =>
      .inl (by decide))⟩
  have hp : 8 ∈ pair.objects := by decide
  have htag : ∀ n ∈ pair.objects, (splitHeader smallTables (pair.heap n).header).tag ≠ .weak := by
    decide
  exact ⟨rfl, (clean_closure_isolated (by decide) hruns hp (fun n hn => htag n (hn.mem hp)) 0).1⟩

end MultiMLton.GC
