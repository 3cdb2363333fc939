import Mathlib
import MultiMLton.Lib.Interleave
import MultiMLton.Lib.Tiling
import MultiMLton.Runtime.Object

/-!
# Chunks of the shared heap

`allocChunkInSharedHeap` and `fillGap` of `gc/garbage-collection.c`, the layout that
`setGCStateCurrentSharedHeap` of `gc/gc_state.c` starts from, and the filling at the head of
`performSharedGC`.

Each processor owns the bytes from its `sharedFrontier` to `GC_BONUS_SLOP` after its
`sharedLimitPlusSlop`.  The frontier of the heap is the only word that the processors share; what
a processor owns is read and written by that processor alone, until a collection, which waits for
all of them.  One attempt of a call is three steps: the read of the frontier, the filling of the
old gap, the compare-and-swap.  The memory is the objects that are in it, each at the place of its
first word: a write of an object removes what was in its bytes.

* `fillGaps`: what `performSharedGC` does to the gaps of all processors;
* `walk`: the heap read object by object;
* `Tiled`: the objects, the fillers and the gaps tile the heap up to the frontier;
* `parseable`: so it is in every run, if the chunks keep the alignment;
* `misaligned`: with 8-byte headers and 8-byte alignment `GC_BONUS_SLOP` is 12, and the frontiers
  of two processors are not both aligned.
-/

namespace MultiMLton.GC.SharedChunk

open Interleave List Option Function Nat
open Config (forall_put)

/-- `GC_BONUS_SLOP`: a header and a `GC_smallGapSize`. -/
def bonusSlop (m : Model) : ℕ := m.headerSize + 4

/-- `GC_HEAP_LIMIT_SLOP` -/
def heapLimitSlop : ℕ := 512

def isFrontierAligned (m : Model) (p : ℕ) : Prop := m.alignment ∣ p + m.headerSize

/-- The objects in the memory. -/
abbrev Memory := ℕ → Option Shape

/-- The memory after `o` is written to the bytes from `p` up to `stop`. -/
def Memory.write (h : Memory) (p stop : ℕ) (o : Shape) : Memory := fun q =>
  if q = p then some o else if p < q ∧ q < stop then none else h q

/-- The memory with these objects. -/
def Memory.ofObjects (objects : List (ℕ × Shape)) : Memory := fun p =>
  (objects.find? fun o => o.1 = p).map Prod.snd

/-- The object that `fillGap` writes to a gap of `diff` bytes; `none` is `exit (1)`.  The array is
of type `GC_WORD8_VECTOR_HEADER`. -/
def filler (m : Model) (diff : ℕ) : Option Shape :=
  if diff ≥ m.arrayHeaderSize + m.objptrSize then some (.array (diff - m.arrayHeaderSize) 1 0)
  else if diff = m.headerSize then some .headerOnly
  else if diff ≥ bonusSlop m then some (.fill (diff - (m.headerSize + 4)))
  else none

def fillGap (m : Model) (h : Memory) (start stop : ℕ) : Option Memory :=
  let diff := stop - start
  if diff = 0 then some h
  else if start = 0 then some h
  else (filler m diff).map (h.write start stop)

/-- The objects from `front` up to `back`, each at the end of the one before it, and where the last
one ends.  `none`: there is no object at some place. -/
def walk (m : Model) (h : Memory) : ℕ → ℕ → ℕ → Option (List (ℕ × Shape) × ℕ)
  | 0, front, back => if front < back then none else some ([], front)
  | fuel + 1, front, back =>
    if front < back then
      (h front).bind fun o =>
        (walk m h fuel (front + sizeofObject m o) back).map fun r => ((front, o) :: r.1, r.2)
    else some ([], front)

/-- Where a processor is in `allocChunkInSharedHeap`: outside, before the read of the frontier,
before the filling of the gap, before the compare-and-swap, in `performSharedGC`, or after
`exit (1)`. -/
inductive Pc
  | idle
  | reading (bytesRequested : ℕ)
  | filling (bytesRequested oldFrontier : ℕ)
  | swapping (bytesRequested oldFrontier newHeapFrontier newStart newProcFrontier : ℕ)
  | collecting (bytesRequested : ℕ)
  | exited

/-- The part of the state of a processor that is about the shared heap. -/
structure Proc where
  sharedStart : ℕ
  sharedFrontier : ℕ
  sharedLimitPlusSlop : ℕ
  sharedLimit : ℕ
  pc : Pc

/-- `sharedLimitPlusSlop + GC_BONUS_SLOP`, where the bytes of the processor end. -/
def Proc.chunkEnd (m : Model) (l : Proc) : ℕ := l.sharedLimitPlusSlop + bonusSlop m

/-- The frontier of the heap and the memory; beside them, which objects were allocated, and the
gaps that processors have left behind. -/
structure Shared where
  frontier : ℕ
  memory : Memory
  objects : List (ℕ × Shape)
  gaps : List (ℕ × ℕ)

/-- What does not change between two collections. -/
structure SharedHeap where
  model : Model
  start : ℕ
  availableSize : ℕ
  allocChunkSize : ℕ

namespace SharedHeap

variable (S : SharedHeap)

/-- Where the heap walkers start. -/
def front : ℕ := alignFrontier S.model S.start

/-- `allocChunkInSharedHeap`, from the read of `s->sharedHeap->frontier` on. -/
def attempt (bytesRequested oldFrontier : ℕ) (l : Proc) : Pc :=
  let availableBytes := S.start + S.availableSize - oldFrontier
  if bytesRequested ≤ l.sharedLimitPlusSlop - l.sharedFrontier then .idle
  else
    let bytesRequested := if bytesRequested < S.allocChunkSize then S.allocChunkSize
      else bytesRequested
    if bytesRequested + bonusSlop S.model > availableBytes then
      .collecting (bytesRequested + bonusSlop S.model)
    else if oldFrontier = l.chunkEnd S.model then
      .swapping bytesRequested oldFrontier
        (l.sharedFrontier + bytesRequested + bonusSlop S.model) l.sharedStart l.sharedFrontier
    else .filling bytesRequested oldFrontier

/-- What a processor does next: call `allocChunkInSharedHeap`, allocate an object in its chunk, or
go on in the call. -/
inductive Act
  | call (bytesRequested : ℕ)
  | allocate (o : Shape)
  | next

/-- One step of a processor. -/
def step {n : ℕ} (_ : Fin n) (k : Act) (s : Shared) (l : Proc) :
    Option (Shared × Proc) :=
  match k, l.pc with
  | .call bytesRequested, .idle =>
    if S.model.alignment ∣ bytesRequested then
      some (s, { l with pc := .reading bytesRequested })
    else none
  | .allocate o, .idle =>
    let stop := l.sharedFrontier + sizeofObject S.model o
    if S.model.alignment ∣ sizeofObject S.model o ∧ stop ≤ l.sharedLimitPlusSlop then
      some ({ s with memory := s.memory.write l.sharedFrontier stop o
                     objects := (l.sharedFrontier, o) :: s.objects },
        { l with sharedFrontier := stop })
    else none
  | .next, .reading bytesRequested =>
    some (s, { l with pc := S.attempt bytesRequested s.frontier l })
  | .next, .filling bytesRequested oldFrontier =>
    match fillGap S.model s.memory l.sharedFrontier (l.chunkEnd S.model) with
    | none => some (s, { l with pc := .exited })
    | some memory =>
      let newHeapFrontier := oldFrontier + bytesRequested + bonusSlop S.model
      some ({ s with memory := memory },
        { l with pc := .swapping bytesRequested oldFrontier newHeapFrontier oldFrontier
                         oldFrontier })
  | .next, .swapping bytesRequested oldFrontier newHeapFrontier newStart newProcFrontier =>
    if s.frontier = oldFrontier then
      some ({ s with frontier := newHeapFrontier
                     gaps := if newProcFrontier = l.sharedFrontier then s.gaps
                       else (l.sharedFrontier, l.chunkEnd S.model) :: s.gaps },
        { sharedStart := newStart
          sharedFrontier := newProcFrontier
          sharedLimitPlusSlop := newHeapFrontier - bonusSlop S.model
          sharedLimit := newHeapFrontier - bonusSlop S.model - heapLimitSlop
          pc := .idle })
    else some (s, { l with pc := .reading bytesRequested })
  | _, _ => none

/-- The processors, as threads of an interleaving. -/
def code (n : ℕ) : Process (Fin n) Act Shared Proc := ⟨S.step⟩

/-- The loop of `setGCStateCurrentSharedHeap`, over the processors in the list. -/
def layoutProcs {n : ℕ} (bytesNeeded : Fin n → ℕ) : List (Fin n) → ℕ → (Fin n → Proc) →
    (Fin n → Proc) × ℕ
  | [], frontier, procs => (procs, frontier)
  | proc :: rest, frontier, procs =>
    let sharedLimitPlusSlop := frontier + bytesNeeded proc
    layoutProcs bytesNeeded rest (sharedLimitPlusSlop + bonusSlop S.model)
      (Function.update procs proc
        { sharedStart := frontier
          sharedFrontier := frontier
          sharedLimitPlusSlop := sharedLimitPlusSlop
          sharedLimit := sharedLimitPlusSlop - heapLimitSlop
          pc := .idle })

/-- The objects of the list, one after another from `p` on, and where the last one ends. -/
def place (p : ℕ) : List Shape → List (ℕ × Shape) × ℕ
  | [] => ([], p)
  | o :: os => ((p, o) :: (place (p + sizeofObject S.model o) os).1,
      (place (p + sizeofObject S.model o) os).2)

/-- The heap with the objects of the old generation, the nursery behind them laid out by
`setGCStateCurrentSharedHeap`. -/
def initial {n : ℕ} (oldGen : List Shape) (bytesNeeded : Fin n → ℕ) :
    Config (Fin n) Shared Proc :=
  let old := S.place S.front oldGen
  let procs := S.layoutProcs bytesNeeded (List.finRange n) old.2 fun _ => ⟨0, 0, 0, 0, .idle⟩
  ⟨{ frontier := procs.2
     memory := Memory.ofObjects old.1
     objects := old.1
     gaps := [] }, procs.1⟩

/-- The loop at the head of `performSharedGC`, over the processors in the list: the memory with the
gaps filled, and `start + oldGenSize`. -/
def fillGaps {n : ℕ} (frontier : ℕ) (procs : Fin n → Proc) : List (Fin n) → Memory → ℕ →
    Option (Memory × ℕ)
  | [], memory, oldGenEnd => some (memory, oldGenEnd)
  | proc :: rest, memory, oldGenEnd =>
    if (procs proc).chunkEnd S.model ≠ frontier then
      (fillGap S.model memory (procs proc).sharedFrontier ((procs proc).chunkEnd S.model)).bind
        fun memory => fillGaps frontier procs rest memory oldGenEnd
    else fillGaps frontier procs rest memory (procs proc).sharedFrontier

/-- The gaps that the loop fills. -/
def openGaps {n : ℕ} (c : Config (Fin n) Shared Proc) : List (ℕ × ℕ) :=
  ((List.finRange n).filter fun t => (c.loc t).chunkEnd S.model ≠ c.shared.frontier).map fun t =>
    ((c.loc t).sharedFrontier, (c.loc t).chunkEnd S.model)

/-- The object with which `fillGap` fills the gap. -/
def fillerAt (gap : ℕ × ℕ) : Option (ℕ × Shape) :=
  (filler S.model (gap.2 - gap.1)).map fun o => (gap.1, o)

/-- The chunks of the processors do not overlap and lie in the heap, their frontiers are aligned,
and once the gaps are filled the heap read object by object has the allocated objects and one
filler for every gap. -/
structure Parseable {n : ℕ} (c : Config (Fin n) Shared Proc) (nursery : ℕ) : Prop where
  disjoint : ∀ t u, t ≠ u → (c.loc t).chunkEnd S.model ≤ (c.loc u).sharedFrontier ∨
    (c.loc u).chunkEnd S.model ≤ (c.loc t).sharedFrontier
  inside : ∀ t, nursery ≤ (c.loc t).sharedFrontier ∧
    (c.loc t).sharedFrontier ≤ (c.loc t).sharedLimitPlusSlop ∧
    (c.loc t).chunkEnd S.model ≤ S.start + S.availableSize
  aligned : ∀ t, isFrontierAligned S.model (c.loc t).sharedFrontier
  running : ∀ t, (c.loc t).pc ≠ .exited
  walk : ∃ memory oldGenEnd visited,
    S.fillGaps c.shared.frontier c.loc (List.finRange n) c.shared.memory nursery =
      some (memory, oldGenEnd) ∧
    walk S.model memory (oldGenEnd - S.front) S.front oldGenEnd = some (visited, oldGenEnd) ∧
    (visited.map some).Perm (c.shared.objects.map some ++
      (c.shared.gaps ++ S.openGaps c).map S.fillerAt)

end SharedHeap

/-! ### Sizes and memory -/

section Size

variable {m : Model} {h : Memory} {p q stop diff : ℕ} {o : Shape}

theorem bonusSlop_pos (m : Model) : 0 < bonusSlop m := Nat.add_pos_right _ (by norm_num)

theorem isFrontierAligned.add (h : isFrontierAligned m p) (hdvd : m.alignment ∣ diff) :
    isFrontierAligned m (p + diff) := by
  unfold isFrontierAligned at h ⊢
  rw [add_right_comm]
  exact h.add hdvd

theorem align_of_dvd {a b : ℕ} (hb : 0 < b) (h : b ∣ a) : align a b = a := by
  have hle := le_align (a := a) hb
  have hlt := align_lt (a := a) hb
  obtain ⟨k, hk⟩ := dvd_align a b
  obtain ⟨j, rfl⟩ := h
  rw [hk] at hle hlt ⊢
  have hjk : j ≤ k := Nat.le_of_mul_le_mul_left hle hb
  have hkj : k < j + 1 := Nat.lt_of_mul_lt_mul_left (hlt.trans_eq (Nat.mul_succ b j).symm)
  rw [le_antisymm (Nat.lt_succ_iff.1 hkj) hjk]

theorem alignment_pos (m : Model) : 0 < m.alignment := by
  rcases m.alignment_eq with h | h <;> omega

/-- A filler is as long as its gap, if the gap has an aligned length. -/
theorem sizeofObject_filler (hle : bonusSlop m ≤ diff) (hdvd : m.alignment ∣ diff) :
    ∃ o, filler m diff = some o ∧ sizeofObject m o = diff := by
  unfold filler
  split_ifs with harray hheader
  · refine ⟨_, rfl, ?_⟩
    have hsize : diff - m.arrayHeaderSize + m.arrayHeaderSize = diff :=
      Nat.sub_add_cancel (le_of_add_le_left harray)
    have hlong : ¬ diff - m.arrayHeaderSize < m.objptrSize := by omega
    simp only [sizeofObject, headerBytes, sizeofObjectNoHeader, sizeofArrayNoHeader,
      alignWithExtra, zero_mul, add_zero, mul_one, if_neg hlong, hsize,
      align_of_dvd (alignment_pos m) hdvd]
    omega
  · refine ⟨_, rfl, ?_⟩
    simp [sizeofObject, headerBytes, sizeofObjectNoHeader, hheader]
  · refine ⟨_, rfl, ?_⟩
    unfold bonusSlop at hle
    simp only [sizeofObject, headerBytes, sizeofObjectNoHeader]
    omega

theorem filler_isSome (hle : bonusSlop m ≤ diff) : ∃ o, filler m diff = some o := by
  unfold filler
  split_ifs
  · exact ⟨_, rfl⟩
  · exact ⟨_, rfl⟩
  · exact ⟨_, rfl⟩

@[simp] theorem Memory.write_self : h.write p stop o p = some o := if_pos rfl

theorem Memory.write_of_outside (hp : p < stop) (hq : q < p ∨ stop ≤ q) :
    h.write p stop o q = h q := by
  unfold Memory.write
  rw [if_neg (by omega), if_neg (by omega)]

/-- A gap with room for the slop is filled. -/
theorem fillGap_eq (h : Memory) (hp : 0 < p) (hle : bonusSlop m ≤ stop - p) :
    ∃ o, filler m (stop - p) = some o ∧ fillGap m h p stop = some (h.write p stop o) := by
  obtain ⟨o, ho⟩ := filler_isSome hle
  have hpos := bonusSlop_pos m
  refine ⟨o, ho, ?_⟩
  unfold fillGap
  rw [if_neg (by omega), if_neg (by omega), ho, map_some]

/-- If every block of a tiling is an object of the memory, the walk finds them all. -/
theorem walk_tiles {β : Type*} {lo hi : β → ℕ} {content : β → Option (ℕ × Shape)} {bs : List β}
    {fuel : ℕ} (hcontent : ∀ b ∈ bs, ∃ o, content b = some (lo b, o) ∧ h (lo b) = some o ∧
      sizeofObject m o = hi b - lo b) (ht : Tiles lo hi p bs q) (hfuel : q - p ≤ fuel) :
    ∃ visited, walk m h fuel p q = some (visited, q) ∧ visited.map some = bs.map content := by
  induction bs generalizing p fuel with
  | nil =>
    obtain rfl : p = q := ht
    refine ⟨[], ?_, rfl⟩
    cases fuel <;> simp [walk]
  | cons b bs ih =>
    obtain ⟨rfl, hlt, htail⟩ := ht
    have hle := htail.le
    obtain ⟨o, hb, hread, hsize⟩ := hcontent b mem_cons_self
    cases fuel with
    | zero => omega
    | succ fuel =>
      have hnext : lo b + sizeofObject m o = hi b := by omega
      have hfuel' : q - hi b ≤ fuel := by omega
      obtain ⟨visited, hwalk, hvisited⟩ :=
        ih (fun c hc => hcontent c (mem_cons_of_mem b hc)) htail hfuel'
      refine ⟨(lo b, o) :: visited, ?_, by rw [map_cons, map_cons, hvisited, hb]⟩
      rw [walk, if_pos (hlt.trans_le hle), hread, bind_some, hnext, hwalk, map_some]

end Size

/-! ### The blocks of the heap -/

/-- What the heap is made of: objects, the gaps left behind, each with its filler, and the chunk of
each processor. -/
inductive Block (n : ℕ)
  | object (p : ℕ) (o : Shape)
  | filled (start stop : ℕ)
  | gap (t : Fin n)

namespace Block

variable {n : ℕ} (m : Model) (loc : Fin n → Proc)

def lo : Block n → ℕ
  | object p _ => p
  | filled start _ => start
  | gap t => (loc t).sharedFrontier

def hi : Block n → ℕ
  | object p o => p + sizeofObject m o
  | filled _ stop => stop
  | gap t => (loc t).chunkEnd m

def object? : Block n → Option (ℕ × Shape)
  | object p o => some (p, o)
  | _ => none

def filled? : Block n → Option (ℕ × ℕ)
  | filled start stop => some (start, stop)
  | _ => none

def gap? : Block n → Option (Fin n)
  | gap t => some t
  | _ => none

/-- What the memory has at the block. -/
def Stored (memory : Memory) : Block n → Prop
  | object p o => memory p = some o
  | filled start stop => memory start = filler m (stop - start) ∧
      bonusSlop m ≤ stop - start ∧ m.alignment ∣ stop - start
  | gap _ => True

variable {m loc} {t : Fin n} {b : Block n}

@[simp] theorem gap?_eq_some_iff : b.gap? = some t ↔ b = gap t := by
  cases b with
  | gap u => exact ⟨fun h => congrArg gap (Option.some.inj h), fun h => congrArg gap? h⟩
  | object | filled => exact ⟨nofun, nofun⟩

theorem lo_update (hb : b ≠ gap t) (l : Proc) : lo (Function.update loc t l) b = lo loc b := by
  cases b with
  | gap u =>
    have hu : u ≠ t := fun h => hb (h ▸ rfl)
    simp [lo, hu]
  | _ => rfl

theorem hi_update (hb : b ≠ gap t) (l : Proc) :
    hi m (Function.update loc t l) b = hi m loc b := by
  cases b with
  | gap u =>
    have hu : u ≠ t := fun h => hb (h ▸ rfl)
    simp [hi, hu]
  | _ => rfl

theorem lo_update_same {l : Proc} (hl : l.sharedFrontier = (loc t).sharedFrontier) :
    lo (Function.update loc t l) b = lo loc b := by
  by_cases hb : b = gap t
  · simp [hb, lo, hl]
  · exact lo_update hb l

theorem hi_update_same {l : Proc} (hl : l.sharedLimitPlusSlop = (loc t).sharedLimitPlusSlop) :
    hi m (Function.update loc t l) b = hi m loc b := by
  by_cases hb : b = gap t
  · simp [hb, hi, Proc.chunkEnd, hl]
  · exact hi_update hb l

theorem Stored.congr (loc : Fin n → Proc) {memory memory' : Memory} (h : b.Stored m memory)
    (heq : memory' (lo loc b) = memory (lo loc b)) : b.Stored m memory' := by
  cases b with
  | object p o => exact heq.trans h
  | filled start stop => exact ⟨heq.trans h.1, h.2⟩
  | gap t => trivial

/-- A tiling by blocks after processor `t`, whose gap is not among them, has moved. -/
theorem tiles_update {bs : List (Block n)} {p q : ℕ} (h : Tiles (lo loc) (hi m loc) p bs q)
    (ht : gap t ∉ bs) (l : Proc) :
    Tiles (lo (Function.update loc t l)) (hi m (Function.update loc t l)) p bs q :=
  h.congr (fun _ hb => lo_update (fun e => ht (e ▸ hb)) l)
    (fun _ hb => hi_update (fun e => ht (e ▸ hb)) l)

end Block

namespace SharedHeap

variable {S : SharedHeap} {n : ℕ} {c : Config (Fin n) Shared Proc}

/-- The loop of `performSharedGC` fills the gaps of its processors but the one at the end of the
heap, and leaves the rest of the memory alone. -/
theorem fillGaps_spec {frontier : ℕ} {procs : Fin n → Proc} {ts : List (Fin n)}
    (hpos : ∀ t, 0 < (procs t).sharedFrontier)
    (hslack : ∀ t, (procs t).sharedFrontier ≤ (procs t).sharedLimitPlusSlop)
    (hdisj : ∀ t u, t ≠ u → (procs t).chunkEnd S.model ≤ (procs u).sharedFrontier ∨
      (procs u).chunkEnd S.model ≤ (procs t).sharedFrontier)
    (hnodup : ts.Nodup) (memory : Memory) (oldGenEnd : ℕ) :
    ∃ memory' oldGenEnd',
      S.fillGaps frontier procs ts memory oldGenEnd = some (memory', oldGenEnd') ∧
      (∀ q, (∀ t ∈ ts, (procs t).chunkEnd S.model ≠ frontier →
        q < (procs t).sharedFrontier ∨ (procs t).chunkEnd S.model ≤ q) → memory' q = memory q) ∧
      (∀ t ∈ ts, (procs t).chunkEnd S.model ≠ frontier → memory' (procs t).sharedFrontier =
        filler S.model ((procs t).chunkEnd S.model - (procs t).sharedFrontier)) ∧
      (∀ t ∈ ts, (procs t).chunkEnd S.model = frontier → oldGenEnd' = (procs t).sharedFrontier) ∧
      ((∀ t ∈ ts, (procs t).chunkEnd S.model ≠ frontier) → oldGenEnd' = oldGenEnd) := by
  have hslop := bonusSlop_pos S.model
  have hsize : ∀ t, (procs t).sharedFrontier + bonusSlop S.model ≤ (procs t).chunkEnd S.model :=
    fun t => Nat.add_le_add_right (hslack t) _
  induction ts generalizing memory oldGenEnd with
  | nil => exact ⟨memory, oldGenEnd, rfl, fun _ _ => rfl, nofun, nofun, fun _ => rfl⟩
  | cons t ts ih =>
    obtain ⟨hnotmem, hnodup⟩ := nodup_cons.1 hnodup
    have hne : ∀ u ∈ ts, u ≠ t := fun u hu e => hnotmem (e ▸ hu)
    by_cases hlast : (procs t).chunkEnd S.model = frontier
    · -- the chunk at the end of the heap: the others are not
      obtain ⟨memory', oldGenEnd', hfill, hframe, hfilled, -, hno⟩ :=
        ih hnodup memory (procs t).sharedFrontier
      have hothers : ∀ u ∈ ts, (procs u).chunkEnd S.model ≠ frontier := by
        intro u hu hu'
        have := hsize t
        have := hsize u
        rcases hdisj u t (hne u hu) with h | h <;> omega
      refine ⟨memory', oldGenEnd', ?_, ?_, ?_, ?_, ?_⟩
      · rw [fillGaps, if_neg (not_not.2 hlast), hfill]
      · exact fun q hq => hframe q fun u hu => hq u (mem_cons_of_mem t hu)
      · intro u hu hu'
        rcases mem_cons.1 hu with rfl | hu
        · exact absurd hlast hu'
        · exact hfilled u hu hu'
      · intro u hu hu'
        rcases mem_cons.1 hu with rfl | hu
        · exact hno hothers
        · exact absurd hu' (hothers u hu)
      · exact fun hall => absurd hlast (hall t mem_cons_self)
    · have hroom : bonusSlop S.model ≤ (procs t).chunkEnd S.model - (procs t).sharedFrontier :=
        le_sub_of_add_le (by rw [add_comm]; exact hsize t)
      obtain ⟨o, ho, hgap⟩ := fillGap_eq memory (hpos t) hroom
      obtain ⟨memory', oldGenEnd', hfill, hframe, hfilled, hend, hno⟩ :=
        ih hnodup (memory.write (procs t).sharedFrontier ((procs t).chunkEnd S.model) o) oldGenEnd
      have hlt : (procs t).sharedFrontier < (procs t).chunkEnd S.model := by
        have := hsize t
        omega
      refine ⟨memory', oldGenEnd', ?_, ?_, ?_, ?_, ?_⟩
      · rw [fillGaps, if_pos hlast, hgap, bind_some, hfill]
      · intro q hq
        rw [hframe q fun u hu => hq u (mem_cons_of_mem t hu),
          Memory.write_of_outside hlt (hq t mem_cons_self hlast)]
      · intro u hu hu'
        rcases mem_cons.1 hu with rfl | hu
        · rw [hframe _ fun v hv _ => ?_, Memory.write_self, ho]
          have := hsize u
          have := hsize v
          rcases hdisj v u (hne v hv) with h | h <;> omega
        · exact hfilled u hu hu'
      · intro u hu hu'
        rcases mem_cons.1 hu with rfl | hu
        · exact absurd hu' hlast
        · exact hend u hu hu'
      · exact fun hall => hno fun u hu => hall u (mem_cons_of_mem t hu)

/-! ### The invariant -/

/-- The chunks keep the alignment. -/
def Granular (S : SharedHeap) : Prop :=
  S.model.alignment ∣ bonusSlop S.model ∧ S.model.alignment ∣ S.allocChunkSize

/-- The blocks `bs` tile the heap up to the frontier.  Every processor has its gap among them, and
the last one is a gap. -/
structure Tiled (S : SharedHeap) (bs : List (Block n)) (c : Config (Fin n) Shared Proc) :
    Prop where
  tiles : Tiles (Block.lo c.loc) (Block.hi S.model c.loc) S.front bs c.shared.frontier
  owned : ∀ t, .gap t ∈ bs
  last : Nonempty (Fin n) → ∃ t, bs.getLast? = some (.gap t)
  objects : (bs.filterMap Block.object?).Perm c.shared.objects
  gaps : (bs.filterMap Block.filled?).Perm c.shared.gaps
  stored : ∀ b ∈ bs, b.Stored S.model c.shared.memory

/-- What a processor in the middle of a call knows. -/
def PcOk (S : SharedHeap) (memory : Memory) (l : Proc) : Prop :=
  match l.pc with
  | .idle => True
  | .reading bytesRequested => S.Granular → S.model.alignment ∣ bytesRequested
  | .filling bytesRequested oldFrontier =>
    S.Granular ∧ S.model.alignment ∣ bytesRequested ∧
      oldFrontier + bytesRequested + bonusSlop S.model ≤ S.start + S.availableSize ∧
      oldFrontier ≠ l.chunkEnd S.model
  | .swapping bytesRequested oldFrontier newHeapFrontier _ newProcFrontier =>
    (S.Granular → S.model.alignment ∣ bytesRequested) ∧
      newHeapFrontier = newProcFrontier + bytesRequested + bonusSlop S.model ∧
      newHeapFrontier ≤ S.start + S.availableSize ∧
      (newProcFrontier = l.sharedFrontier ∧ oldFrontier = l.chunkEnd S.model ∨
        newProcFrontier = oldFrontier ∧ oldFrontier ≠ l.chunkEnd S.model ∧ S.Granular ∧
          memory l.sharedFrontier = filler S.model (l.chunkEnd S.model - l.sharedFrontier))
  | .collecting _ => True
  | .exited => False

structure Inv (S : SharedHeap) (nursery : ℕ) (c : Config (Fin n) Shared Proc) : Prop where
  tiled : ∃ bs, S.Tiled bs c
  bound : c.shared.frontier ≤ S.start + S.availableSize
  nursery_le : ∀ t, nursery ≤ (c.loc t).sharedFrontier
  frontier_eq : IsEmpty (Fin n) → c.shared.frontier = nursery
  slack : ∀ t, (c.loc t).sharedFrontier ≤ (c.loc t).sharedLimitPlusSlop
  aligned : ∀ t, isFrontierAligned S.model (c.loc t).sharedFrontier
  alignedEnd : S.Granular → ∀ t, isFrontierAligned S.model ((c.loc t).chunkEnd S.model)
  pcs : ∀ t, S.PcOk c.shared.memory (c.loc t)

/-! ### What one step keeps -/

section Step

variable {nursery : ℕ} {t : Fin n} {memory : Memory} {bs : List (Block n)} {l : Proc}

theorem PcOk.congr (h : S.PcOk memory l) {memory' : Memory}
    (heq : memory' l.sharedFrontier = memory l.sharedFrontier) : S.PcOk memory' l := by
  unfold PcOk at h ⊢
  split at h <;> first
    | exact h
    | exact ⟨h.1, h.2.1, h.2.2.1, h.2.2.2.imp_right fun hf => by rwa [heq]⟩

/-- What is written to the chunk of a processor is written to none of the other blocks. -/
theorem Tiled.stored_of_frame (hb : S.Tiled bs c)
    (hmem : ∀ q, q < (c.loc t).sharedFrontier ∨ (c.loc t).chunkEnd S.model ≤ q →
      memory q = c.shared.memory q) {b : Block n} (hmemb : b ∈ bs) (hne : b ≠ .gap t) :
    b.Stored S.model memory := by
  refine (hb.stored b hmemb).congr c.loc (hmem _ ?_)
  have hlt := hb.tiles.lt hmemb
  rcases hb.tiles.disjoint hmemb (hb.owned t) hne with h | h
  · exact Or.inl (hlt.trans_le h)
  · exact Or.inr h

theorem Tiled.disjoint (hb : S.Tiled bs c) {u : Fin n} (htu : t ≠ u) :
    (c.loc t).chunkEnd S.model ≤ (c.loc u).sharedFrontier ∨
      (c.loc u).chunkEnd S.model ≤ (c.loc t).sharedFrontier :=
  hb.tiles.disjoint (hb.owned t) (hb.owned u) fun h => htu (Block.gap.inj h)

section

variable (h : S.Inv nursery c)

include h

theorem Inv.disjoint {u : Fin n} (htu : t ≠ u) :
    (c.loc t).chunkEnd S.model ≤ (c.loc u).sharedFrontier ∨
      (c.loc u).chunkEnd S.model ≤ (c.loc t).sharedFrontier := by
  obtain ⟨bs, hb⟩ := h.tiled
  exact hb.disjoint htu

theorem Inv.chunkEnd_le (t : Fin n) : (c.loc t).chunkEnd S.model ≤ c.shared.frontier := by
  obtain ⟨bs, hb⟩ := h.tiled
  exact hb.tiles.hi_le (hb.owned t)

theorem Inv.lt_chunkEnd (t : Fin n) :
    (c.loc t).sharedFrontier + bonusSlop S.model ≤ (c.loc t).chunkEnd S.model :=
  Nat.add_le_add_right (h.slack t) _

/-- The last chunk ends at the frontier of the heap. -/
theorem Inv.exists_last (t : Fin n) : ∃ u, (c.loc u).chunkEnd S.model = c.shared.frontier := by
  obtain ⟨bs, hb⟩ := h.tiled
  obtain ⟨u, hu⟩ := hb.last ⟨t⟩
  obtain ⟨as, rfl⟩ := getLast?_eq_some_iff.1 hu
  exact ⟨u, hb.tiles.around.2.2⟩

/-- What the other processors know of the memory is not disturbed. -/
theorem Inv.pcs_of_frame
    (hmem : ∀ q, q < (c.loc t).sharedFrontier ∨ (c.loc t).chunkEnd S.model ≤ q →
      memory q = c.shared.memory q) (s : Shared) (hl : S.PcOk memory l) (u : Fin n) :
    S.PcOk memory ((c.put t s l).loc u) := by
  by_cases hu : u = t
  · rwa [hu, Config.put_loc_self]
  · rw [Config.put_loc_of_ne hu]
    refine (h.pcs u).congr (hmem _ ?_)
    have := h.lt_chunkEnd u
    have := bonusSlop_pos S.model
    rcases h.disjoint hu with hd | hd
    · exact Or.inl (by omega)
    · exact Or.inr hd

/-- A step that changes at most the counter of a processor and the memory of its chunk. -/
theorem Inv.put_pc (hmem : ∀ q, q < (c.loc t).sharedFrontier ∨ (c.loc t).chunkEnd S.model ≤ q →
      memory q = c.shared.memory q) (pc : Pc) (hpc : S.PcOk memory { c.loc t with pc := pc }) :
    S.Inv nursery
      (c.put t { c.shared with memory := memory } { c.loc t with pc := pc }) where
  tiled := by
    obtain ⟨bs, hb⟩ := h.tiled
    refine ⟨bs, ?_, hb.owned, hb.last, hb.objects, hb.gaps, fun b hmemb => ?_⟩
    · exact hb.tiles.congr (fun b _ => Block.lo_update_same rfl) fun b _ => Block.hi_update_same rfl
    · by_cases hne : b = .gap t
      · rw [hne]
        trivial
      · exact hb.stored_of_frame hmem hmemb hne
  bound := h.bound
  nursery_le := forall_put (Q := fun l : Proc => nursery ≤ l.sharedFrontier) (h.nursery_le t)
    h.nursery_le
  frontier_eq := h.frontier_eq
  slack := forall_put (Q := fun l : Proc => l.sharedFrontier ≤ l.sharedLimitPlusSlop) (h.slack t)
    h.slack
  aligned := forall_put (Q := fun l : Proc => isFrontierAligned S.model l.sharedFrontier)
    (h.aligned t) h.aligned
  alignedEnd hG := forall_put (Q := fun l : Proc => isFrontierAligned S.model (l.chunkEnd S.model))
    (h.alignedEnd hG t) (h.alignedEnd hG)
  pcs := h.pcs_of_frame hmem _ hpc

/-- An object is allocated in the chunk of a processor. -/
theorem Inv.allocate (o : Shape) (hdvd : S.model.alignment ∣ sizeofObject S.model o)
    (hfits : (c.loc t).sharedFrontier + sizeofObject S.model o ≤ (c.loc t).sharedLimitPlusSlop)
    (hidle : (c.loc t).pc = .idle) : S.Inv nursery (c.put t
      { c.shared with
          memory := c.shared.memory.write (c.loc t).sharedFrontier
            ((c.loc t).sharedFrontier + sizeofObject S.model o) o
          objects := ((c.loc t).sharedFrontier, o) :: c.shared.objects }
      { c.loc t with sharedFrontier := (c.loc t).sharedFrontier + sizeofObject S.model o }) := by
  have hsize := sizeofObject_pos S.model o
  have hslop := bonusSlop_pos S.model
  have hend : (c.loc t).sharedFrontier + sizeofObject S.model o < (c.loc t).chunkEnd S.model :=
    hfits.trans_lt (Nat.lt_add_of_pos_right hslop)
  have hmem : ∀ q, q < (c.loc t).sharedFrontier ∨ (c.loc t).chunkEnd S.model ≤ q →
      c.shared.memory.write (c.loc t).sharedFrontier
        ((c.loc t).sharedFrontier + sizeofObject S.model o) o q = c.shared.memory q := by
    intro q hq
    refine Memory.write_of_outside (Nat.lt_add_of_pos_right hsize) ?_
    omega
  obtain ⟨bs, hb⟩ := h.tiled
  obtain ⟨as, cs, rfl⟩ := append_of_mem (hb.owned t)
  have hnodup := nodup_middle.1 hb.tiles.nodup
  obtain ⟨hnotmem, -⟩ := nodup_cons.1 hnodup
  rw [mem_append, not_or] at hnotmem
  obtain ⟨has, hlt, hcs⟩ := hb.tiles.around
  refine ⟨⟨as ++ .object (c.loc t).sharedFrontier o :: .gap t :: cs, ?_, ?_, ?_, ?_, ?_, ?_⟩,
    h.bound, ?_, h.frontier_eq, ?_, ?_, ?_, ?_⟩
  · refine (Block.tiles_update has hnotmem.1 _).append
      ⟨rfl, Nat.lt_add_of_pos_right hsize, ?_, ?_, ?_⟩
    · simp [Block.lo, Block.hi]
    · simpa [Block.lo, Block.hi, Proc.chunkEnd] using hend
    · simpa [Block.hi, Config.put, Proc.chunkEnd] using Block.tiles_update hcs hnotmem.2 _
  · intro u
    have hu := hb.owned u
    rw [mem_append, mem_cons] at hu ⊢
    exact hu.imp_right (Or.inr ∘ mem_cons.2)
  · intro hn
    obtain ⟨u, hu⟩ := hb.last hn
    refine ⟨u, ?_⟩
    rw [getLast?_append_of_ne_nil _ (cons_ne_nil _ _)] at hu ⊢
    rw [getLast?_cons_cons, hu]
  · have hperm := hb.objects
    simp only [filterMap_append, filterMap_cons, Block.object?] at hperm ⊢
    exact perm_middle.trans (hperm.cons _)
  · have hperm := hb.gaps
    simpa only [filterMap_append, filterMap_cons, Block.filled?, Config.put_shared]
      using hperm
  · have hrest : ∀ b ∈ as ++ cs, b.Stored S.model (c.shared.memory.write (c.loc t).sharedFrontier
        ((c.loc t).sharedFrontier + sizeofObject S.model o) o) := by
      intro b hmemb
      have hne : b ≠ .gap t := by
        rintro rfl
        exact (mem_append.1 hmemb).elim hnotmem.1 hnotmem.2
      refine hb.stored_of_frame hmem ?_ hne
      exact mem_append.2 ((mem_append.1 hmemb).imp_right (mem_cons_of_mem _))
    intro b hmemb
    rcases mem_append.1 hmemb with hb' | hb'
    · exact hrest b (mem_append_left _ hb')
    · rcases mem_cons.1 hb' with rfl | hb'
      · exact Memory.write_self
      · rcases mem_cons.1 hb' with rfl | hb'
        · trivial
        · exact hrest b (List.mem_append_right _ hb')
  · exact forall_put (Q := fun l : Proc => nursery ≤ l.sharedFrontier)
      ((h.nursery_le t).trans (Nat.le_add_right _ _)) h.nursery_le
  · exact forall_put (Q := fun l : Proc => l.sharedFrontier ≤ l.sharedLimitPlusSlop) hfits h.slack
  · exact forall_put (Q := fun l : Proc => isFrontierAligned S.model l.sharedFrontier)
      ((h.aligned t).add hdvd) h.aligned
  · exact fun hG => forall_put (Q := fun l : Proc => isFrontierAligned S.model (l.chunkEnd S.model))
      (h.alignedEnd hG t) (h.alignedEnd hG)
  · refine h.pcs_of_frame hmem _ ?_
    simp [PcOk, hidle]

/-- The chunk at the end of the heap grows. -/
theorem Inv.extend {bytesRequested newStart sharedLimit : ℕ}
    (hlast : (c.loc t).chunkEnd S.model = c.shared.frontier)
    (hdvd : S.Granular → S.model.alignment ∣ bytesRequested)
    (hfits : (c.loc t).sharedFrontier + bytesRequested + bonusSlop S.model ≤
      S.start + S.availableSize) : S.Inv nursery (c.put t
      { c.shared with frontier := (c.loc t).sharedFrontier + bytesRequested + bonusSlop S.model }
      ⟨newStart, (c.loc t).sharedFrontier, (c.loc t).sharedFrontier + bytesRequested, sharedLimit,
        .idle⟩) := by
  have hslop := bonusSlop_pos S.model
  obtain ⟨bs, hb⟩ := h.tiled
  refine ⟨⟨bs, ?_, hb.owned, hb.last, hb.objects, hb.gaps, hb.stored⟩, hfits, ?_,
    fun hn => (hn.false t).elim, ?_, ?_, ?_, ?_⟩
  · obtain ⟨as, cs, rfl⟩ := append_of_mem (hb.owned t)
    obtain rfl := hb.tiles.eq_nil_of_hi_eq hlast
    obtain ⟨hnotmem, -⟩ := nodup_cons.1 (nodup_middle.1 hb.tiles.nodup)
    rw [append_nil] at hnotmem
    refine (Block.tiles_update hb.tiles.around.1 hnotmem _).append ⟨?_, ?_, ?_⟩
    · simp [Block.lo]
    · simp [Block.lo, Block.hi, Proc.chunkEnd]
      omega
    · simp [Block.hi, Proc.chunkEnd]
  · exact forall_put (Q := fun l : Proc => nursery ≤ l.sharedFrontier) (h.nursery_le t) h.nursery_le
  · exact forall_put (Q := fun l : Proc => l.sharedFrontier ≤ l.sharedLimitPlusSlop)
      (Nat.le_add_right _ _) h.slack
  · exact forall_put (Q := fun l : Proc => isFrontierAligned S.model l.sharedFrontier) (h.aligned t)
      h.aligned
  · intro hG
    refine forall_put (Q := fun l : Proc => isFrontierAligned S.model (l.chunkEnd S.model)) ?_
      (h.alignedEnd hG)
    exact ((h.aligned t).add (hdvd hG)).add hG.1
  · exact h.pcs_of_frame (fun _ _ => rfl) _ trivial

/-- A processor leaves its chunk, with its gap filled, and takes one at the end of the heap. -/
theorem Inv.fresh {bytesRequested newStart sharedLimit : ℕ}
    (hG : S.Granular) (hdvd : S.model.alignment ∣ bytesRequested)
    (hfits : c.shared.frontier + bytesRequested + bonusSlop S.model ≤ S.start + S.availableSize)
    (hfilled : c.shared.memory (c.loc t).sharedFrontier =
      filler S.model ((c.loc t).chunkEnd S.model - (c.loc t).sharedFrontier)) :
    S.Inv nursery (c.put t
      { c.shared with
          frontier := c.shared.frontier + bytesRequested + bonusSlop S.model
          gaps := ((c.loc t).sharedFrontier, (c.loc t).chunkEnd S.model) :: c.shared.gaps }
      ⟨newStart, c.shared.frontier, c.shared.frontier + bytesRequested, sharedLimit, .idle⟩) := by
  have hslop := bonusSlop_pos S.model
  have hroom := h.lt_chunkEnd t
  have hle := h.chunkEnd_le t
  -- the last chunk is that of another processor, so the frontier is aligned
  have hfrontier : isFrontierAligned S.model c.shared.frontier := by
    obtain ⟨u, hu⟩ := h.exists_last t
    rw [← hu]
    exact h.alignedEnd hG u
  obtain ⟨bs, hb⟩ := h.tiled
  obtain ⟨as, cs, rfl⟩ := append_of_mem (hb.owned t)
  obtain ⟨hnotmem, -⟩ := nodup_cons.1 (nodup_middle.1 hb.tiles.nodup)
  rw [mem_append, not_or] at hnotmem
  obtain ⟨has, hlt, hcs⟩ := hb.tiles.around
  refine ⟨⟨as ++ .filled (c.loc t).sharedFrontier ((c.loc t).chunkEnd S.model) :: (cs ++ [.gap t]),
    ?_, ?_, ?_, ?_, ?_, ?_⟩, hfits, ?_, fun hn => (hn.false t).elim, ?_, ?_, ?_, ?_⟩
  · refine (Block.tiles_update has hnotmem.1 _).append ⟨rfl, hlt, ?_⟩
    refine (Block.tiles_update hcs hnotmem.2 _).append ⟨?_, ?_, ?_⟩
    · simp [Block.lo]
    · simp [Block.lo, Block.hi, Proc.chunkEnd]
      omega
    · simp [Block.hi, Proc.chunkEnd]
  · intro u
    have hu := hb.owned u
    rw [mem_append, mem_cons] at hu ⊢
    rw [mem_append, mem_singleton]
    tauto
  · intro hn
    refine ⟨t, ?_⟩
    rw [← List.cons_append, ← append_assoc, getLast?_concat]
  · have hperm := hb.objects
    simpa only [filterMap_append, filterMap_cons, filterMap_nil, append_nil,
      Block.object?, Config.put_shared] using hperm
  · have hperm := hb.gaps
    simp only [filterMap_append, filterMap_cons, filterMap_nil, append_nil,
      Block.filled?, Config.put_shared] at hperm ⊢
    exact perm_middle.trans (hperm.cons _)
  · intro b hmemb
    rw [mem_append, mem_cons, mem_append, mem_singleton] at hmemb
    rcases hmemb with hmemb | rfl | hmemb | rfl
    · exact hb.stored b (mem_append_left _ hmemb)
    · refine ⟨hfilled, by omega, ?_⟩
      have hsub := Nat.dvd_sub (h.alignedEnd hG t) (h.aligned t)
      rwa [Nat.add_sub_add_right] at hsub
    · exact hb.stored b (List.mem_append_right _ (mem_cons_of_mem _ hmemb))
    · trivial
  · refine forall_put (Q := fun l : Proc => nursery ≤ l.sharedFrontier) ?_ h.nursery_le
    have := h.nursery_le t
    dsimp only
    omega
  · exact forall_put (Q := fun l : Proc => l.sharedFrontier ≤ l.sharedLimitPlusSlop)
      (Nat.le_add_right _ _) h.slack
  · exact forall_put (Q := fun l : Proc => isFrontierAligned S.model l.sharedFrontier) hfrontier
      h.aligned
  · intro _
    refine forall_put (Q := fun l : Proc => isFrontierAligned S.model (l.chunkEnd S.model)) ?_
      (h.alignedEnd hG)
    exact (hfrontier.add hdvd).add hG.1
  · exact h.pcs_of_frame (fun _ _ => rfl) _ trivial

/-- A chunk that does not end at the frontier is one of several. -/
theorem Inv.granular (hsafe : n ≤ 1 ∨ S.Granular)
    (hlast : (c.loc t).chunkEnd S.model ≠ c.shared.frontier) : S.Granular := by
  refine hsafe.resolve_left fun hn => ?_
  obtain ⟨u, hu⟩ := h.exists_last t
  have hut : u = t := Fin.ext (by omega)
  exact hlast (hut ▸ hu)

/-- What a processor knows after the read of the frontier. -/
theorem Inv.attempt (hsafe : n ≤ 1 ∨ S.Granular) {bytesRequested : ℕ}
    (hdvd : S.Granular → S.model.alignment ∣ bytesRequested) : S.PcOk c.shared.memory
      { c.loc t with pc := S.attempt bytesRequested c.shared.frontier (c.loc t) } := by
  have hslop := bonusSlop_pos S.model
  have hbound := h.bound
  have hroom := h.lt_chunkEnd t
  have hle := h.chunkEnd_le t
  unfold SharedHeap.attempt
  dsimp only
  have hchunk : S.Granular → S.model.alignment ∣
      if bytesRequested < S.allocChunkSize then S.allocChunkSize else bytesRequested := by
    intro hG
    split_ifs
    · exact hG.2
    · exact hdvd hG
  generalize (if bytesRequested < S.allocChunkSize then S.allocChunkSize
    else bytesRequested) = bytes at hchunk ⊢
  split_ifs with hsatisfied hfull hlast
  · trivial
  · trivial
  · exact ⟨hchunk, rfl, by omega, Or.inl ⟨rfl, hlast⟩⟩
  · have hG := h.granular hsafe (Ne.symm hlast)
    exact ⟨hG, hchunk hG, by omega, hlast⟩

theorem Inv.step (hsafe : n ≤ 1 ∨ S.Granular) (hpos : 0 < nursery) {k : Act}
    {s : Shared} (hstep : S.step t k c.shared (c.loc t) = some (s, l)) :
    S.Inv nursery (c.put t s l) := by
  have hpc := h.pcs t
  unfold SharedHeap.step at hstep
  split at hstep
  case h_1 bytesRequested hidle =>
    split at hstep
    case isTrue hdvd =>
      cases hstep
      exact h.put_pc (fun _ _ => rfl) (.reading bytesRequested) fun _ => hdvd
    case isFalse => cases hstep
  case h_2 o hidle =>
    dsimp only at hstep
    split at hstep
    case isTrue hfits =>
      cases hstep
      exact h.allocate o hfits.1 hfits.2 hidle
    case isFalse => cases hstep
  case h_3 bytesRequested hreading =>
    cases hstep
    rw [PcOk, hreading] at hpc
    exact h.put_pc (fun _ _ => rfl) _ (h.attempt hsafe hpc)
  case h_4 bytesRequested oldFrontier hfilling =>
    rw [PcOk, hfilling] at hpc
    have hroom := h.lt_chunkEnd t
    have hslop := bonusSlop_pos S.model
    have hgap : bonusSlop S.model ≤ (c.loc t).chunkEnd S.model - (c.loc t).sharedFrontier := by
      omega
    obtain ⟨o, ho, hfill⟩ := fillGap_eq c.shared.memory (hpos.trans_le (h.nursery_le t)) hgap
    rw [hfill] at hstep
    cases hstep
    refine h.put_pc (fun q hq => Memory.write_of_outside (by omega) hq) _ ?_
    exact ⟨fun _ => hpc.2.1, rfl, hpc.2.2.1,
      Or.inr ⟨rfl, hpc.2.2.2, hpc.1, Memory.write_self.trans ho.symm⟩⟩
  case h_5 bytesRequested oldFrontier newHeapFrontier newStart newProcFrontier hswapping =>
    rw [PcOk, hswapping] at hpc
    obtain ⟨hdvd, rfl, hfits, hcase⟩ := hpc
    split at hstep
    case isTrue hswap =>
      cases hstep
      rcases hcase with ⟨rfl, hlast⟩ | ⟨rfl, hlast, hG, hfilled⟩
      · rw [if_pos rfl, Nat.add_sub_cancel]
        exact h.extend (hlast.symm.trans hswap.symm) hdvd hfits
      · subst hswap
        have hroom := h.lt_chunkEnd t
        have hle := h.chunkEnd_le t
        have hslop := bonusSlop_pos S.model
        rw [if_neg (by omega), Nat.add_sub_cancel]
        exact h.fresh hG (hdvd hG) hfits hfilled
    case isFalse =>
      cases hstep
      exact h.put_pc (fun _ _ => rfl) (.reading bytesRequested) hdvd
  case h_6 => cases hstep

end

end Step

/-! ### The layout -/

section Layout

variable {p : ℕ} {oldGen : List Shape} {bytesNeeded : Fin n → ℕ}

/-- What the layout is made of: old objects of aligned sizes, requests of aligned sizes, and room
for the chunks. -/
structure Laid (S : SharedHeap) (oldGen : List Shape) (bytesNeeded : Fin n → ℕ) : Prop where
  start_pos : 0 < S.start
  oldGen_aligned : ∀ o ∈ oldGen, S.model.alignment ∣ sizeofObject S.model o
  bytesNeeded_aligned : ∀ t, S.model.alignment ∣ bytesNeeded t
  fits : (S.initial oldGen bytesNeeded).shared.frontier ≤ S.start + S.availableSize

theorem isFrontierAligned_front (S : SharedHeap) : isFrontierAligned S.model S.front := by
  have hle := le_align (a := S.start + S.model.headerSize) (alignment_pos S.model)
  unfold isFrontierAligned front alignFrontier alignWithExtra
  rw [Nat.sub_add_cancel ((Nat.le_add_left _ _).trans hle)]
  exact dvd_align _ _

theorem le_front (S : SharedHeap) : S.start ≤ S.front := by
  have hle := le_align (a := S.start + S.model.headerSize) (alignment_pos S.model)
  exact le_sub_of_add_le hle

theorem tiles_place (S : SharedHeap) (loc : Fin n → Proc) (p : ℕ) (os : List Shape) :
    Tiles (Block.lo loc) (Block.hi S.model loc) p
      ((S.place p os).1.map fun x => .object x.1 x.2) (S.place p os).2 := by
  induction os generalizing p with
  | nil => rfl
  | cons o os ih =>
    exact ⟨rfl, Nat.lt_add_of_pos_right (sizeofObject_pos S.model o), ih _⟩

theorem isFrontierAligned_place {os : List Shape} (hp : isFrontierAligned S.model p)
    (hos : ∀ o ∈ os, S.model.alignment ∣ sizeofObject S.model o) :
    isFrontierAligned S.model (S.place p os).2 := by
  induction os generalizing p with
  | nil => exact hp
  | cons o os ih =>
    exact ih (hp.add (hos o mem_cons_self)) fun o' ho' => hos o' (mem_cons_of_mem o ho')

theorem ofObjects_of_mem {loc : Fin n → Proc} {q : ℕ} {objects : List (ℕ × Shape)}
    (h : Tiles (Block.lo loc) (Block.hi S.model loc) p
      (objects.map fun x => .object x.1 x.2) q) {x : ℕ × Shape} (hx : x ∈ objects) :
    Memory.ofObjects objects x.1 = some x.2 := by
  induction objects generalizing p with
  | nil => cases hx
  | cons y objects ih =>
    rcases mem_cons.1 hx with rfl | hx
    · simp [Memory.ofObjects]
    · have hle := h.2.2.le_lo (mem_map_of_mem hx)
      have hne : y.1 ≠ x.1 := (h.2.1.trans_le hle).ne
      have hrest := ih h.2.2 hx
      unfold Memory.ofObjects at hrest ⊢
      rwa [find?_cons_of_neg (by simpa using hne)]

/-- The loop lays out the chunks of its processors one after another. -/
theorem layoutProcs_spec (S : SharedHeap) (bytesNeeded : Fin n → ℕ) {ts : List (Fin n)}
    (hnodup : ts.Nodup) (p : ℕ) (procs : Fin n → Proc) :
    (∀ t, t ∉ ts → (S.layoutProcs bytesNeeded ts p procs).1 t = procs t) ∧
    Tiles (Block.lo (S.layoutProcs bytesNeeded ts p procs).1)
      (Block.hi S.model (S.layoutProcs bytesNeeded ts p procs).1) p (ts.map .gap)
      (S.layoutProcs bytesNeeded ts p procs).2 ∧
    ∀ t ∈ ts, ((S.layoutProcs bytesNeeded ts p procs).1 t).pc = .idle ∧
      ((S.layoutProcs bytesNeeded ts p procs).1 t).sharedLimitPlusSlop =
        ((S.layoutProcs bytesNeeded ts p procs).1 t).sharedFrontier + bytesNeeded t := by
  have hslop := bonusSlop_pos S.model
  induction ts generalizing p procs with
  | nil => exact ⟨fun _ _ => rfl, rfl, nofun⟩
  | cons t ts ih =>
    obtain ⟨hnotmem, hnodup⟩ := nodup_cons.1 hnodup
    rw [layoutProcs]
    generalize hprocs : Function.update procs t _ = procs'
    obtain ⟨hframe, htiles, hchunks⟩ :=
      ih hnodup (p + bytesNeeded t + bonusSlop S.model) procs'
    have ht : (S.layoutProcs bytesNeeded ts (p + bytesNeeded t + bonusSlop S.model) procs').1 t =
        ⟨p, p, p + bytesNeeded t, p + bytesNeeded t - heapLimitSlop, .idle⟩ :=
      (hframe t hnotmem).trans (by rw [← hprocs, update_self])
    refine ⟨fun u hu => ?_, ?_, fun u hu => ?_⟩
    · rw [mem_cons, not_or] at hu
      rw [hframe u hu.2, ← hprocs, update_of_ne hu.1]
    · refine ⟨?_, ?_, ?_⟩
      · rw [Block.lo, ht]
      · rw [Block.lo, Block.hi, ht]
        exact Nat.lt_of_le_of_lt (Nat.le_add_right p _) (Nat.lt_add_of_pos_right hslop)
      · rw [Block.hi, ht]
        exact htiles
    · rcases mem_cons.1 hu with rfl | hu
      · rw [ht]
        exact ⟨rfl, rfl⟩
      · exact hchunks u hu

/-- Chunks of aligned lengths keep the alignment. -/
theorem isFrontierAligned_of_tiles {ts : List (Fin n)} {procs : Fin n → Proc} {q : ℕ}
    (h : Tiles (Block.lo procs) (Block.hi S.model procs) p (ts.map .gap) q)
    (hlimit : ∀ t ∈ ts, (procs t).sharedLimitPlusSlop = (procs t).sharedFrontier + bytesNeeded t)
    (hneeded : ∀ t, S.model.alignment ∣ bytesNeeded t) (hG : S.Granular)
    (hp : isFrontierAligned S.model p) {t : Fin n} (ht : t ∈ ts) :
    isFrontierAligned S.model (procs t).sharedFrontier ∧
      isFrontierAligned S.model ((procs t).chunkEnd S.model) := by
  induction ts generalizing p with
  | nil => cases ht
  | cons u ts ih =>
    obtain ⟨hlo, -, htail⟩ := h
    have hu : isFrontierAligned S.model (procs u).sharedFrontier := by
      rw [Block.lo] at hlo
      rwa [hlo]
    have huend : isFrontierAligned S.model ((procs u).chunkEnd S.model) := by
      rw [Proc.chunkEnd, hlimit u mem_cons_self]
      exact (hu.add (hneeded u)).add hG.1
    rcases mem_cons.1 ht with rfl | ht
    · exact ⟨hu, huend⟩
    · exact ih htail (fun v hv => hlimit v (mem_cons_of_mem u hv)) huend ht

theorem Inv.initial (h : S.Laid oldGen bytesNeeded) (hsafe : n ≤ 1 ∨ S.Granular) :
    S.Inv (S.place S.front oldGen).2 (S.initial oldGen bytesNeeded) := by
  have hold := tiles_place S (S.initial oldGen bytesNeeded).loc S.front oldGen
  have hspec := layoutProcs_spec S bytesNeeded (nodup_finRange n)
    (S.place S.front oldGen).2 fun _ => ⟨0, 0, 0, 0, .idle⟩
  have htiles : Tiles (Block.lo (S.initial oldGen bytesNeeded).loc)
      (Block.hi S.model (S.initial oldGen bytesNeeded).loc) (S.place S.front oldGen).2
      ((finRange n).map .gap) (S.initial oldGen bytesNeeded).shared.frontier := hspec.2.1
  have hchunks : ∀ t ∈ finRange n, ((S.initial oldGen bytesNeeded).loc t).pc = .idle ∧
      ((S.initial oldGen bytesNeeded).loc t).sharedLimitPlusSlop =
        ((S.initial oldGen bytesNeeded).loc t).sharedFrontier + bytesNeeded t := hspec.2.2
  have halignedEnd := isFrontierAligned_place (isFrontierAligned_front S) h.oldGen_aligned
  have haligned : S.Granular → ∀ t,
      isFrontierAligned S.model ((S.initial oldGen bytesNeeded).loc t).sharedFrontier ∧
      isFrontierAligned S.model (((S.initial oldGen bytesNeeded).loc t).chunkEnd S.model) :=
    fun hG t => isFrontierAligned_of_tiles htiles (fun t ht => (hchunks t ht).2)
      h.bytesNeeded_aligned hG halignedEnd (mem_finRange t)
  have hfilled : ∀ x : List (ℕ × Shape),
      (x.map fun x => (Block.object x.1 x.2 : Block n)).filterMap Block.filled? = [] := by
    intro x
    rw [filterMap_map]
    exact filterMap_eq_nil_iff.2 fun _ _ => rfl
  have hobject : ∀ x : List (ℕ × Shape),
      (x.map fun x => (Block.object x.1 x.2 : Block n)).filterMap Block.object? = x := by
    intro x
    rw [filterMap_map]
    exact filterMap_some
  have hgap : ∀ {γ : Type} (f : Block n → Option γ), (∀ t, f (.gap t) = none) →
      ∀ ts : List (Fin n), (ts.map Block.gap).filterMap f = [] := by
    intro γ f hf ts
    rw [filterMap_map]
    exact filterMap_eq_nil_iff.2 fun t _ => hf t
  refine ⟨⟨(S.place S.front oldGen).1.map (fun x => .object x.1 x.2) ++
    (finRange n).map .gap, ?_, ?_, ?_, ?_, ?_, ?_⟩, h.fits, ?_, ?_, ?_, ?_, ?_, ?_⟩
  · exact hold.append htiles
  · exact fun t => List.mem_append_right _ (mem_map_of_mem (mem_finRange t))
  · rintro ⟨t⟩
    have hne : (finRange n).map Block.gap ≠ [] :=
      ne_nil_of_mem (mem_map_of_mem (mem_finRange t))
    rw [getLast?_append_of_ne_nil _ hne, getLast?_map]
    exact ⟨_, by rw [getLast?_eq_some_getLast (ne_nil_of_mem (mem_finRange t)),
      map_some]⟩
  · rw [filterMap_append, hobject, hgap _ fun _ => rfl, append_nil]
    exact List.Perm.refl _
  · rw [filterMap_append, hfilled, hgap _ fun _ => rfl]
    exact List.Perm.refl _
  · intro b hb
    rcases mem_append.1 hb with hb | hb
    · obtain ⟨x, hx, rfl⟩ := mem_map.1 hb
      exact ofObjects_of_mem hold hx
    · obtain ⟨t, -, rfl⟩ := mem_map.1 hb
      trivial
  · exact fun t => htiles.le_lo (mem_map_of_mem (mem_finRange t))
  · intro hn
    have hnil : finRange n = [] :=
      eq_nil_iff_forall_not_mem.2 fun t => (hn.false t).elim
    simp only [SharedHeap.initial, hnil, layoutProcs]
  · intro t
    exact (Nat.le_add_right _ _).trans_eq (hchunks t (mem_finRange t)).2.symm
  · intro t
    rcases hsafe with hn | hG
    · -- the only chunk starts where the old generation ends
      obtain ⟨ts, us, heq⟩ := append_of_mem (mem_finRange t)
      have hlength := congrArg List.length heq
      rw [length_finRange, length_append, length_cons] at hlength
      obtain rfl : ts = [] := eq_nil_of_length_eq_zero (by omega)
      rw [heq] at htiles
      have hlo : ((S.initial oldGen bytesNeeded).loc t).sharedFrontier =
          (S.place S.front oldGen).2 := htiles.1
      rwa [hlo]
    · exact (haligned hG t).1
  · exact fun hG t => (haligned hG t).2
  · intro t
    rw [PcOk, (hchunks t (mem_finRange t)).1]
    trivial

end Layout

/-! ### The heap is parseable -/

section Parse

variable {nursery : ℕ} {loc : Fin n → Proc} {bs : List (Block n)}

/-- What the walk finds at a block once the gaps are filled. -/
def content (S : SharedHeap) (loc : Fin n → Proc) : Block n → Option (ℕ × Shape)
  | .object p o => some (p, o)
  | .filled start stop => S.fillerAt (start, stop)
  | .gap t => S.fillerAt ((loc t).sharedFrontier, (loc t).chunkEnd S.model)

theorem map_content_perm (bs : List (Block n)) :
    (bs.map (S.content loc)).Perm ((bs.filterMap Block.object?).map some ++
      (bs.filterMap Block.filled? ++ (bs.filterMap Block.gap?).map fun t =>
        ((loc t).sharedFrontier, (loc t).chunkEnd S.model)).map S.fillerAt) := by
  induction bs with
  | nil => exact List.Perm.refl _
  | cons b bs ih =>
    rw [map_cons]
    cases b with
    | object p o => exact ih.cons _
    | filled start stop => exact (ih.cons _).trans perm_middle.symm
    | gap t =>
      refine (ih.cons _).trans ?_
      simp only [filterMap_cons, Block.object?, Block.filled?, Block.gap?, map_cons,
        map_append, ← append_assoc]
      exact perm_middle.symm

/-- The processors whose gaps come before the last one are those whose chunks do not end at the
frontier. -/
theorem Tiled.gaps_perm {t : Fin n} (hb : S.Tiled (bs ++ [.gap t]) c) :
    (bs.filterMap Block.gap?).Perm
      ((finRange n).filter fun t => (c.loc t).chunkEnd S.model ≠ c.shared.frontier) := by
  have hnodup := nodup_append.1 hb.tiles.nodup
  refine (perm_ext_iff_of_nodup (hnodup.1.filterMap fun b b' u hu hu' => ?_)
    ((nodup_finRange n).filter _)).2 fun u => ?_
  · rw [Block.gap?_eq_some_iff.1 hu, Block.gap?_eq_some_iff.1 hu']
  · simp only [mem_filterMap, Block.gap?_eq_some_iff, exists_eq_right, mem_filter,
      mem_finRange, decide_eq_true_eq, true_and, ne_eq]
    constructor
    · intro hu hlast
      obtain ⟨as, cs, rfl⟩ := append_of_mem hu
      have htiles := hb.tiles
      rw [append_assoc, List.cons_append] at htiles
      exact cons_ne_nil _ _ (append_eq_nil_iff.1 (htiles.eq_nil_of_hi_eq hlast)).2
    · intro hlast
      refine (mem_append.1 (hb.owned u)).resolve_right fun hu => hlast ?_
      obtain rfl := Block.gap.inj (mem_singleton.1 hu)
      exact hb.tiles.around.2.2

/-- The blocks that the walk goes through after `performSharedGC` has found where the old
generation ends: all of them but the last gap. -/
theorem Inv.exists_walked (h : S.Inv nursery c) (hb : S.Tiled bs c) {oldGenEnd : ℕ}
    (hend : ∀ t, (c.loc t).chunkEnd S.model = c.shared.frontier →
      oldGenEnd = (c.loc t).sharedFrontier)
    (hno : IsEmpty (Fin n) → oldGenEnd = nursery) :
    ∃ as, (∀ b ∈ as, b ∈ bs) ∧
      Tiles (Block.lo c.loc) (Block.hi S.model c.loc) S.front as oldGenEnd ∧
      (∀ t, .gap t ∈ as → (c.loc t).chunkEnd S.model ≠ c.shared.frontier) ∧
      (as.filterMap Block.object?).Perm c.shared.objects ∧
      (as.filterMap Block.filled?).Perm c.shared.gaps ∧
      (as.filterMap Block.gap?).Perm
        ((finRange n).filter fun t => (c.loc t).chunkEnd S.model ≠ c.shared.frontier) := by
  rcases isEmpty_or_nonempty (Fin n) with hn | hn
  · refine ⟨bs, fun _ hmem => hmem, ?_, fun t => (hn.false t).elim, hb.objects, hb.gaps, ?_⟩
    · rw [hno hn, ← h.frontier_eq hn]
      exact hb.tiles
    · exact (perm_ext_iff_of_nodup (nodup_iff_count_le_one.2 fun t => (hn.false t).elim)
        ((nodup_finRange n).filter _)).2 fun t => (hn.false t).elim
  · obtain ⟨u, hu⟩ := hb.last hn
    obtain ⟨as, rfl⟩ := getLast?_eq_some_iff.1 hu
    have hperm := hb.gaps_perm
    refine ⟨as, fun b hmem => mem_append_left _ hmem, ?_, fun t ht => ?_, ?_, ?_, hperm⟩
    · rw [hend u hb.tiles.around.2.2]
      exact hb.tiles.around.1
    · have hmem := hperm.subset (mem_filterMap.2 ⟨_, ht, rfl⟩)
      exact of_decide_eq_true (mem_filter.1 hmem).2
    · simpa [filterMap_cons, Block.object?] using hb.objects
    · simpa [filterMap_cons, Block.filled?] using hb.gaps

theorem Inv.heapParseable (h : S.Inv nursery c) (hsafe : n ≤ 1 ∨ S.Granular) (hpos : 0 < nursery) :
    S.Parseable c nursery := by
  have hslop := bonusSlop_pos S.model
  refine ⟨fun t u htu => h.disjoint htu, fun t => ⟨h.nursery_le t, h.slack t,
    (h.chunkEnd_le t).trans h.bound⟩, h.aligned, fun t hpc => ?_, ?_⟩
  · have hok := h.pcs t
    rw [PcOk, hpc] at hok
    exact hok
  · obtain ⟨bs, hb⟩ := h.tiled
    obtain ⟨memory, oldGenEnd, hfill, hframe, hfilled, hend, hno⟩ :=
      fillGaps_spec (fun t => hpos.trans_le (h.nursery_le t)) h.slack
        (fun t u htu => h.disjoint htu) (nodup_finRange n) c.shared.memory nursery
    -- a block that is no gap is as it was
    have hstored : ∀ b ∈ bs, (∀ t, b ≠ .gap t) → b.Stored S.model memory := by
      intro b hmemb hne
      refine (hb.stored b hmemb).congr c.loc (hframe _ fun t _ _ => ?_)
      have hlt := hb.tiles.lt hmemb
      rcases hb.tiles.disjoint hmemb (hb.owned t) (hne t) with hd | hd
      · exact Or.inl (hlt.trans_le hd)
      · exact Or.inr hd
    have hgap : ∀ t, (c.loc t).chunkEnd S.model ≠ c.shared.frontier →
        ∃ o, S.content c.loc (.gap t) = some ((c.loc t).sharedFrontier, o) ∧
          memory (c.loc t).sharedFrontier = some o ∧
          sizeofObject S.model o = (c.loc t).chunkEnd S.model - (c.loc t).sharedFrontier := by
      intro t hlast
      have hG := h.granular hsafe hlast
      have hroom := h.lt_chunkEnd t
      have hdvd := Nat.dvd_sub (h.alignedEnd hG t) (h.aligned t)
      rw [Nat.add_sub_add_right] at hdvd
      obtain ⟨o, ho, hsize⟩ := sizeofObject_filler (by omega) hdvd
      refine ⟨o, ?_, (hfilled t (mem_finRange t) hlast).trans ho, hsize⟩
      rw [content, fillerAt, ho, map_some]
    obtain ⟨as, hsub, htiles, hnotlast, hobjects, hgaps, hopen⟩ :=
      h.exists_walked hb (fun t => hend t (mem_finRange t))
        fun hn => hno fun t _ => (hn.false t).elim
    have hcontent : ∀ b ∈ as, ∃ o, S.content c.loc b = some (Block.lo c.loc b, o) ∧
        memory (Block.lo c.loc b) = some o ∧
        sizeofObject S.model o = Block.hi S.model c.loc b - Block.lo c.loc b := by
      intro b hmemb
      cases b with
      | object p o =>
        exact ⟨o, rfl, hstored _ (hsub _ hmemb) nofun, (Nat.add_sub_cancel_left _ _).symm⟩
      | filled start stop =>
        obtain ⟨hread, hle, hdvd⟩ := hstored _ (hsub _ hmemb) nofun
        obtain ⟨o, ho, hsize⟩ := sizeofObject_filler hle hdvd
        refine ⟨o, ?_, hread.trans ho, hsize⟩
        rw [content, fillerAt, ho, map_some, Block.lo]
      | gap t => exact hgap t (hnotlast t hmemb)
    obtain ⟨visited, hwalk, hvisited⟩ := walk_tiles hcontent htiles le_rfl
    refine ⟨memory, oldGenEnd, visited, hfill, hwalk, ?_⟩
    rw [hvisited]
    refine (map_content_perm as).trans ?_
    refine (hobjects.map some).append ((hgaps.append ?_).map _)
    exact hopen.map _

end Parse

/-! ### Runs -/

/-- Two processors with 4-byte headers and 8-byte alignment. -/
def wideAlignment : SharedHeap where
  model := ⟨4, 8, Or.inl rfl, Model.eight_eq⟩
  start := 4096
  availableSize := 131072
  allocChunkSize := 4096

/-- There the layout of two processors is misaligned from the start. -/
theorem misaligned {oldGen : List Shape} {bytesNeeded : Fin (n + 2) → ℕ}
    (hlaid : S.Laid oldGen bytesNeeded) (hslop : ¬ S.model.alignment ∣ bonusSlop S.model) :
    ¬ isFrontierAligned S.model ((S.initial oldGen bytesNeeded).loc 1).sharedFrontier := by
  intro haligned
  have hspec := layoutProcs_spec S bytesNeeded (nodup_finRange (n + 2))
    (S.place S.front oldGen).2 fun _ => ⟨0, 0, 0, 0, .idle⟩
  have htiles : Tiles (Block.lo (S.initial oldGen bytesNeeded).loc)
      (Block.hi S.model (S.initial oldGen bytesNeeded).loc) (S.place S.front oldGen).2
      ((finRange (n + 2)).map .gap) (S.initial oldGen bytesNeeded).shared.frontier :=
    hspec.2.1
  have hlimit : ((S.initial oldGen bytesNeeded).loc 0).sharedLimitPlusSlop =
      ((S.initial oldGen bytesNeeded).loc 0).sharedFrontier + bytesNeeded 0 :=
    (hspec.2.2 0 (mem_finRange 0)).2
  rw [finRange_succ, finRange_succ] at htiles
  have hfirst : ((S.initial oldGen bytesNeeded).loc 0).sharedFrontier =
      (S.place S.front oldGen).2 := htiles.1
  have hsecond : ((S.initial oldGen bytesNeeded).loc 1).sharedFrontier =
      ((S.initial oldGen bytesNeeded).loc 0).chunkEnd S.model := htiles.2.2.1
  have hnursery := isFrontierAligned_place (isFrontierAligned_front S) hlaid.oldGen_aligned
  have hroom := hnursery.add (hlaid.bytesNeeded_aligned 0)
  rw [hsecond, Proc.chunkEnd, hlimit, hfirst, isFrontierAligned, add_right_comm] at haligned
  exact hslop ((Nat.dvd_add_right hroom).1 haligned)

/-- Two processors with 8-byte headers and 8-byte alignment. -/
def twoProcessors : SharedHeap where
  model := ⟨8, 8, Model.eight_eq, Model.eight_eq⟩
  start := 4096
  availableSize := 131072
  allocChunkSize := 4096

theorem twoProcessors_laid : twoProcessors.Laid [] (fun _ : Fin 2 => heapLimitSlop) where
  start_pos := by decide
  oldGen_aligned := nofun
  bytesNeeded_aligned := by decide
  fits := by decide

end SharedHeap

end MultiMLton.GC.SharedChunk
