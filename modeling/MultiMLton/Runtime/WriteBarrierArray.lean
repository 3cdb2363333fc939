import Mathlib.Tactic
import MultiMLton.Runtime.SchedulerQueue

/-!
# The write barrier arrays of `gc/write-barrier-array.c`

A processor parks the objects to be lifted, the threads that it has preempted, and the threads that
it spawns, in three arrays.  They grow by `realloc`, each with its own copy of the code, and
`liftAllObjptrsInMoveOnWBA` empties them.

* `WBArray.add`: the code that the three arrays share;
* `Memory`, `Memory.Lawful`: what is used of the heaps, of `moveTransitiveClosure` and of the
  collections, which move objects and correct the pointers of the arrays;
* `GC_addToMoveOnWBA`, `GC_addToSpawnOnWBA`, `GC_addToPreemptOnWBA`, `liftAllObjptrsInMoveOnWBA`;
* `parked_once_iff`.

`none` stands for an access outside a block and for a failed assertion.  What has been enqueued is
recorded in a log; `schedulerQueue_refines_fifo_iff` is about the queues themselves.
-/

namespace MultiMLton.WriteBarrier

open List Option Int Nat
open Scheduler (ofInt sizeT malloc)

universe u

/-! ### An array -/

/-- `int32_t` -/
def int32 (i : ℤ) : ℤ := Int.bmod i (2 ^ 32)

/-- The entries, with the maximum and the block of `room` bytes. -/
structure WBArray (ε : Type u) where
  entries : List ε
  maxSize : ℤ
  room : ℕ

variable {ε : Type u}

/-- Bring the size up by one, and the maximum to twice itself if it is exceeded; `allocSize` is the
size that `realloc` is called with, `entrySize` that of an entry. -/
def WBArray.add (allocSize entrySize : ℕ) (a : WBArray ε) (e : ε) : Option (WBArray ε) := do
  let size := int32 (a.entries.length + 1)
  let a ←
    if size > a.maxSize then
      let maxSize := int32 (a.maxSize * 2)
      (malloc (sizeT (allocSize * ofInt maxSize))).map fun room =>
        { a with maxSize := maxSize, room := room }
    else some a
  -- the entry at the index `size - 1`
  if 0 < size ∧ entrySize * size.toNat ≤ a.room then some { a with entries := a.entries ++ [e] }
  else none

/-- The block has room for as many entries as the maximum says. -/
structure WBArray.Fits (entrySize : ℕ) (a : WBArray ε) : Prop where
  length : (a.entries.length : ℤ) ≤ a.maxSize
  maxSize : a.maxSize < 2 ^ 31
  room : a.room = entrySize * a.maxSize.toNat

variable {a : WBArray ε}

/-- The entries lie inside the block. -/
theorem WBArray.Fits.inside {entrySize : ℕ} (h : a.Fits entrySize) :
    entrySize * a.entries.length ≤ a.room := by
  rw [h.room]
  have hle := h.length
  exact Nat.mul_le_mul_left _ (by omega)

theorem int32_of_lt {i : ℤ} (h0 : -2 ^ 31 ≤ i) (h : i < 2 ^ 31) : int32 i = i := by
  unfold int32
  rw [bmod_eq_of_le] <;> omega

theorem int32_of_le {i : ℤ} (h0 : 2 ^ 31 ≤ i) (h : i < 2 ^ 32) : int32 i = i - 2 ^ 32 := by
  unfold int32
  rw [bmod_def]
  omega

section

variable (allocSize entrySize : ℕ) {a : WBArray ε} (h : a.Fits entrySize) (e : ε)

include h

/-- There is a free entry. -/
theorem WBArray.add_of_lt (hlt : (a.entries.length : ℤ) < a.maxSize) :
    a.add allocSize entrySize e = some { a with entries := a.entries ++ [e] } := by
  have hmax := h.maxSize
  have hsize : int32 (a.entries.length + 1) = a.entries.length + 1 :=
    int32_of_lt (by omega) (by omega)
  have hgrow : ¬ (a.entries.length : ℤ) + 1 > a.maxSize := by omega
  have hfits : 0 < (a.entries.length : ℤ) + 1 ∧
      entrySize * ((a.entries.length : ℤ) + 1).toNat ≤ a.room := by
    rw [h.room]
    exact ⟨by omega, Nat.mul_le_mul_left _ (by omega)⟩
  simp only [WBArray.add, hsize, if_neg hgrow, bind_eq_bind, bind_some, if_pos hfits]

omit h in
/-- The array is full and grows. -/
theorem WBArray.add_of_full (hle : allocSize ≤ 16) (hfull : (a.entries.length : ℤ) = a.maxSize)
    (hsmall : a.maxSize < 2 ^ 30) :
    a.add allocSize entrySize e =
      if entrySize * (a.entries.length + 1) ≤ allocSize * (2 * a.entries.length) then
        some ⟨a.entries ++ [e], 2 * a.entries.length, allocSize * (2 * a.entries.length)⟩
      else none := by
  have hsize : int32 (a.entries.length + 1) = a.entries.length + 1 :=
    int32_of_lt (by omega) (by omega)
  have hgrow : (a.entries.length : ℤ) + 1 > a.maxSize := by omega
  have htwice : int32 (a.maxSize * 2) = 2 * a.entries.length := by
    rw [← hfull, mul_comm]
    exact int32_of_lt (by omega) (by omega)
  have hbound : allocSize * (2 * a.entries.length) ≤ 16 * (2 * 2 ^ 30) :=
    Nat.mul_le_mul hle (by omega)
  have hbytes : malloc (sizeT (allocSize * ofInt (2 * a.entries.length))) =
      some (allocSize * (2 * a.entries.length)) := by
    have hofInt : ofInt (2 * a.entries.length) = 2 * a.entries.length := by
      unfold ofInt
      omega
    have hsizeT : sizeT (allocSize * (2 * a.entries.length)) =
        allocSize * (2 * a.entries.length) :=
      mod_eq_of_lt (by omega)
    rw [hofInt, hsizeT]
    exact if_pos (by omega)
  have hnat : ((a.entries.length : ℤ) + 1).toNat = a.entries.length + 1 := by omega
  have hone : 0 < (a.entries.length : ℤ) + 1 := by omega
  simp only [WBArray.add, hsize, if_pos hgrow, htwice, hbytes, map_some,
    bind_eq_bind, bind_some, hnat, hone, true_and]

omit h in
/-- The bytes of a negative number of entries are too many. -/
theorem malloc_of_neg (hpos : 0 < allocSize) (hle : allocSize ≤ 16) {d : ℕ} (hd0 : 0 < d)
    (hd : d ≤ 2 ^ 31) : malloc (sizeT (allocSize * ofInt (-d))) = none := by
  have hofInt : ofInt (-d) = 2 ^ 64 - d := by
    unfold ofInt
    omega
  have hbound : allocSize * d ≤ 16 * 2 ^ 31 := Nat.mul_le_mul hle hd
  have hmul : 0 < allocSize * d := Nat.mul_pos hpos hd0
  have hsizeT : sizeT (allocSize * (2 ^ 64 - d)) = 2 ^ 64 - allocSize * d := by
    have hsplit : allocSize * (2 ^ 64 - d) =
        2 ^ 64 - allocSize * d + (allocSize - 1) * 2 ^ 64 := by
      rw [Nat.mul_sub]
      omega
    unfold sizeT
    rw [hsplit, add_mul_mod_self_right]
    exact mod_eq_of_lt (by omega)
  rw [hofInt, hsizeT]
  exact if_neg (by omega)

/-- Twice the maximum, or the new size, is not an `int32_t`. -/
theorem WBArray.add_of_large (hpos : 0 < allocSize) (hle : allocSize ≤ 16)
    (hfull : (a.entries.length : ℤ) = a.maxSize) (hlarge : 2 ^ 30 ≤ a.maxSize) :
    a.add allocSize entrySize e = none := by
  have hmax := h.maxSize
  rcases lt_or_ge ((a.entries.length : ℤ) + 1) (2 ^ 31) with hlt | hge
  · have hsize : int32 (a.entries.length + 1) = a.entries.length + 1 :=
      int32_of_lt (by omega) (by omega)
    have hgrow : (a.entries.length : ℤ) + 1 > a.maxSize := by omega
    have htwice : int32 (a.maxSize * 2) = -((2 ^ 32 - 2 * a.entries.length : ℕ) : ℤ) := by
      rw [int32_of_le (by omega) (by omega)]
      omega
    have hbytes : malloc (sizeT (allocSize * ofInt (int32 (a.maxSize * 2)))) = none := by
      rw [htwice]
      exact malloc_of_neg _ hpos hle (by omega) (by omega)
    simp only [WBArray.add, hsize, if_pos hgrow, hbytes, map_none, bind_eq_bind,
      bind_none]
  · have hsize : int32 (a.entries.length + 1) = a.entries.length + 1 - 2 ^ 32 :=
      int32_of_le (by omega) (by omega)
    have hgrow : ¬ (a.entries.length : ℤ) + 1 - 2 ^ 32 > a.maxSize := by omega
    have hneg : ¬ 0 < (a.entries.length : ℤ) + 1 - 2 ^ 32 := by omega
    simp only [WBArray.add, hsize, if_neg hgrow, bind_eq_bind, bind_some, hneg,
      false_and, if_false]

end

/-- An entry can be added to the array. -/
def WBArray.HasRoom (a : WBArray ε) : Prop :=
  (a.entries.length : ℤ) < a.maxSize ∨ (0 < a.maxSize ∧ a.maxSize < 2 ^ 30)

/-- An array that grows by entries of the right size. -/
theorem WBArray.add_spec {entrySize : ℕ} (hpos : 0 < entrySize) (hle : entrySize ≤ 16)
    (h : a.Fits entrySize) (e : ε) :
    (a.HasRoom ∧ ∃ a', a.add entrySize entrySize e = some a' ∧ a'.Fits entrySize ∧
      a'.entries = a.entries ++ [e]) ∨
    (¬ a.HasRoom ∧ a.add entrySize entrySize e = none) := by
  have hlength := h.length
  rcases lt_or_eq_of_le hlength with hlt | hfull
  · refine Or.inl ⟨Or.inl hlt, _, WBArray.add_of_lt _ _ h e hlt, ⟨?_, h.maxSize, h.room⟩, rfl⟩
    rw [length_append, length_singleton]
    push_cast
    omega
  · rcases lt_or_ge a.maxSize (2 ^ 30) with hsmall | hlarge
    · have hadd := WBArray.add_of_full entrySize entrySize e hle hfull hsmall
      by_cases hzero : a.entries.length = 0
      · have hno : ¬ entrySize * (a.entries.length + 1) ≤ entrySize * (2 * a.entries.length) := by
          rw [hzero]
          simpa using hpos.ne'
        rw [if_neg hno] at hadd
        refine Or.inr ⟨?_, hadd⟩
        unfold WBArray.HasRoom
        omega
      · rw [if_pos (Nat.mul_le_mul_left _ (by omega))] at hadd
        refine Or.inl ⟨Or.inr ⟨by omega, hsmall⟩, _, hadd, ⟨?_, ?_, ?_⟩, rfl⟩
        · rw [length_append, length_singleton]
          push_cast
          omega
        · show 2 * (a.entries.length : ℤ) < 2 ^ 31
          omega
        · show entrySize * (2 * a.entries.length) = entrySize * (2 * (a.entries.length : ℤ)).toNat
          congr 1
    · refine Or.inr ⟨?_, WBArray.add_of_large _ _ h e hpos hle hfull hlarge⟩
      unfold WBArray.HasRoom
      omega

/-- An array whose `realloc` takes the size of one pointer for an entry of two. -/
theorem WBArray.add_half_spec {size : ℕ} (hpos : 0 < size) (hle : size ≤ 16)
    (h : a.Fits (2 * size)) (e : ε) :
    ((a.entries.length : ℤ) < a.maxSize ∧ ∃ a', a.add size (2 * size) e = some a' ∧
      a'.Fits (2 * size) ∧ a'.entries = a.entries ++ [e]) ∨
    (¬ (a.entries.length : ℤ) < a.maxSize ∧ a.add size (2 * size) e = none) := by
  have hlength := h.length
  rcases lt_or_eq_of_le hlength with hlt | hfull
  · refine Or.inl ⟨hlt, _, WBArray.add_of_lt _ _ h e hlt, ⟨?_, h.maxSize, h.room⟩, rfl⟩
    rw [length_append, length_singleton]
    push_cast
    omega
  · refine Or.inr ⟨by omega, ?_⟩
    rcases lt_or_ge a.maxSize (2 ^ 30) with hsmall | hlarge
    · have hadd := WBArray.add_of_full size (2 * size) e hle hfull hsmall
      rw [if_neg] at hadd
      · exact hadd
      · rw [show size * (2 * a.entries.length) = 2 * size * a.entries.length by ring, not_le]
        exact mul_lt_mul_of_pos_left (lt_succ_self _) (by omega)
    · exact WBArray.add_of_large _ _ h e hpos hle hfull hlarge

/-! ### The heaps -/

variable {W P τ : Type u}

/-- The heaps after objects have been moved; the pointers of the roots are corrected by `root`. -/
structure Moved (W P : Type u) where
  memory : W
  root : P → P

/-- What is used of the heaps `W`, with pointers `P` to objects `τ`. -/
structure Memory (W P τ : Type u) where
  /-- `OBJPTR_SIZE` -/
  objptrSize : ℕ
  /-- The object that a pointer leads to, through forwarding pointers. -/
  object : W → P → τ
  /-- `isObjptrInHeap (s, s->sharedHeap, op)` -/
  isObjptrInSharedHeap : W → P → Bool
  /-- `__GC_isThreadClosureClean (s, p, &size)` -/
  isThreadClosureClean : W → P → Bool
  /-- `moveTransitiveClosure (s, &op, forceStackForwarding, fillOrig)`, with the new `op`; a shared
  collection may take place. -/
  moveTransitiveClosure : W → P → Bool → Bool → Moved W P × P
  /-- `GC_moveWithCopyType (s, p, FALSE, TRUE, FALSE)` -/
  moveWithCopyType : W → P → Moved W P × P
  /-- A collection of the local heap or of the shared heap. -/
  collect : W → Moved W P

/-- Objects keep their identity, and those of the shared heap stay there. -/
structure Memory.Keeps (m : Memory W P τ) (w : W) (moved : Moved W P) : Prop where
  object : ∀ p, m.object moved.memory (moved.root p) = m.object w p
  shared : ∀ p, m.isObjptrInSharedHeap w p → m.isObjptrInSharedHeap moved.memory (moved.root p)

/-- The pointer is replaced by one to the copy in the shared heap. -/
structure Memory.Lifts (m : Memory W P τ) (w : W) (p : P) (r : Moved W P × P) : Prop where
  keeps : m.Keeps w r.1
  object : m.object r.1.memory r.2 = m.object w p
  shared : m.isObjptrInSharedHeap r.1.memory r.2

structure Memory.Lawful (m : Memory W P τ) : Prop where
  objptrSize : m.objptrSize = 4 ∨ m.objptrSize = 8
  moveTransitiveClosure : ∀ w p b b', m.Lifts w p (m.moveTransitiveClosure w p b b')
  moveWithCopyType : ∀ w p, m.Lifts w p (m.moveWithCopyType w p)
  collect : ∀ w, m.Keeps w (m.collect w)

/-! ### The arrays of a processor -/

inductive ThreadKind
  | HOST
  | PARASITE

structure PreemptThread (P : Type u) where
  op : P
  kind : ThreadKind

structure SpawnThread (P : Type u) where
  op : P
  proc : ℤ

/-- How a thread comes to a scheduler queue: from one of the two arrays, or at once. -/
inductive Origin
  | preempt
  | spawn
  | direct
  deriving DecidableEq

/-- A thread, and where it is to be enqueued. -/
structure Item (τ : Type u) where
  thread : τ
  origin : Origin
  proc : ℤ
  queue : ℤ

/-- `added` and `enqueued` record the calls and the `sqEnque`s, the latter with what the assertion
of `sqEnque` asks about the shared heap. -/
structure State (W P τ : Type u) where
  memory : W
  moveOnWBA : WBArray P
  preemptOnWBA : WBArray (PreemptThread P)
  spawnOnWBA : WBArray (SpawnThread P)
  added : List (Item τ)
  enqueued : List (Item τ × Bool)

def WBArray.map (f : ε → ε) (a : WBArray ε) : WBArray ε := { a with entries := a.entries.map f }

def WBArray.clear (a : WBArray ε) : WBArray ε := { a with entries := [] }

/-- Objects have been moved, and the arrays are roots (`foreachObjptrInWBAs`). -/
def State.move (s : State W P τ) (moved : Moved W P) : State W P τ :=
  { s with
    memory := moved.memory
    moveOnWBA := s.moveOnWBA.map moved.root
    preemptOnWBA := s.preemptOnWBA.map fun e => { e with op := moved.root e.op }
    spawnOnWBA := s.spawnOnWBA.map fun e => { e with op := moved.root e.op } }

/-- `for (i = 0; i < n; i++) s = body (i, s);` -/
def loop {σ : Type u} (body : ℕ → σ → σ) : ℕ → σ → σ
  | 0, s => s
  | n + 1, s => body n (loop body n s)

section

variable (m : Memory W P τ) (procId : ℤ) (useIdentityForCleanliness : Bool)

def sqEnque (s : State W P τ) (p : P) (proc i : ℤ) (origin : Origin) : State W P τ :=
  { s with
    enqueued := s.enqueued ++
      [(⟨m.object s.memory p, origin, proc, i⟩, m.isObjptrInSharedHeap s.memory p)] }

/-- The first loop of `liftAllObjptrsInMoveOnWBA`; `op` is a copy of the entry. -/
def liftMove (i : ℕ) (s : State W P τ) : State W P τ :=
  match s.moveOnWBA.entries[i]? with
  | some op => s.move (m.moveTransitiveClosure s.memory op false false).1
  | none => s

/-- The second loop lifts in place. -/
def liftSpawn (i : ℕ) (s : State W P τ) : State W P τ :=
  match s.spawnOnWBA.entries[i]? with
  | some e =>
    let r := m.moveTransitiveClosure s.memory e.op false false
    let s := s.move r.1
    let entries := s.spawnOnWBA.entries.set i { e with op := r.2 }
    { s with spawnOnWBA := { s.spawnOnWBA with entries := entries } }
  | none => s

def enquePreempt (i : ℕ) (s : State W P τ) : State W P τ :=
  match s.preemptOnWBA.entries[i]? with
  | some e => match e.kind with
    | .HOST => sqEnque m s e.op procId 0 .preempt
    | .PARASITE => sqEnque m s e.op procId 2 .preempt
  | none => s

def enqueSpawn (i : ℕ) (s : State W P τ) : State W P τ :=
  match s.spawnOnWBA.entries[i]? with
  | some e =>
    if e.proc ≠ procId ∧ ¬ m.isObjptrInSharedHeap s.memory e.op then
      let r := m.moveTransitiveClosure s.memory e.op false true
      sqEnque m (s.move r.1) r.2 e.proc 0 .spawn
    else sqEnque m s e.op e.proc 0 .spawn
  | none => s

def liftMoves (s : State W P τ) : State W P τ :=
  let s := loop (liftMove m) s.moveOnWBA.entries.length s
  { s with moveOnWBA := s.moveOnWBA.clear }

def liftSpawns (s : State W P τ) : State W P τ :=
  loop (liftSpawn m) s.spawnOnWBA.entries.length s

/-- Under the lock of the own queue. -/
def enquePreempts (s : State W P τ) : State W P τ :=
  if s.preemptOnWBA.entries.length > 0 then
    let s := loop (enquePreempt m procId) s.preemptOnWBA.entries.length s
    { s with preemptOnWBA := s.preemptOnWBA.clear }
  else s

def enqueSpawns (s : State W P τ) : State W P τ :=
  let s := loop (enqueSpawn m procId) s.spawnOnWBA.entries.length s
  { s with spawnOnWBA := s.spawnOnWBA.clear }

def liftAllObjptrsInMoveOnWBA (s : State W P τ) : State W P τ :=
  enqueSpawns m procId (enquePreempts m procId (liftSpawns m (liftMoves m s)))

def GC_addToMoveOnWBA (s : State W P τ) (p : P) : Option (State W P τ) := do
  let moveOnWBA ← s.moveOnWBA.add m.objptrSize m.objptrSize p
  return { s with moveOnWBA := moveOnWBA }

/-- A major collection of the local heap, after the arrays have been emptied. -/
def forceLocalGC (s : State W P τ) : State W P τ :=
  let s := liftAllObjptrsInMoveOnWBA m procId s
  s.move (m.collect s.memory)

def GC_addToSpawnOnWBA (s : State W P τ) (p : P) (proc : ℤ) : Option (State W P τ) :=
  if m.isThreadClosureClean s.memory p then
    let s : State W P τ := { s with added := s.added ++ [⟨m.object s.memory p, .direct, proc, 0⟩] }
    let r := m.moveWithCopyType s.memory p
    some (sqEnque m (s.move r.1) r.2 proc 0 .direct)
  else do
    let s : State W P τ := { s with added := s.added ++ [⟨m.object s.memory p, .spawn, proc, 0⟩] }
    -- `sizeof (objptr)`, where an entry is a `SpawnThread`
    let spawnOnWBA ← s.spawnOnWBA.add m.objptrSize (2 * m.objptrSize) ⟨p, proc⟩
    let s := { s with spawnOnWBA := spawnOnWBA }
    return if s.spawnOnWBA.entries.length > 16 ∧ useIdentityForCleanliness then
      forceLocalGC m procId s
    else s

/-- The queue for a preempted thread. -/
def queueOf : ThreadKind → ℤ
  | .HOST => 0
  | .PARASITE => 2

/-- The `kind` of a call is `0` or `1`, which stands for `HOST` and `PARASITE`. -/
def GC_addToPreemptOnWBA (s : State W P τ) (p : P) (kind : ThreadKind) : Option (State W P τ) := do
  let s : State W P τ :=
    { s with added := s.added ++ [⟨m.object s.memory p, .preempt, procId, queueOf kind⟩] }
  let preemptOnWBA ← s.preemptOnWBA.add (2 * m.objptrSize) (2 * m.objptrSize) ⟨p, kind⟩
  return { s with preemptOnWBA := preemptOnWBA }

/-- A call, a flush, or a collection without one. -/
inductive Op (P : Type u)
  | addToMove (p : P)
  | addToPreempt (p : P) (kind : ThreadKind)
  | addToSpawn (p : P) (proc : ℤ)
  | lift
  | collect

def step (s : State W P τ) : Op P → Option (State W P τ)
  | .addToMove p => GC_addToMoveOnWBA m s p
  | .addToPreempt p kind => GC_addToPreemptOnWBA m procId s p kind
  | .addToSpawn p proc => GC_addToSpawnOnWBA m procId useIdentityForCleanliness s p proc
  | .lift => some (liftAllObjptrsInMoveOnWBA m procId s)
  | .collect => some (s.move (m.collect s.memory))

def run (s : State W P τ) : List (Op P) → Option (State W P τ)
  | [] => some s
  | op :: ops => (step m procId useIdentityForCleanliness s op).bind fun s => run s ops

/-- The arrays as they are allocated; the maxima are `int32_t`. -/
def initial (w : W) (moveMax preemptMax spawnMax : Fin (2 ^ 31)) : State W P τ where
  memory := w
  moveOnWBA := ⟨[], (moveMax : ℕ), m.objptrSize * moveMax⟩
  preemptOnWBA := ⟨[], (preemptMax : ℕ), 2 * m.objptrSize * preemptMax⟩
  spawnOnWBA := ⟨[], (spawnMax : ℕ), 2 * m.objptrSize * spawnMax⟩
  added := []
  enqueued := []

def preemptItem (w : W) (e : PreemptThread P) : Item τ :=
  ⟨m.object w e.op, .preempt, procId, queueOf e.kind⟩

def spawnItem (w : W) (e : SpawnThread P) : Item τ :=
  ⟨m.object w e.op, .spawn, e.proc, 0⟩

/-- The threads that are parked. -/
def pending (s : State W P τ) : Origin → List (Item τ)
  | .preempt => s.preemptOnWBA.entries.map (preemptItem m procId s.memory)
  | .spawn => s.spawnOnWBA.entries.map (spawnItem m s.memory)
  | .direct => []

/-- Every thread that has been added has been enqueued or is parked, in the order of the calls,
once, and for its own processor and queue; those that have left the processor are in the shared
heap. -/
structure Inv (s : State W P τ) : Prop where
  move : s.moveOnWBA.Fits m.objptrSize
  preempt : s.preemptOnWBA.Fits (2 * m.objptrSize)
  spawn : s.spawnOnWBA.Fits (2 * m.objptrSize)
  once : ∀ o, (s.enqueued.map Prod.fst).filter (·.origin = o) ++ pending m procId s o =
    s.added.filter (·.origin = o)
  shared : ∀ e ∈ s.enqueued, e.1.proc ≠ procId → e.2 = true

end

/-! ### Moving -/

theorem WBArray.Fits.map {entrySize : ℕ} (h : a.Fits entrySize) (f : ε → ε) :
    (a.map f).Fits entrySize := by
  refine ⟨?_, h.maxSize, h.room⟩
  unfold WBArray.map
  rw [length_map]
  exact h.length

theorem WBArray.Fits.clear {entrySize : ℕ} (h : a.Fits entrySize) :
    a.clear.Fits entrySize :=
  ⟨(natCast_nonneg _).trans h.length, h.maxSize, h.room⟩

section

variable {m : Memory W P τ} {procId : ℤ} {s : State W P τ}

theorem pending_move {moved : Moved W P} (h : m.Keeps s.memory moved) (o : Origin) :
    pending m procId (s.move moved) o = pending m procId s o := by
  cases o with
  | preempt =>
    simp only [pending, State.move, WBArray.map, List.map_map]
    apply List.map_congr_left
    intro e _
    simp [preemptItem, h.object]
  | spawn =>
    simp only [pending, State.move, WBArray.map, List.map_map]
    apply List.map_congr_left
    intro e _
    simp [spawnItem, h.object]
  | direct => rfl

theorem Inv.moved (h : Inv m procId s) {moved : Moved W P} (hkeeps : m.Keeps s.memory moved) :
    Inv m procId (s.move moved) := by
  refine ⟨h.move.map _, h.preempt.map _, h.spawn.map _, fun o => ?_, h.shared⟩
  rw [pending_move hkeeps]
  exact h.once o

theorem loop_invariant {σ : Type u} (body : ℕ → σ → σ) (I : ℕ → σ → Prop) {n : ℕ} {s : σ}
    (h0 : I 0 s) (hbody : ∀ i s, I i s → I (i + 1) (body i s)) : I n (loop body n s) := by
  induction n with
  | zero => exact h0
  | succ n ih => exact hbody n _ ih

/-! ### Lifting -/

variable (hm : m.Lawful)

include hm

theorem Inv.liftMove (h : Inv m procId s) (i : ℕ) : Inv m procId (liftMove m i s) := by
  unfold WriteBarrier.liftMove
  split
  · exact h.moved (hm.moveTransitiveClosure _ _ _ _).keeps
  · exact h

/-- The first `i` entries point into the shared heap. -/
def Lifted (m : Memory W P τ) (i : ℕ) (s : State W P τ) : Prop :=
  ∀ j e, j < i → s.spawnOnWBA.entries[j]? = some e → m.isObjptrInSharedHeap s.memory e.op

theorem Inv.liftSpawn {i : ℕ} (h : Inv m procId s) (hlifted : Lifted m i s) :
    Inv m procId (liftSpawn m i s) ∧ Lifted m (i + 1) (liftSpawn m i s) := by
  unfold WriteBarrier.liftSpawn
  split
  · rename_i e he
    have hlift := hm.moveTransitiveClosure s.memory e.op false false
    have hmoved := h.moved hlift.keeps
    constructor
    · refine ⟨hmoved.move, hmoved.preempt, ⟨?_, hmoved.spawn.maxSize, hmoved.spawn.room⟩, ?_,
        hmoved.shared⟩
      · rw [length_set]
        exact hmoved.spawn.length
      · intro o
        rw [← hmoved.once o]
        congr 1
        cases o with
        | preempt => rfl
        | spawn =>
          -- the entry that is replaced leads to the same thread
          show List.map _ (List.set _ i _) = List.map _ _
          rw [map_set]
          refine ext_getElem? fun j => ?_
          rw [getElem?_set]
          split_ifs with hij hlt
          · subst hij
            simp [State.move, WBArray.map, he, spawnItem, hlift.object, hlift.keeps.object]
          · rw [eq_comm, getElem?_eq_none_iff, ← hij]
            exact not_lt.mp hlt
          · rfl
        | direct => rfl
    · intro j e' hj hget
      simp only [State.move, WBArray.map, getElem?_set, getElem?_map] at hget
      split_ifs at hget with hij hlt
      · cases hget
        exact hlift.shared
      · obtain ⟨e'', he'', rfl⟩ := map_eq_some_iff.mp hget
        exact hlift.keeps.shared _ (hlifted j e'' (by omega) he'')
  · rename_i hnone
    refine ⟨h, fun j e hj hget => ?_⟩
    rcases Nat.lt_succ_iff_lt_or_eq.mp hj with hlt | rfl
    · exact hlifted j e hlt hget
    · rw [hnone] at hget
      cases hget

omit hm

/-! ### Enqueuing -/

/-- The third loop enqueues the preempted threads in order. -/
theorem loop_enquePreempt (n : ℕ) : loop (enquePreempt m procId) n s =
    { s with
      enqueued := s.enqueued ++ (s.preemptOnWBA.entries.take n).map fun e =>
        (preemptItem m procId s.memory e, m.isObjptrInSharedHeap s.memory e.op) } := by
  induction n with
  | zero =>
    rw [take_zero, map_nil, append_nil]
    rfl
  | succ n ih =>
    rw [loop, ih, take_add_one]
    unfold enquePreempt
    cases he : s.preemptOnWBA.entries[n]? with
    | none => simp
    | some e =>
      obtain ⟨op, kind⟩ := e
      cases kind <;> simp [sqEnque, preemptItem, queueOf]

/-- The last loop enqueues the spawned threads in order; it finds them in the shared heap. -/
theorem loop_enqueSpawn (hshared : ∀ e ∈ s.spawnOnWBA.entries,
      m.isObjptrInSharedHeap s.memory e.op) (n : ℕ) : loop (enqueSpawn m procId) n s =
    { s with
      enqueued := s.enqueued ++ (s.spawnOnWBA.entries.take n).map fun e =>
        (spawnItem m s.memory e, m.isObjptrInSharedHeap s.memory e.op) } := by
  induction n with
  | zero =>
    rw [take_zero, map_nil, append_nil]
    rfl
  | succ n ih =>
    rw [loop, ih, take_add_one]
    unfold enqueSpawn
    cases he : s.spawnOnWBA.entries[n]? with
    | none => simp
    | some e =>
      have hin := hshared e (mem_of_getElem? he)
      simp [sqEnque, spawnItem, hin]

/-- What threads of one origin add to the log. -/
theorem filter_origin {α : Type u} {g : α → Item τ} {o : Origin} (hg : ∀ e, (g e).origin = o)
    (b : α → Bool) (o' : Origin) (l : List α) :
    ((l.map fun e => (g e, b e)).map Prod.fst).filter (·.origin = o') =
      if o = o' then l.map g else [] := by
  rw [List.map_map]
  split_ifs with ho
  · apply filter_eq_self.mpr
    simp [hg, ho]
  · apply filter_eq_nil_iff.mpr
    simp [hg, ho]

theorem Inv.enquePreempts (h : Inv m procId s) : Inv m procId (enquePreempts m procId s) ∧
    (enquePreempts m procId s).preemptOnWBA.entries = [] := by
  unfold WriteBarrier.enquePreempts
  split_ifs with hpos
  · rw [loop_enquePreempt, take_length]
    refine ⟨⟨h.move, h.preempt.clear, h.spawn, fun o => ?_, ?_⟩, rfl⟩
    · rw [← h.once o, map_append, filter_append,
        filter_origin (g := preemptItem m procId s.memory) (o := .preempt) fun _ => rfl]
      cases o with
      | preempt => simp [pending, WBArray.clear]
      | spawn | direct => simp [pending]
    · intro e he hproc
      rcases mem_append.mp he with hold | hnew
      · exact h.shared e hold hproc
      · obtain ⟨e', -, rfl⟩ := mem_map.mp hnew
        exact absurd rfl hproc
  · exact ⟨h, length_eq_zero_iff.mp (by omega)⟩

/-- The other arrays and the heaps stay as they are. -/
theorem enquePreempts_frame (m : Memory W P τ) (procId : ℤ) (s : State W P τ) :
    (enquePreempts m procId s).memory = s.memory ∧
    (enquePreempts m procId s).moveOnWBA = s.moveOnWBA ∧
    (enquePreempts m procId s).spawnOnWBA = s.spawnOnWBA := by
  unfold WriteBarrier.enquePreempts
  split_ifs
  · rw [loop_enquePreempt]
    exact ⟨rfl, rfl, rfl⟩
  · exact ⟨rfl, rfl, rfl⟩

theorem Inv.enqueSpawns (h : Inv m procId s) (hshared : ∀ e ∈ s.spawnOnWBA.entries,
      m.isObjptrInSharedHeap s.memory e.op) :
    Inv m procId (enqueSpawns m procId s) ∧
      (enqueSpawns m procId s).moveOnWBA = s.moveOnWBA ∧
      (enqueSpawns m procId s).preemptOnWBA = s.preemptOnWBA ∧
      (enqueSpawns m procId s).spawnOnWBA.entries = [] := by
  unfold WriteBarrier.enqueSpawns
  rw [loop_enqueSpawn hshared, take_length]
  refine ⟨⟨h.move, h.preempt, h.spawn.clear, fun o => ?_, ?_⟩, rfl, rfl, rfl⟩
  · rw [← h.once o, map_append, filter_append,
      filter_origin (g := spawnItem m s.memory) (o := .spawn) fun _ => rfl]
    cases o with
    | preempt | direct => simp [pending]
    | spawn => simp [pending, WBArray.clear]
  · intro e he hproc
    rcases mem_append.mp he with hold | hnew
    · exact h.shared e hold hproc
    · obtain ⟨e', he', rfl⟩ := mem_map.mp hnew
      exact hshared e' he'

/-! ### A flush -/

section

variable (hm : m.Lawful)

include hm

theorem Inv.liftMoves (h : Inv m procId s) :
    Inv m procId (liftMoves m s) ∧ (liftMoves m s).moveOnWBA.entries = [] := by
  have hloop : Inv m procId (loop (WriteBarrier.liftMove m) s.moveOnWBA.entries.length s) :=
    loop_invariant _ (fun _ s => Inv m procId s) h fun i s hs => hs.liftMove hm i
  exact ⟨⟨hloop.move.clear, hloop.preempt, hloop.spawn, hloop.once, hloop.shared⟩, rfl⟩

theorem Inv.liftSpawns (h : Inv m procId s) (hmove : s.moveOnWBA.entries = []) :
    Inv m procId (liftSpawns m s) ∧ (liftSpawns m s).moveOnWBA.entries = [] ∧
      ∀ e ∈ (liftSpawns m s).spawnOnWBA.entries,
        m.isObjptrInSharedHeap (liftSpawns m s).memory e.op := by
  have hloop := loop_invariant (n := s.spawnOnWBA.entries.length) (WriteBarrier.liftSpawn m)
    (fun i s' => (Inv m procId s' ∧ Lifted m i s') ∧ s'.moveOnWBA.entries = [] ∧
      s'.spawnOnWBA.entries.length = s.spawnOnWBA.entries.length)
    ⟨⟨h, fun j e hj => absurd hj (not_lt_zero j)⟩, hmove, rfl⟩
    (by
      rintro i s' ⟨⟨hinv, hlifted⟩, hnil, hlength⟩
      refine ⟨hinv.liftSpawn hm hlifted, ?_, ?_⟩
      · unfold WriteBarrier.liftSpawn
        split
        · simp [State.move, WBArray.map, hnil]
        · exact hnil
      · rw [← hlength]
        unfold WriteBarrier.liftSpawn
        split
        · simp [State.move, WBArray.map]
        · rfl)
  obtain ⟨⟨hinv, hlifted⟩, hnil, hlength⟩ := hloop
  refine ⟨hinv, hnil, fun e he => ?_⟩
  obtain ⟨j, hj, rfl⟩ := mem_iff_getElem.mp he
  exact hlifted j _ (hlength ▸ hj) (getElem?_eq_getElem hj)

/-- The three arrays are empty. -/
structure State.Empty (s : State W P τ) : Prop where
  move : s.moveOnWBA.entries = []
  preempt : s.preemptOnWBA.entries = []
  spawn : s.spawnOnWBA.entries = []

theorem liftAll_spec (h : Inv m procId s) :
    Inv m procId (liftAllObjptrsInMoveOnWBA m procId s) ∧
      (liftAllObjptrsInMoveOnWBA m procId s).Empty := by
  obtain ⟨h₁, hmove₁⟩ := h.liftMoves hm
  obtain ⟨h₂, hmove₂, hshared₂⟩ := h₁.liftSpawns hm hmove₁
  obtain ⟨h₃, hpreempt₃⟩ := h₂.enquePreempts
  obtain ⟨hmemory, hmove, hspawn⟩ := enquePreempts_frame m procId
    (liftSpawns m (liftMoves m s))
  obtain ⟨h₄, hmove₄, hpreempt₄, hspawn₄⟩ := h₃.enqueSpawns (by
    rw [hmemory, hspawn]
    exact hshared₂)
  refine ⟨h₄, ⟨?_, ?_, hspawn₄⟩⟩
  · show (enqueSpawns m procId _).moveOnWBA.entries = []
    rw [hmove₄, hmove]
    exact hmove₂
  · show (enqueSpawns m procId _).preemptOnWBA.entries = []
    rw [hpreempt₄]
    exact hpreempt₃

/-! ### Calls -/

/-- The condition on a call: a thread that is parked for spawning finds a free entry, and the other
arrays have one or can grow. -/
def Room (m : Memory W P τ) (s : State W P τ) : Op P → Prop
  | .addToMove _ => s.moveOnWBA.HasRoom
  | .addToPreempt _ _ => s.preemptOnWBA.HasRoom
  | .addToSpawn p _ => ¬ m.isThreadClosureClean s.memory p →
      (s.spawnOnWBA.entries.length : ℤ) < s.spawnOnWBA.maxSize
  | .lift => True
  | .collect => True

omit hm in
/-- A thread is enqueued at once. -/
theorem Inv.direct (h : Inv m procId s) {p : P} {r : Moved W P × P} (hlift : m.Lifts s.memory p r)
    (proc : ℤ) : Inv m procId (sqEnque m
      (({ s with added := s.added ++ [⟨m.object s.memory p, .direct, proc, 0⟩] } :
        State W P τ).move r.1) r.2 proc 0 .direct) := by
  have hmoved := h.moved hlift.keeps
  refine ⟨hmoved.move, hmoved.preempt, hmoved.spawn, fun o => ?_, ?_⟩
  · have honce := hmoved.once o
    have hpending : pending m procId (sqEnque m (({ s with
        added := s.added ++ [⟨m.object s.memory p, .direct, proc, 0⟩] } :
          State W P τ).move r.1) r.2 proc 0 .direct) o = pending m procId (s.move r.1) o := by
      cases o <;> rfl
    have hmove : (s.move r.1).enqueued = s.enqueued ∧ (s.move r.1).added = s.added := ⟨rfl, rfl⟩
    rw [hpending]
    rw [hmove.1, hmove.2] at honce
    show (List.map _ (s.enqueued ++ [_])).filter _ ++ _ = (s.added ++ [_]).filter _
    rw [map_append, filter_append, filter_append]
    cases o with
    | direct =>
      simp only [pending, append_nil] at honce ⊢
      rw [honce]
      simp [State.move, hlift.object]
    | preempt | spawn => simpa using honce
  · intro e he hproc
    rcases mem_append.mp he with hold | hnew
    · exact h.shared e hold hproc
    · rw [mem_singleton.mp hnew]
      exact hlift.shared

omit hm in
/-- A thread is parked. -/
theorem Inv.park {s' : State W P τ} (h : Inv m procId s) (item : Item τ)
    (henqueued : s'.enqueued = s.enqueued) (hadded : s'.added = s.added ++ [item])
    (hpending : ∀ o, pending m procId s' o =
      pending m procId s o ++ [item].filter (·.origin = o))
    (hmove : s'.moveOnWBA.Fits m.objptrSize) (hpreempt : s'.preemptOnWBA.Fits (2 * m.objptrSize))
    (hspawn : s'.spawnOnWBA.Fits (2 * m.objptrSize)) : Inv m procId s' := by
  refine ⟨hmove, hpreempt, hspawn, fun o => ?_, henqueued ▸ h.shared⟩
  rw [henqueued, hadded, hpending, ← append_assoc, h.once o, filter_append]

/-- A call succeeds exactly if there is room, and keeps the invariant. -/
theorem step_spec (useIdentityForCleanliness : Bool) (h : Inv m procId s) (op : Op P) :
    (Room m s op ∧ ∃ s', step m procId useIdentityForCleanliness s op = some s' ∧
      Inv m procId s' ∧ (op = .lift → s'.Empty)) ∨
    (¬ Room m s op ∧ step m procId useIdentityForCleanliness s op = none) := by
  have hsize : 0 < m.objptrSize ∧ 2 * m.objptrSize ≤ 16 := by
    have := hm.objptrSize
    omega
  cases op with
  | addToMove p =>
    rcases WBArray.add_spec hsize.1 (by omega) h.move p with
      ⟨hroom, a, ha, hfits, -⟩ | ⟨hroom, ha⟩
    · refine Or.inl ⟨hroom, { s with moveOnWBA := a }, ?_, ?_, fun hop => by cases hop⟩
      · simp only [step, GC_addToMoveOnWBA, ha, bind_eq_bind, bind_some]
        rfl
      · exact ⟨hfits, h.preempt, h.spawn, h.once, h.shared⟩
    · refine Or.inr ⟨hroom, ?_⟩
      simp only [step, GC_addToMoveOnWBA, ha, bind_eq_bind, bind_none]
  | addToPreempt p kind =>
    rcases WBArray.add_spec (by omega) hsize.2 h.preempt ⟨p, kind⟩ with
      ⟨hroom, a, ha, hfits, hentries⟩ | ⟨hroom, ha⟩
    · refine Or.inl ⟨hroom, { s with
        preemptOnWBA := a
        added := s.added ++ [preemptItem m procId s.memory ⟨p, kind⟩] }, ?_, ?_,
        fun hop => by cases hop⟩
      · simp only [step, GC_addToPreemptOnWBA, ha, bind_eq_bind, bind_some]
        rfl
      · refine h.park _ rfl rfl (fun o => ?_) h.move hfits h.spawn
        cases o with
        | preempt =>
          show List.map _ a.entries = _
          rw [hentries, map_append]
          rfl
        | spawn => exact (append_nil _).symm
        | direct => rfl
    · refine Or.inr ⟨hroom, ?_⟩
      simp only [step, GC_addToPreemptOnWBA, ha, bind_eq_bind, bind_none]
  | addToSpawn p proc =>
    by_cases hclean : m.isThreadClosureClean s.memory p = true
    · refine Or.inl ⟨fun hno => absurd hclean hno, _, if_pos hclean, ?_, fun hop => by cases hop⟩
      exact h.direct (hm.moveWithCopyType s.memory p) proc
    · rcases WBArray.add_half_spec hsize.1 (by omega) h.spawn ⟨p, proc⟩ with
        ⟨hroom, a, ha, hfits, hentries⟩ | ⟨hroom, ha⟩
      · obtain ⟨s', hs'⟩ : ∃ s' : State W P τ, { s with
          spawnOnWBA := a
          added := s.added ++ [spawnItem m s.memory ⟨p, proc⟩] } = s' := ⟨_, rfl⟩
        have hinv : Inv m procId s' := by
          rw [← hs']
          refine h.park _ rfl rfl (fun o => ?_) h.move h.preempt hfits
          cases o with
          | preempt => exact (append_nil _).symm
          | spawn =>
            show List.map _ a.entries = _
            rw [hentries, map_append]
            rfl
          | direct => rfl
        have hstep : step m procId useIdentityForCleanliness s (.addToSpawn p proc) = some
            (if s'.spawnOnWBA.entries.length > 16 ∧ useIdentityForCleanliness then
              forceLocalGC m procId s' else s') := by
          simp only [step, GC_addToSpawnOnWBA, if_neg hclean, ha, bind_eq_bind,
            bind_some]
          rw [← hs']
          rfl
        refine Or.inl ⟨fun _ => hroom, _, hstep, ?_, fun hop => by cases hop⟩
        split_ifs
        · exact (liftAll_spec hm hinv).1.moved (hm.collect _)
        · exact hinv
      · refine Or.inr ⟨fun hno => hroom (hno hclean), ?_⟩
        simp only [step, GC_addToSpawnOnWBA, if_neg hclean, ha, bind_eq_bind,
          bind_none]
  | lift =>
    obtain ⟨hinv, hempty⟩ := liftAll_spec hm h
    exact Or.inl ⟨trivial, _, rfl, hinv, fun _ => hempty⟩
  | collect =>
    exact Or.inl ⟨trivial, _, rfl, h.moved (hm.collect _), fun hop => by cases hop⟩

/-! ### Sequences of calls -/

/-- Every call of the sequence meets the condition on a call. -/
def AllRoom (m : Memory W P τ) (procId : ℤ) (useIdentityForCleanliness : Bool) :
    State W P τ → List (Op P) → Prop
  | _, [] => True
  | s, op :: ops => Room m s op ∧ ∀ s', step m procId useIdentityForCleanliness s op = some s' →
      AllRoom m procId useIdentityForCleanliness s' ops

/-- The entries lie inside their blocks, and every thread that has been added has been enqueued or
is parked. -/
structure Parked (m : Memory W P τ) (procId : ℤ) (s : State W P τ) : Prop where
  move : m.objptrSize * s.moveOnWBA.entries.length ≤ s.moveOnWBA.room
  preempt : 2 * m.objptrSize * s.preemptOnWBA.entries.length ≤ s.preemptOnWBA.room
  spawn : 2 * m.objptrSize * s.spawnOnWBA.entries.length ≤ s.spawnOnWBA.room
  once : ∀ o, (s.enqueued.map Prod.fst).filter (·.origin = o) ++ pending m procId s o =
    s.added.filter (·.origin = o)
  shared : ∀ e ∈ s.enqueued, e.1.proc ≠ procId → e.2 = true

omit hm in
theorem Inv.parked (h : Inv m procId s) : Parked m procId s :=
  ⟨h.move.inside, h.preempt.inside, h.spawn.inside, h.once, h.shared⟩

theorem run_spec (useIdentityForCleanliness : Bool) (ops : List (Op P)) : ∀ s, Inv m procId s →
    (AllRoom m procId useIdentityForCleanliness s ops ∧
      ∃ s', run m procId useIdentityForCleanliness s ops = some s' ∧ Inv m procId s' ∧
        (ops.getLast? = some .lift → s'.Empty)) ∨
    (¬ AllRoom m procId useIdentityForCleanliness s ops ∧
      run m procId useIdentityForCleanliness s ops = none) := by
  induction ops with
  | nil =>
    intro s h
    exact Or.inl ⟨trivial, s, rfl, h, fun hlast => by cases hlast⟩
  | cons op ops ih =>
    intro s h
    rcases step_spec hm useIdentityForCleanliness h op with
      ⟨hroom, s₁, hstep, h₁, hempty₁⟩ | ⟨hroom, hstep⟩
    · rcases ih s₁ h₁ with ⟨hall, s', hrun, h', hempty⟩ | ⟨hall, hrun⟩
      · refine Or.inl ⟨⟨hroom, fun s₂ hs₂ => ?_⟩, s', ?_, h', ?_⟩
        · rw [hstep] at hs₂
          exact Option.some.inj hs₂ ▸ hall
        · rw [run, hstep]
          exact hrun
        · intro hlast
          cases ops with
          | nil =>
            cases hrun
            exact hempty₁ (Option.some.inj hlast)
          | cons op' ops => exact hempty (by rwa [getLast?_cons_cons] at hlast)
      · refine Or.inr ⟨fun hno => hall (hno.2 s₁ hstep), ?_⟩
        rw [run, hstep]
        exact hrun
    · refine Or.inr ⟨fun hno => hroom hno.1, ?_⟩
      rw [run, hstep]
      rfl

omit hm in
theorem initial_inv (w : W) (moveMax preemptMax spawnMax : Fin (2 ^ 31)) :
    Inv m procId (initial m w moveMax preemptMax spawnMax) := by
  have hfits : ∀ {ε : Type u} (n : Fin (2 ^ 31)) (size : ℕ),
      (⟨[], ((n : ℕ) : ℤ), size * n⟩ : WBArray ε).Fits size := by
    intro ε n size
    have hlt := n.isLt
    refine ⟨natCast_nonneg _, ?_, ?_⟩
    · show ((n : ℕ) : ℤ) < 2 ^ 31
      omega
    · rw [toNat_natCast]
  refine ⟨hfits _ _, hfits _ _, hfits _ _, fun o => ?_, fun e he => by cases he⟩
  cases o <;> rfl

end

end

/-! ### Two spawned threads -/

/-- A pointer is a thread and whether it points into the shared heap; no closure is clean. -/
def pairs : Memory Unit (ℕ × Bool) ℕ where
  objptrSize := 8
  object _ p := p.1
  isObjptrInSharedHeap _ p := p.2
  isThreadClosureClean _ _ := false
  moveTransitiveClosure _ p _ _ := (⟨(), id⟩, (p.1, true))
  moveWithCopyType _ p := (⟨(), id⟩, (p.1, true))
  collect _ := ⟨(), id⟩

theorem pairs_lawful : pairs.Lawful where
  objptrSize := Or.inr rfl
  moveTransitiveClosure _ _ _ _ := ⟨⟨fun _ => rfl, fun _ h => h⟩, rfl, rfl⟩
  moveWithCopyType _ _ := ⟨⟨fun _ => rfl, fun _ h => h⟩, rfl, rfl⟩
  collect _ := ⟨fun _ => rfl, fun _ h => h⟩

theorem pairs_addToSpawn (s : State Unit (ℕ × Bool) ℕ) (p : ℕ × Bool) (proc : ℤ) :
    step pairs 0 false s (.addToSpawn p proc) =
      (s.spawnOnWBA.add 8 16 ⟨p, proc⟩).map fun a =>
        { s with added := s.added ++ [⟨p.1, .spawn, proc, 0⟩], spawnOnWBA := a } := by
  have hclean : ¬ pairs.isThreadClosureClean s.memory p = true := Bool.false_ne_true
  have hsize : pairs.objptrSize = 8 := rfl
  simp only [step, GC_addToSpawnOnWBA, if_neg hclean, hsize, bind_eq_bind]
  cases s.spawnOnWBA.add 8 16 ⟨p, proc⟩ with
  | none => rfl
  | some a => simp [pairs]

end MultiMLton.WriteBarrier
