import MultiMLton.Lib.Ring

/-!
# The scheduler queues of `gc/scheduler-queue.c`

A processor has three circular buffers of object pointers.  A buffer of size `n` holds at most
`n - 1` of them; `sqEnque` doubles a full one.  The pointers of a buffer are 32 bits wide, its size
is a `size_t`, and `CircularBufferInit` computes the bytes to allocate in an `int`.

* the functions of the file, in the arithmetic of a 64-bit machine with 8-byte object pointers;
* `Holds`: a buffer holds a list, with its pointers inside;
* `growCircularBuffer_holds`, `sqEnque_holds`, `gcSqDeque_holds`, `foreachObjptrInSQ_holds`,
  `sizeofSchedulerQueue_eq`;
* `schedulerQueue_refines_fifo_iff`: a sequence of operations acts on three FIFO lists exactly when
  it never puts a pointer into a queue of `2 ^ 27 - 1` pointers.

`none` stands for an access outside a buffer, an uninitialised cell, a null pointer and `die`.  One
operation is run at a time, under its lock, and no closure is transferred directly.
-/

namespace MultiMLton.Scheduler

open Ring List Option Nat

universe u

variable {α σ : Type u}

/-! ### Machine integers -/

/-- `uint32_t` -/
def u32 (n : ℕ) : ℕ := n % 2 ^ 32

/-- `a - b` on `uint32_t` -/
def sub32 (a b : ℕ) : ℕ := (a + 2 ^ 32 - b) % 2 ^ 32

/-- `size_t` -/
def sizeT (n : ℕ) : ℕ := n % 2 ^ 64

/-- Conversion of a `size_t` to `int`. -/
def toInt (n : ℕ) : ℤ := Int.bmod n (2 ^ 32)

/-- Conversion of an `int` to `size_t`. -/
def ofInt (i : ℤ) : ℕ := (i % 2 ^ 64).toNat

/-- `malloc`: memory does not run out, but no object is larger than `PTRDIFF_MAX`. -/
def malloc (bytes : ℕ) : Option ℕ := if bytes < 2 ^ 63 then some bytes else none

/-! ### The buffers -/

/-- `CircularBuffer`, with the cells that have been allocated for `keys`. -/
structure CircularBuffer (α : Type u) where
  writePointer : ℕ
  readPointer : ℕ
  size : ℕ
  room : ℕ
  keys : ℕ → Option α

/-- `BUFFER_SIZE` -/
def BUFFER_SIZE : ℤ := 1024

/-- The contents of a cell. -/
def CircularBuffer.read (que : CircularBuffer α) (i : ℕ) : Option α :=
  if i < que.room then que.keys i else none

def CircularBuffer.write (que : CircularBuffer α) (i : ℕ) (k : α) : Option (CircularBuffer α) :=
  if i < que.room then some { que with keys := Function.update que.keys i (some k) } else none

/-- `memcpy` of `n` cells. -/
def memcpy (dst : CircularBuffer α) (off : ℕ) (src : CircularBuffer α) (start n : ℕ) :
    Option (CircularBuffer α) :=
  if start + n ≤ src.room ∧ off + n ≤ dst.room then
    some { dst with keys := fun i =>
      if off ≤ i ∧ i < off + n then src.keys (start + (i - off)) else dst.keys i }
  else none

def CircularBufferInit (size : ℤ) : Option (CircularBuffer α) :=
  let sz := toInt (sizeT (ofInt size * 8 + 16))
  (malloc (ofInt sz)).map fun bytes => ⟨0, 0, ofInt size, (bytes - 16) / 8, fun _ => none⟩

def growCircularBuffer (que : CircularBuffer α) : Option (CircularBuffer α) := do
  let newBuf ← CircularBufferInit (toInt (sizeT (que.size * 2)))
  let newBuf ←
    if que.readPointer < que.writePointer then
      memcpy newBuf 0 que que.readPointer (sub32 que.writePointer que.readPointer)
    else do
      let newBuf ← memcpy newBuf 0 que que.readPointer (que.size - que.readPointer)
      memcpy newBuf (que.size - que.readPointer) que 0 que.writePointer
  return { newBuf with
    writePointer :=
      u32 (sizeT (sub32 que.writePointer que.readPointer + que.size) % que.size) }

def CircularBufferIsFull (que : CircularBuffer α) : Bool :=
  u32 (que.writePointer + 1) % que.size == que.readPointer

def CircularBufferIsEmpty (que : CircularBuffer α) : Bool := que.readPointer == que.writePointer

def CircularBufferEnque (que : CircularBuffer α) (k : α) : Option (CircularBuffer α) := do
  let que ← que.write que.writePointer k
  return { que with writePointer := u32 (u32 (que.writePointer + 1) % que.size) }

/-- The pointer, unless the buffer is empty, and the buffer. -/
def CircularBufferDeque (que : CircularBuffer α) : Option (Option α × CircularBuffer α) :=
  if CircularBufferIsEmpty que then some (none, que)
  else do
    let k ← que.read que.readPointer
    return (some k, { que with readPointer := u32 (u32 (que.readPointer + 1) % que.size) })

/-! ### The queues of a processor -/

/-- `SchedulerQueue` -/
structure SchedulerQueue (α : Type u) where
  primary : CircularBuffer α
  secondary : CircularBuffer α
  parasites : CircularBuffer α

def newSchedulerQueue : Option (SchedulerQueue α) := do
  let primary ← CircularBufferInit BUFFER_SIZE
  let secondary ← CircularBufferInit BUFFER_SIZE
  let parasites ← CircularBufferInit BUFFER_SIZE
  return ⟨primary, secondary, parasites⟩

def getSubQ (sq : SchedulerQueue α) (i : ℤ) : Option (CircularBuffer α) :=
  if i = 0 then some sq.primary
  else if i = 1 then some sq.secondary
  else if i = 2 then some sq.parasites
  else none

/-- The assignments of a buffer to its place. -/
def setSubQ (sq : SchedulerQueue α) (i : ℤ) (cq : CircularBuffer α) : SchedulerQueue α :=
  if i = 0 then { sq with primary := cq }
  else if i = 1 then { sq with secondary := cq }
  else { sq with parasites := cq }

def sqEnque (sq : SchedulerQueue α) (p : α) (i : ℤ) : Option (SchedulerQueue α) := do
  let cq ← getSubQ sq i
  let cq ← (if CircularBufferIsFull cq then growCircularBuffer cq else some cq)
  let cq ← CircularBufferEnque cq p
  return setSubQ sq i cq

/-- `GC_sqDeque` with `i` other than `-1`; the null pointer is `none`. -/
def sqDequeFrom (sq : SchedulerQueue α) (i : ℤ) : Option (Option α × SchedulerQueue α) := do
  let cq ← getSubQ sq i
  let r ← CircularBufferDeque cq
  return (r.1, setSubQ sq i r.2)

def GC_sqDeque (sq : SchedulerQueue α) (i : ℤ) : Option (Option α × SchedulerQueue α) :=
  if i = -1 then
    if ¬ CircularBufferIsEmpty sq.primary then sqDequeFrom sq 0
    else if ¬ CircularBufferIsEmpty sq.secondary then sqDequeFrom sq 1
    else none
  else sqDequeFrom sq i

/-- The `while` loop of `foreachObjptrInSQ`; a round moves the pointer by one cell, so `size` rounds
are enough. -/
def foreachLoop (isObjptr : α → Bool) (f : σ → α → σ × α) (wp : ℕ) :
    ℕ → ℕ → σ → CircularBuffer α → Option (σ × CircularBuffer α)
  | 0, _, _, _ => none
  | fuel + 1, rp, s, cq =>
    if rp = wp then some (s, cq)
    else do
      let op ← cq.read rp
      -- `callIfIsObjptr`
      let r ← if isObjptr op then (cq.write rp (f s op).2).map ((f s op).1, ·) else some (s, cq)
      foreachLoop isObjptr f wp fuel (u32 (u32 (rp + 1) % cq.size)) r.1 r.2

def foreachBuffer (isObjptr : α → Bool) (f : σ → α → σ × α) (s : σ) (cq : CircularBuffer α) :
    Option (σ × CircularBuffer α) :=
  foreachLoop isObjptr f cq.writePointer cq.size cq.readPointer s cq

def foreachObjptrInSQ (isObjptr : α → Bool) (f : σ → α → σ × α) (s : σ) (sq : SchedulerQueue α) :
    Option (σ × SchedulerQueue α) := do
  let r ← foreachBuffer isObjptr f s sq.primary
  let r' ← foreachBuffer isObjptr f r.1 sq.secondary
  let r'' ← foreachBuffer isObjptr f r'.1 sq.parasites
  return (r''.1, ⟨r.2, r'.2, r''.2⟩)

def sizeofSchedulerQueue (sq : SchedulerQueue α) (i : ℤ) : Option ℤ :=
  (getSubQ sq i).map fun cq =>
    toInt (sizeT (sub32 cq.writePointer cq.readPointer + cq.size) % cq.size)

/-! ### Buffers that hold a list -/

/-- The buffer holds `xs`: its size is a power of two that has been allocated, its pointers are
inside, and the cells between them hold `xs`. -/
structure Holds (cq : CircularBuffer α) (xs : List α) : Prop where
  size : ∃ k, 10 ≤ k ∧ k ≤ 27 ∧ cq.size = 2 ^ k
  room : cq.room = cq.size
  rp_lt : cq.readPointer < cq.size
  length_lt : xs.length < cq.size
  wp_eq : cq.writePointer = (cq.readPointer + xs.length) % cq.size
  cells : OnRing cq.keys cq.size cq.readPointer xs

variable {cq : CircularBuffer α} {xs : List α}

theorem Holds.size_pos (h : Holds cq xs) : 0 < cq.size := by
  have := h.rp_lt
  omega

theorem Holds.size_le (h : Holds cq xs) : cq.size ≤ 2 ^ 27 := by
  obtain ⟨k, -, hk, hsize⟩ := h.size
  rw [hsize]
  exact Nat.pow_le_pow_right (by omega) hk

theorem Holds.two_le (h : Holds cq xs) : 2 ≤ cq.size := by
  obtain ⟨k, hk, -, hsize⟩ := h.size
  have := Nat.pow_le_pow_right (show 0 < 2 by omega) hk
  omega

theorem Holds.dvd (h : Holds cq xs) : cq.size ∣ 2 ^ 32 := by
  obtain ⟨k, -, hk, hsize⟩ := h.size
  rw [hsize]
  exact pow_dvd_pow 2 (by omega)

theorem Holds.wp_lt (h : Holds cq xs) : cq.writePointer < cq.size := by
  rw [h.wp_eq]
  exact mod_lt _ h.size_pos

theorem u32_of_lt {n : ℕ} (h : n < 2 ^ 32) : u32 n = n := mod_eq_of_lt h

theorem toInt_of_lt {n : ℕ} (h : n < 2 ^ 31) : toInt n = n := by
  unfold toInt
  rw [Int.bmod_eq_of_le] <;> omega

theorem ofInt_natCast {n : ℕ} (h : n < 2 ^ 64) : ofInt n = n := by
  unfold ofInt
  omega

/-- `CircularBufferInit` gets its memory when the size is at most `2 ^ 27`. -/
theorem circularBufferInit_eq {n : ℕ} (h : n ≤ 2 ^ 27) :
    CircularBufferInit (n : ℤ) = some (⟨0, 0, n, n, fun _ => none⟩ : CircularBuffer α) := by
  have hn : ofInt n = n := ofInt_natCast (by omega)
  have hsize : sizeT (n * 8 + 16) = n * 8 + 16 := mod_eq_of_lt (by omega)
  unfold CircularBufferInit
  simp only [hn, hsize]
  rw [toInt_of_lt (by omega), ofInt_natCast (by omega), malloc, if_pos (by omega)]
  simp

/-- It does not when the size is `2 ^ 28`: the number of bytes is not an `int`. -/
theorem circularBufferInit_large : CircularBufferInit ((2 ^ 28 : ℕ) : ℤ) =
    (none : Option (CircularBuffer α)) := by
  have hmalloc : malloc (ofInt (toInt (sizeT (ofInt ((2 ^ 28 : ℕ) : ℤ) * 8 + 16)))) = none := by
    decide
  unfold CircularBufferInit
  dsimp only
  rw [hmalloc]
  rfl

theorem holds_nil {n : ℕ} (h : ∃ k, 10 ≤ k ∧ k ≤ 27 ∧ n = 2 ^ k) :
    Holds (⟨0, 0, n, n, fun _ => none⟩ : CircularBuffer α) [] := by
  have hpos : 0 < n := by
    obtain ⟨k, -, -, rfl⟩ := h
    positivity
  exact ⟨h, rfl, hpos, hpos, by simp, nofun⟩

/-- The unsigned subtraction gives the length. -/
theorem Holds.length_eq (h : Holds cq xs) :
    sizeT (sub32 cq.writePointer cq.readPointer + cq.size) % cq.size = xs.length := by
  have hsize := h.size_le
  have hlt : sub32 cq.writePointer cq.readPointer < 2 ^ 32 := mod_lt _ (by omega)
  have hsizeT : sizeT (sub32 cq.writePointer cq.readPointer + cq.size) =
      sub32 cq.writePointer cq.readPointer + cq.size := mod_eq_of_lt (by omega)
  rw [hsizeT, sub32, h.wp_eq]
  exact distance_eq h.dvd (by omega) h.rp_lt h.length_lt

theorem Holds.isEmpty_iff (h : Holds cq xs) : CircularBufferIsEmpty cq = true ↔ xs = [] := by
  have hpos := h.size_pos
  have hinj := rotate_inj (j := xs.length) h.rp_lt hpos h.length_lt
  rw [add_zero, mod_eq_of_lt h.rp_lt, ← h.wp_eq] at hinj
  unfold CircularBufferIsEmpty
  rw [beq_iff_eq, hinj, eq_comm, length_eq_zero_iff]

theorem Holds.isFull_iff (h : Holds cq xs) :
    CircularBufferIsFull cq = true ↔ xs.length + 1 = cq.size := by
  have hwp := h.wp_lt
  have hsize := h.size_le
  have hlen := h.length_lt
  have hrp := h.rp_lt
  unfold CircularBufferIsFull
  rw [beq_iff_eq, u32_of_lt (by omega), h.wp_eq, mod_add_mod, add_assoc]
  by_cases hfull : xs.length + 1 = cq.size
  · rw [hfull, add_mod_right, mod_eq_of_lt hrp]
    simp
  · have hinj := rotate_inj (i := xs.length + 1) (j := 0) hrp (by omega) (by omega)
    have hr0 : (cq.readPointer + 0) % cq.size = cq.readPointer := mod_eq_of_lt hrp
    rw [hr0] at hinj
    rw [hinj]
    omega

/-! ### The operations on a buffer -/

theorem read_eq {i : ℕ} (h : i < cq.room) : cq.read i = cq.keys i :=
  if_pos h

theorem write_eq {i : ℕ} (h : i < cq.room) (k : α) :
    cq.write i k = some { cq with keys := Function.update cq.keys i (some k) } := if_pos h

theorem memcpy_eq {dst src : CircularBuffer α} {off start n : ℕ} (hsrc : start + n ≤ src.room)
    (hdst : off + n ≤ dst.room) : memcpy dst off src start n = some { dst with
      keys := fun i =>
        if off ≤ i ∧ i < off + n then src.keys (start + (i - off)) else dst.keys i } :=
  if_pos ⟨hsrc, hdst⟩

/-- A full buffer is copied to the front of one of twice the size, in one piece when it starts at
cell `0` and in two otherwise. -/
theorem growCircularBuffer_holds (h : Holds cq xs)
    (hfull : xs.length + 1 = cq.size) (hsize : cq.size ≠ 2 ^ 27) :
    ∃ cq', growCircularBuffer cq = some cq' ∧ Holds cq' xs ∧ xs.length + 1 < cq'.size := by
  obtain ⟨k, hk10, hk27, hk⟩ := h.size
  have hk26 : k ≤ 26 := by
    have : k ≠ 27 := by
      rintro rfl
      exact hsize hk
    omega
  have hle : cq.size ≤ 2 ^ 26 := by
    rw [hk]
    exact Nat.pow_le_pow_right (by omega) hk26
  have hrp := h.rp_lt
  have hlen := h.length_lt
  have hdouble : toInt (sizeT (cq.size * 2)) = ((cq.size * 2 : ℕ) : ℤ) := by
    have hsizeT : sizeT (cq.size * 2) = cq.size * 2 := mod_eq_of_lt (by omega)
    rw [hsizeT, toInt_of_lt (by omega)]
  have hwp : u32 (sizeT (sub32 cq.writePointer cq.readPointer + cq.size) % cq.size) =
      xs.length := by
    rw [h.length_eq, u32_of_lt (by omega)]
  have hpos : 0 < cq.size := by omega
  -- what the new buffer holds
  have hholds {keys : ℕ → Option α} (hkeys : ∀ i < xs.length, keys i = xs[i]?) :
      Holds (⟨xs.length, 0, cq.size * 2, cq.size * 2, keys⟩ : CircularBuffer α) xs := by
    refine ⟨⟨k + 1, by omega, by omega, ?_⟩, rfl, ?_, ?_, ?_, fun i hi => ?_⟩
    · show cq.size * 2 = 2 ^ (k + 1)
      rw [hk, pow_succ]
    · show 0 < cq.size * 2
      omega
    · show xs.length < cq.size * 2
      omega
    · show xs.length = (0 + xs.length) % (cq.size * 2)
      rw [zero_add, mod_eq_of_lt (by omega)]
    · show keys ((0 + i) % (cq.size * 2)) = xs[i]?
      rw [zero_add, mod_eq_of_lt (by omega)]
      exact hkeys i hi
  unfold growCircularBuffer
  rw [hdouble, circularBufferInit_eq (by omega)]
  simp only [bind_eq_bind, bind_some, hwp]
  by_cases hcase : cq.readPointer < cq.writePointer
  · -- one segment: the read pointer is `0`
    have hwp' := h.wp_eq
    rw [rotate_eq hrp hlen] at hwp'
    have hsub : sub32 cq.writePointer cq.readPointer = xs.length := by
      have hmod : (cq.writePointer + 2 ^ 32 - cq.readPointer) % 2 ^ 32 =
          cq.writePointer - cq.readPointer := by
        have := h.wp_lt
        omega
      rw [sub32, hmod]
      split_ifs at hwp' <;> omega
    have hstraight : cq.readPointer + xs.length < cq.size := by
      split_ifs at hwp' <;> omega
    rw [if_pos hcase, hsub, memcpy_eq (by rw [h.room]; omega) (by show _ ≤ cq.size * 2; omega)]
    refine ⟨_, rfl, hholds fun i hi => ?_, ?_⟩
    · dsimp only
      rw [if_pos ⟨Nat.zero_le _, by omega⟩, Nat.sub_zero]
      have hcell := h.cells i hi
      rwa [mod_eq_of_lt (by omega)] at hcell
    · show xs.length + 1 < cq.size * 2
      omega
  · -- two segments: the write pointer is just before the read pointer
    have hwp' := h.wp_eq
    rw [rotate_eq hrp hlen] at hwp'
    have htwo := h.two_le
    have hwrap : cq.writePointer + cq.size = cq.readPointer + xs.length := by
      split_ifs at hwp' <;> omega
    rw [if_neg hcase, memcpy_eq (by rw [h.room]; omega) (by show _ ≤ cq.size * 2; omega)]
    rw [bind_some, memcpy_eq (by rw [h.room]; have := h.wp_lt; omega)
      (by show _ ≤ cq.size * 2; omega)]
    refine ⟨_, rfl, hholds fun i hi => ?_, ?_⟩
    · have hcell := h.cells i hi
      rw [rotate_eq hrp (by omega)] at hcell
      dsimp only
      by_cases hi' : cq.size - cq.readPointer ≤ i
      · rw [if_neg (by omega)] at hcell
        have he : 0 + (i - (cq.size - cq.readPointer)) = cq.readPointer + i - cq.size := by omega
        rw [if_pos ⟨hi', by omega⟩, he, hcell]
      · rw [if_pos (by omega)] at hcell
        rw [if_neg (by omega), if_pos ⟨Nat.zero_le _, by omega⟩, Nat.sub_zero, hcell]
    · show xs.length + 1 < cq.size * 2
      omega

/-- A buffer of size `2 ^ 27` cannot be doubled. -/
theorem growCircularBuffer_large (h : cq.size = 2 ^ 27) : growCircularBuffer cq = none := by
  have hdouble : toInt (sizeT (cq.size * 2)) = ((2 ^ 28 : ℕ) : ℤ) := by
    rw [h]
    decide
  unfold growCircularBuffer
  rw [hdouble, circularBufferInit_large]
  rfl

theorem circularBufferEnque_holds (h : Holds cq xs) (hroom : xs.length + 1 < cq.size) (p : α) :
    ∃ cq', CircularBufferEnque cq p = some cq' ∧ Holds cq' (xs ++ [p]) := by
  have hwp := h.wp_lt
  have hsize := h.size_le
  unfold CircularBufferEnque
  rw [write_eq (by rw [h.room]; exact hwp)]
  refine ⟨_, rfl, h.size, h.room, h.rp_lt, ?_, ?_, ?_⟩
  · rw [length_append, length_singleton]
    exact hroom
  · show u32 (u32 (cq.writePointer + 1) % cq.size) = _
    have hlt : (cq.writePointer + 1) % cq.size < 2 ^ 32 :=
      (mod_lt _ h.size_pos).trans_le (by omega)
    rw [u32_of_lt (show cq.writePointer + 1 < 2 ^ 32 by omega), u32_of_lt hlt, h.wp_eq,
      mod_add_mod, length_append, length_singleton, add_assoc]
  · show OnRing (Function.update cq.keys cq.writePointer (some p)) _ _ _
    rw [h.wp_eq]
    exact h.cells.snoc h.rp_lt h.length_lt p

theorem circularBufferDeque_cons {x : α} (h : Holds cq (x :: xs)) :
    ∃ cq', CircularBufferDeque cq = some (some x, cq') ∧ Holds cq' xs := by
  have hrp := h.rp_lt
  have hsize := h.size_le
  have hlen := h.length_lt
  have hempty : ¬ CircularBufferIsEmpty cq = true := by
    rw [h.isEmpty_iff]
    exact cons_ne_nil _ _
  unfold CircularBufferDeque
  rw [if_neg hempty, read_eq (by rw [h.room]; exact hrp), h.cells.head hrp]
  have hlt : (cq.readPointer + 1) % cq.size < 2 ^ 32 :=
    (mod_lt _ h.size_pos).trans_le (by omega)
  have hrp' : u32 (u32 (cq.readPointer + 1) % cq.size) = (cq.readPointer + 1) % cq.size := by
    rw [u32_of_lt (show cq.readPointer + 1 < 2 ^ 32 by omega), u32_of_lt hlt]
  refine ⟨_, rfl, h.size, h.room, ?_, ?_, ?_, ?_⟩
  · show u32 (u32 (cq.readPointer + 1) % cq.size) < cq.size
    rw [hrp']
    exact mod_lt _ h.size_pos
  · rw [length_cons] at hlen
    show xs.length < cq.size
    omega
  · show cq.writePointer = (u32 (u32 (cq.readPointer + 1) % cq.size) + xs.length) % cq.size
    rw [hrp', h.wp_eq, mod_add_mod, length_cons]
    congr 1
    omega
  · show OnRing cq.keys cq.size (u32 (u32 (cq.readPointer + 1) % cq.size)) xs
    rw [hrp']
    exact h.cells.tail

theorem circularBufferDeque_nil (h : Holds cq []) : CircularBufferDeque cq = some (none, cq) := by
  unfold CircularBufferDeque
  rw [if_pos (h.isEmpty_iff.2 rfl)]

/-- `f` on the object pointers of a list, from the first to the last. -/
def visit (isObjptr : α → Bool) (f : σ → α → σ × α) : σ → List α → σ × List α
  | s, [] => (s, [])
  | s, x :: xs =>
    let r := if isObjptr x then f s x else (s, x)
    let r' := visit isObjptr f r.1 xs
    (r'.1, r.2 :: r'.2)

theorem foreachLoop_holds (isObjptr : α → Bool) (f : σ → α → σ × α) {fuel : ℕ} {s : σ}
    {done xs : List α} (h : Holds cq (done ++ xs)) (hfuel : xs.length < fuel) :
    ∃ cq', foreachLoop isObjptr f cq.writePointer fuel ((cq.readPointer + done.length) % cq.size) s
        cq = some ((visit isObjptr f s xs).1, cq') ∧
      Holds cq' (done ++ (visit isObjptr f s xs).2) := by
  induction xs generalizing fuel s cq done with
  | nil =>
    obtain ⟨fuel, rfl⟩ := exists_eq_succ_of_ne_zero (show fuel ≠ 0 by simp at hfuel; omega)
    have heq : (cq.readPointer + done.length) % cq.size = cq.writePointer := by
      rw [h.wp_eq, append_nil]
    exact ⟨cq, by rw [foreachLoop, if_pos heq]; rfl, h⟩
  | cons x xs ih =>
    obtain ⟨fuel, rfl⟩ := exists_eq_succ_of_ne_zero (show fuel ≠ 0 by simp at hfuel; omega)
    have hlen := h.length_lt
    have hsize := h.size_le
    simp only [length_append, length_cons] at hlen hfuel
    have hcell : cq.keys ((cq.readPointer + done.length) % cq.size) = some x := by
      have := h.cells done.length (by simp)
      simpa using this
    have hne : (cq.readPointer + done.length) % cq.size ≠ cq.writePointer := by
      rw [h.wp_eq]
      intro e
      have := (rotate_inj h.rp_lt (by omega) (by simpa using hlen)).1 e
      simp at this
    have hin : (cq.readPointer + done.length) % cq.size < cq.room := by
      rw [h.room]
      exact mod_lt _ h.size_pos
    have hnext : u32 (u32 ((cq.readPointer + done.length) % cq.size + 1) % cq.size) =
        (cq.readPointer + (done.length + 1)) % cq.size := by
      have hlt := mod_lt (cq.readPointer + done.length) h.size_pos
      have hlt' : (cq.readPointer + (done.length + 1)) % cq.size < 2 ^ 32 :=
        (mod_lt _ h.size_pos).trans_le (by omega)
      rw [u32_of_lt (show (cq.readPointer + done.length) % cq.size + 1 < 2 ^ 32 by omega),
        mod_add_mod, add_assoc, u32_of_lt hlt']
    rw [foreachLoop, if_neg hne, read_eq hin, hcell]
    simp only [bind_eq_bind, bind_some]
    -- the loop goes on with the cell of `x` written or not
    have hgo {y : α} {t : σ} {cq' : CircularBuffer α} (hcq' : Holds cq' (done ++ y :: xs))
        (hrp : cq'.readPointer = cq.readPointer) (hwp : cq'.writePointer = cq.writePointer)
        (hsz : cq'.size = cq.size) :
        ∃ cq'', foreachLoop isObjptr f cq.writePointer fuel
            ((cq.readPointer + (done.length + 1)) % cq.size) t cq' =
            some ((visit isObjptr f t xs).1, cq'') ∧
          Holds cq'' (done ++ y :: (visit isObjptr f t xs).2) := by
      have happ : Holds cq' ((done ++ [y]) ++ xs) := by simpa using hcq'
      obtain ⟨cq'', hloop, hholds⟩ := ih (s := t) happ (by omega : xs.length < fuel)
      rw [length_append, length_singleton, hrp, hwp, hsz] at hloop
      exact ⟨cq'', hloop, by simpa using hholds⟩
    by_cases hx : isObjptr x = true
    · rw [if_pos hx, write_eq hin]
      simp only [map_some, bind_some, visit, hx, if_true]
      have hset : Holds { cq with
          keys := Function.update cq.keys ((cq.readPointer + done.length) % cq.size)
            (some (f s x).2) } (done ++ (f s x).2 :: xs) := by
        refine ⟨h.size, h.room, h.rp_lt, ?_, ?_, h.cells.set h.rp_lt h.length_lt.le⟩
        · simpa using h.length_lt
        · simpa using h.wp_eq
      rw [hnext]
      exact hgo hset rfl rfl rfl
    · rw [if_neg hx]
      simp only [visit, hx]
      rw [hnext]
      exact hgo h rfl rfl rfl

theorem foreachBuffer_holds (isObjptr : α → Bool) (f : σ → α → σ × α) (s : σ) (h : Holds cq xs) :
    ∃ cq', foreachBuffer isObjptr f s cq = some ((visit isObjptr f s xs).1, cq') ∧
      Holds cq' (visit isObjptr f s xs).2 := by
  have h' : Holds cq ([] ++ xs) := h
  obtain ⟨cq', hloop, hholds⟩ := foreachLoop_holds isObjptr f (s := s) h' h.length_lt
  have hr0 : (cq.readPointer + ([] : List α).length) % cq.size = cq.readPointer :=
    mod_eq_of_lt h.rp_lt
  rw [hr0] at hloop
  exact ⟨cq', hloop, hholds⟩

/-! ### The three queues -/

/-- Three unbounded queues. -/
structure Fifo (α : Type u) where
  primary : List α
  secondary : List α
  parasites : List α

namespace Fifo

def get (q : Fifo α) (i : ℤ) : Option (List α) :=
  if i = 0 then some q.primary
  else if i = 1 then some q.secondary
  else if i = 2 then some q.parasites
  else none

def set (q : Fifo α) (i : ℤ) (xs : List α) : Fifo α :=
  if i = 0 then { q with primary := xs }
  else if i = 1 then { q with secondary := xs }
  else { q with parasites := xs }

end Fifo

/-- The operations: `sqEnque` of a pointer into queue `i` and `GC_sqDeque` from queue `i`. -/
inductive Op (α : Type u)
  | enque (p : α) (i : ℤ)
  | deque (i : ℤ)

/-- An operation on the unbounded queues, with the pointer that it returns.  A deque with `i = -1`
serves the primary queue before the secondary one and does not return when both are empty; there is
no queue but `0`, `1` and `2`. -/
def Fifo.step (q : Fifo α) : Op α → Option (Option α × Fifo α)
  | .enque p i => (q.get i).map fun xs => (none, q.set i (xs ++ [p]))
  | .deque i =>
    let j := if i ≠ -1 then i else if q.primary ≠ [] then 0 else if q.secondary ≠ [] then 1 else -1
    (q.get j).map fun xs => (xs.head?, q.set j xs.tail)

/-- An operation of the code. -/
def exec (sq : SchedulerQueue α) : Op α → Option (Option α × SchedulerQueue α)
  | .enque p i => (sqEnque sq p i).map (none, ·)
  | .deque i => GC_sqDeque sq i

/-- The buffers of a processor hold its queues. -/
structure HoldsAll (sq : SchedulerQueue α) (q : Fifo α) : Prop where
  primary : Holds sq.primary q.primary
  secondary : Holds sq.secondary q.secondary
  parasites : Holds sq.parasites q.parasites

variable {sq : SchedulerQueue α} {q : Fifo α}

theorem HoldsAll.get (h : HoldsAll sq q) {i : ℤ}
    (hi : q.get i = some xs) : ∃ cq, getSubQ sq i = some cq ∧ Holds cq xs := by
  unfold Fifo.get at hi
  unfold getSubQ
  split_ifs at hi ⊢
  · exact ⟨_, rfl, Option.some.inj hi ▸ h.primary⟩
  · exact ⟨_, rfl, Option.some.inj hi ▸ h.secondary⟩
  · exact ⟨_, rfl, Option.some.inj hi ▸ h.parasites⟩

theorem HoldsAll.set (h : HoldsAll sq q) (hcq : Holds cq xs) (i : ℤ) :
    HoldsAll (setSubQ sq i cq) (q.set i xs) := by
  unfold setSubQ Fifo.set
  split_ifs
  · exact ⟨hcq, h.secondary, h.parasites⟩
  · exact ⟨h.primary, hcq, h.parasites⟩
  · exact ⟨h.primary, h.secondary, hcq⟩

theorem newSchedulerQueue_holds :
    ∃ sq : SchedulerQueue α, newSchedulerQueue = some sq ∧ HoldsAll sq ⟨[], [], []⟩ := by
  have hinit : CircularBufferInit BUFFER_SIZE =
      some (⟨0, 0, 1024, 1024, fun _ => none⟩ : CircularBuffer α) :=
    circularBufferInit_eq (n := 1024) (by omega)
  have hholds : Holds (⟨0, 0, 1024, 1024, fun _ => none⟩ : CircularBuffer α) [] :=
    holds_nil ⟨10, le_rfl, by omega, rfl⟩
  unfold newSchedulerQueue
  rw [hinit]
  exact ⟨_, rfl, hholds, hholds, hholds⟩

/-- `sqEnque` appends, unless the queue holds `2 ^ 27 - 1` pointers. -/
theorem sqEnque_holds (h : HoldsAll sq q) {i : ℤ}
    (hi : q.get i = some xs) (hlen : xs.length + 1 ≠ 2 ^ 27) (p : α) :
    ∃ sq', sqEnque sq p i = some sq' ∧ HoldsAll sq' (q.set i (xs ++ [p])) := by
  obtain ⟨cq, hcq, hholds⟩ := h.get hi
  obtain ⟨cq', hgrow, hholds', hroom⟩ : ∃ cq', (if CircularBufferIsFull cq = true then
      growCircularBuffer cq else some cq) = some cq' ∧ Holds cq' xs ∧ xs.length + 1 < cq'.size := by
    by_cases hfull : CircularBufferIsFull cq = true
    · rw [if_pos hfull]
      have hsize := hholds.isFull_iff.1 hfull
      exact growCircularBuffer_holds hholds hsize (by omega)
    · rw [if_neg hfull]
      have hne := mt hholds.isFull_iff.2 hfull
      have hlt := hholds.length_lt
      exact ⟨cq, rfl, hholds, by omega⟩
  obtain ⟨cq'', henque, hholds''⟩ := circularBufferEnque_holds hholds' hroom p
  refine ⟨setSubQ sq i cq'', ?_, h.set hholds'' i⟩
  unfold sqEnque
  rw [hcq, bind_eq_bind, bind_some, hgrow, bind_some, henque]
  rfl

/-- The buffer of a queue of `2 ^ 27 - 1` pointers is full and cannot be doubled. -/
theorem sqEnque_large (h : HoldsAll sq q) {i : ℤ}
    (hi : q.get i = some xs) (hlen : xs.length + 1 = 2 ^ 27) (p : α) : sqEnque sq p i = none := by
  obtain ⟨cq, hcq, hholds⟩ := h.get hi
  have hlt := hholds.length_lt
  have hsize : cq.size = 2 ^ 27 := le_antisymm hholds.size_le (by omega)
  have hfull : CircularBufferIsFull cq = true := hholds.isFull_iff.2 (by omega)
  unfold sqEnque
  rw [hcq, bind_eq_bind, bind_some, if_pos hfull, growCircularBuffer_large hsize]
  rfl

theorem sqDequeFrom_holds (h : HoldsAll sq q) {i : ℤ} (hi : q.get i = some xs) :
    ∃ sq', sqDequeFrom sq i = some (xs.head?, sq') ∧ HoldsAll sq' (q.set i xs.tail) := by
  obtain ⟨cq, hcq, hholds⟩ := h.get hi
  unfold sqDequeFrom
  rw [hcq, bind_eq_bind, bind_some]
  cases xs with
  | nil =>
    rw [circularBufferDeque_nil hholds]
    exact ⟨_, rfl, h.set hholds i⟩
  | cons x xs =>
    obtain ⟨cq', hdeque, hholds'⟩ := circularBufferDeque_cons hholds
    rw [hdeque]
    exact ⟨_, rfl, h.set hholds' i⟩

theorem gcSqDeque_holds (h : HoldsAll sq q) {i : ℤ}
    {r : Option α × Fifo α} (hr : q.step (.deque i) = some r) :
    ∃ sq', GC_sqDeque sq i = some (r.1, sq') ∧ HoldsAll sq' r.2 := by
  obtain ⟨xs, hxs, rfl⟩ := map_eq_some_iff.1 hr
  obtain ⟨sq', hsq', hholds⟩ := sqDequeFrom_holds h hxs
  refine ⟨sq', ?_, hholds⟩
  rw [← hsq']
  unfold GC_sqDeque
  by_cases hi : i = -1
  · subst hi
    have hp := h.primary.isEmpty_iff
    have hs := h.secondary.isEmpty_iff
    by_cases hprim : q.primary = []
    · by_cases hsec : q.secondary = []
      · simp [hprim, hsec, Fifo.get] at hxs
      · simp [hp, hs, hprim, hsec]
    · simp [hp, hprim]
  · simp [hi]

/-- `f` on the object pointers of the three queues. -/
def Fifo.visit (isObjptr : α → Bool) (f : σ → α → σ × α) (s : σ) (q : Fifo α) : σ × Fifo α :=
  let r := Scheduler.visit isObjptr f s q.primary
  let r' := Scheduler.visit isObjptr f r.1 q.secondary
  let r'' := Scheduler.visit isObjptr f r'.1 q.parasites
  (r''.1, ⟨r.2, r'.2, r''.2⟩)

/-- `foreachObjptrInSQ` calls `f` once for each queued pointer, queue by queue, and stores what it
returns in the place of the pointer. -/
theorem foreachObjptrInSQ_holds (isObjptr : α → Bool) (f : σ → α → σ × α) (s : σ)
    (h : HoldsAll sq q) :
    ∃ sq', foreachObjptrInSQ isObjptr f s sq = some ((q.visit isObjptr f s).1, sq') ∧
      HoldsAll sq' (q.visit isObjptr f s).2 := by
  obtain ⟨p, hp, hp'⟩ := foreachBuffer_holds isObjptr f s h.primary
  obtain ⟨c, hc, hc'⟩ := foreachBuffer_holds isObjptr f (visit isObjptr f s q.primary).1 h.secondary
  obtain ⟨r, hr, hr'⟩ := foreachBuffer_holds isObjptr f
    (visit isObjptr f (visit isObjptr f s q.primary).1 q.secondary).1 h.parasites
  refine ⟨⟨p, c, r⟩, ?_, hp', hc', hr'⟩
  unfold foreachObjptrInSQ
  rw [hp, bind_eq_bind, bind_some, hc, bind_some, hr]
  rfl

theorem sizeofSchedulerQueue_eq (h : HoldsAll sq q) {i : ℤ} (hi : q.get i = some xs) :
    sizeofSchedulerQueue sq i = some (xs.length : ℤ) := by
  obtain ⟨cq, hcq, hholds⟩ := h.get hi
  have hlen := hholds.length_lt
  have hsize := hholds.size_le
  unfold sizeofSchedulerQueue
  rw [hcq, map_some, hholds.length_eq, toInt_of_lt (by omega)]

/-! ### Sequences of operations -/

/-- The state holds the queues: the pointers are inside the buffers, the unsigned subtraction gives
the lengths, and a traversal visits each queued pointer once, in order, and changes nothing else. -/
structure Faithful (sq : SchedulerQueue α) (q : Fifo α) : Prop where
  holds : HoldsAll sq q
  inside : ∀ i cq, getSubQ sq i = some cq →
    cq.readPointer < cq.size ∧ cq.writePointer < cq.size ∧ cq.size = cq.room
  lengths : ∀ i xs, q.get i = some xs → sizeofSchedulerQueue sq i = some (xs.length : ℤ)
  visits : ∀ (σ : Type u) (isObjptr : α → Bool) (f : σ → α → σ × α) (s : σ), ∃ sq',
    foreachObjptrInSQ isObjptr f s sq = some ((q.visit isObjptr f s).1, sq') ∧
      HoldsAll sq' (q.visit isObjptr f s).2

theorem HoldsAll.inside (h : HoldsAll sq q) {i : ℤ} (hcq : getSubQ sq i = some cq) :
    cq.readPointer < cq.size ∧ cq.writePointer < cq.size ∧ cq.size = cq.room := by
  have hone {cq : CircularBuffer α} {xs : List α} (hh : Holds cq xs) :
      cq.readPointer < cq.size ∧ cq.writePointer < cq.size ∧ cq.size = cq.room :=
    ⟨hh.rp_lt, hh.wp_lt, hh.room.symm⟩
  unfold getSubQ at hcq
  split_ifs at hcq
  · exact Option.some.inj hcq ▸ hone h.primary
  · exact Option.some.inj hcq ▸ hone h.secondary
  · exact Option.some.inj hcq ▸ hone h.parasites

theorem HoldsAll.faithful (h : HoldsAll sq q) : Faithful sq q where
  holds := h
  inside := fun _ _ hcq => h.inside hcq
  lengths := fun _ _ hi => sizeofSchedulerQueue_eq h hi
  visits := fun _ isObjptr f s => foreachObjptrInSQ_holds isObjptr f s h

/-- The queues are held in each state of a sequence of operations, and each operation that the
unbounded queues have returns what it returns there. -/
def Refines : List (Op α) → Fifo α → SchedulerQueue α → Prop
  | [], q, sq => Faithful sq q
  | op :: ops, q, sq => Faithful sq q ∧ ∀ r, q.step op = some r →
      ∃ sq', exec sq op = some (r.1, sq') ∧ Refines ops r.2 sq'

/-- An `sqEnque` does not find `2 ^ 27 - 1` pointers in its queue. -/
def Fifo.HasRoom (q : Fifo α) : Op α → Prop
  | .enque _ i => ∀ xs, q.get i = some xs → xs.length + 1 < 2 ^ 27
  | .deque _ => True

/-- Each operation of a sequence finds room. -/
def Fits : List (Op α) → Fifo α → Prop
  | [], _ => True
  | op :: ops, q => q.HasRoom op ∧ ∀ r, q.step op = some r → Fits ops r.2

theorem exec_holds (h : HoldsAll sq q) {op : Op α}
    (hroom : q.HasRoom op) {r : Option α × Fifo α} (hr : q.step op = some r) :
    ∃ sq', exec sq op = some (r.1, sq') ∧ HoldsAll sq' r.2 := by
  cases op with
  | enque p i =>
    obtain ⟨xs, hxs, rfl⟩ := map_eq_some_iff.1 hr
    obtain ⟨sq', hsq', hholds⟩ := sqEnque_holds h hxs (hroom xs hxs).ne p
    exact ⟨sq', map_eq_some_iff.2 ⟨sq', hsq', rfl⟩, hholds⟩
  | deque i => exact gcSqDeque_holds h hr

/-- An operation that the unbounded queues have and the code performs has found room. -/
theorem hasRoom_of_exec (h : HoldsAll sq q) {op : Op α}
    (hexec : ∀ r, q.step op = some r → ∃ sq', exec sq op = some (r.1, sq')) : q.HasRoom op := by
  cases op with
  | enque p i =>
    intro xs hxs
    obtain ⟨cq, -, hholds⟩ := h.get hxs
    have hlt := hholds.length_lt
    have hsize := hholds.size_le
    by_contra hlen
    obtain ⟨sq', hsq'⟩ := hexec (none, q.set i (xs ++ [p])) (by simp [Fifo.step, hxs])
    rw [exec, sqEnque_large h hxs (by omega)] at hsq'
    cases hsq'
  | deque i => trivial

theorem refines_iff_fits {ops : List (Op α)}
    (h : HoldsAll sq q) : Refines ops q sq ↔ Fits ops q := by
  induction ops generalizing q sq with
  | nil => exact iff_of_true h.faithful trivial
  | cons op ops ih =>
    constructor
    · rintro ⟨-, hrun⟩
      have hroom : q.HasRoom op := hasRoom_of_exec h fun r hr =>
        let ⟨sq', hsq', _⟩ := hrun r hr
        ⟨sq', hsq'⟩
      refine ⟨hroom, fun r hr => ?_⟩
      obtain ⟨sq', hsq', hrest⟩ := hrun r hr
      obtain ⟨sq'', hsq'', hholds⟩ := exec_holds h hroom hr
      obtain rfl : sq' = sq'' := by simpa [hsq'] using hsq''
      exact (ih hholds).1 hrest
    · rintro ⟨hroom, hrun⟩
      refine ⟨h.faithful, fun r hr => ?_⟩
      obtain ⟨sq', hsq', hholds⟩ := exec_holds h hroom hr
      exact ⟨sq', hsq', (ih hholds).2 (hrun r hr)⟩

/-- From the queues of `newSchedulerQueue`, a sequence of operations acts on three unbounded queues
exactly when no `sqEnque` of it finds `2 ^ 27 - 1` pointers in its queue. -/
theorem schedulerQueue_refines_fifo_iff (ops : List (Op α)) :
    ∃ sq : SchedulerQueue α, newSchedulerQueue = some sq ∧
      (Refines ops ⟨[], [], []⟩ sq ↔ Fits ops ⟨[], [], []⟩) := by
  obtain ⟨sq, hsq, hholds⟩ := newSchedulerQueue_holds (α := α)
  exact ⟨sq, hsq, refines_iff_fits hholds⟩

theorem length_of_fits {n : ℕ} {p : α}
    (h : Fits (replicate n (.enque p 0)) ⟨xs, [], []⟩) (hn : 0 < n) :
    xs.length + n < 2 ^ 27 := by
  induction n generalizing xs with
  | zero => omega
  | succ n ih =>
    obtain ⟨hroom, hrest⟩ := h
    have hlen : xs.length + 1 < 2 ^ 27 := hroom xs rfl
    cases n with
    | zero => exact hlen
    | succ n =>
      have := ih (hrest (none, ⟨xs ++ [p], [], []⟩) rfl) (by omega)
      rw [length_append, length_singleton] at this
      omega

/-- `2 ^ 27` calls of `sqEnque` with no `GC_sqDeque` between them: the last one does not return. -/
theorem not_refines_fifo : ¬ ∃ sq : SchedulerQueue ℕ, newSchedulerQueue = some sq ∧
    Refines (List.replicate (2 ^ 27) (.enque 7 0)) ⟨[], [], []⟩ sq := by
  rintro ⟨sq, hsq, hrefines⟩
  obtain ⟨sq', hsq', hholds⟩ := newSchedulerQueue_holds (α := ℕ)
  obtain rfl : sq = sq' := by simpa [hsq] using hsq'
  have := length_of_fits ((refines_iff_fits hholds).1 hrefines) (by positivity)
  omega

end MultiMLton.Scheduler
