import MultiMLton.Runtime.Object

/-!
# Allocation of arrays

`GC_arrayAllocate` of `gc/array-allocate.c`, in the arithmetic of its types: `size_t` has as many
bits as a pointer, `uintmax_t` has 64, and addresses wrap around like `size_t`.

* `Collector`: the functions that make room, of which only what they assert at their end is known;
* `Exact`: what the array that is returned should be;
* `GC_arrayAllocate_exact_iff`: it is, exactly where no sum wraps.
-/

namespace MultiMLton.GC.ArrayAllocate

open GC List Option Nat

/-- The fields of `GC_state` and of its local heap that are read or set. -/
structure State where
  start : ℕ
  size : ℕ
  oldGenSize : ℕ
  nursery : ℕ
  frontier : ℕ
  limitPlusSlop : ℕ
  canMinor : Bool
  deriving DecidableEq

/-- What the header says of an element; `uint16_t` both. -/
structure Element where
  bytesNonObjptrs : ℕ
  numObjptrs : ℕ
  deriving DecidableEq

/-- A word that is written. -/
inductive Word
  | counter
  | length (numElements : ℕ)
  | header
  | bogus
  deriving DecidableEq

section Code

variable (m : Model)

/-- The number of values of `size_t`. -/
def sizeMod : ℕ := 2 ^ (8 * m.objptrSize)

def SIZE_MAX : ℕ := sizeMod m - 1

def bytesPerElement (e : Element) : ℕ := e.bytesNonObjptrs + e.numObjptrs * m.objptrSize

/-- `alignMax`, in `uintmax_t` -/
def alignMax (a b : ℕ) : ℕ := (a + (b - 1)) % 2 ^ 64 / b * b

/-- `arraySize` and `arraySizeAligned`, unless the array is too large. -/
def arraySizes (e : Element) (numElements : ℕ) : Option (ℕ × ℕ) :=
  let arraySizeMax := (bytesPerElement m e * numElements + m.arrayHeaderSize) % 2 ^ 64
  let arraySizeAlignedMax := alignMax arraySizeMax m.alignment
  if arraySizeAlignedMax ≥ SIZE_MAX m then none
  else if arraySizeAlignedMax < m.arrayHeaderSize + m.objptrSize then
    some (m.arrayHeaderSize, align (m.arrayHeaderSize + m.objptrSize) m.alignment)
  else some (arraySizeMax % sizeMod m, arraySizeAlignedMax)

/-- `hasHeapBytesFree`, for a local heap -/
def hasHeapBytesFree (s : State) (oldGen nursery : ℕ) : Bool :=
  let total := (s.oldGenSize + oldGen
    + (if s.canMinor then 2 else 1) * (s.frontier - s.nursery)) % sizeMod m
  decide (total ≤ s.size) && decide ((s.start + s.oldGenSize + oldGen) % sizeMod m ≤ s.nursery)
    && decide (nursery ≤ s.limitPlusSlop - s.frontier)

/-- The invariant of a local heap. -/
structure WF (s : State) : Prop where
  oldGen_le : s.start + s.oldGenSize ≤ s.nursery
  nursery_le : s.nursery ≤ s.frontier
  frontier_le : s.frontier ≤ s.limitPlusSlop
  limit_lt : s.limitPlusSlop < sizeMod m
  oldGen_aligned : m.alignment ∣ s.start + s.oldGenSize + m.headerSize
  frontier_aligned : m.alignment ∣ s.frontier + m.headerSize

/-- `performGC` and `ensureHasHeapBytesFreeAndOrInvariantForMutator` with the arguments that
`GC_arrayAllocate` gives them. They may end the process; if they return, the heap satisfies its
invariant and, as `hasHeapBytesFree` has it, there is room. -/
structure Collector where
  performGC : State → ℕ → ℕ → Option State
  ensureHasHeapBytesFree : State → ℕ → Option State
  performGC_spec : ∀ {s t oldGen nursery}, WF m s → performGC s oldGen nursery = some t →
    WF m t ∧ hasHeapBytesFree m t oldGen nursery = true
  ensureHasHeapBytesFree_spec : ∀ {s t nursery}, WF m s → ensureHasHeapBytesFree s nursery = some t →
    WF m t ∧ hasHeapBytesFree m t 0 nursery = true

/-- `for ( ; p < last; p += OBJPTR_SIZE) *((objptr*)p) = BOGUS_OBJPTR` -/
def initObjptrs (last p : ℕ) : List (ℕ × Word) :=
  if _ : p < last then (p, .bogus) :: initObjptrs last (p + m.objptrSize) else []
termination_by last - p
decreasing_by
  rcases m.objptrSize_eq with heq | heq <;> omega

/-- The loop over elements with pointers and other bytes. -/
def initElements (e : Element) (h : 0 < e.bytesNonObjptrs) (last p : ℕ) : List (ℕ × Word) :=
  if _ : p < last then
    let p := p + e.bytesNonObjptrs
    let next := p + e.numObjptrs * m.objptrSize
    initObjptrs m next p ++ initElements e h last next
  else []
termination_by last - p

/-- The initialization of the array at `frontier`. -/
def initArray (e : Element) (numElements arraySize frontier : ℕ) : List (ℕ × Word) :=
  let last := (frontier + arraySize) % sizeMod m
  let result := (frontier + m.arrayHeaderSize) % sizeMod m
  [(frontier, .counter), (frontier + m.objptrSize, .length numElements),
    (frontier + 2 * m.objptrSize, .header)] ++
    if 1 ≤ e.numObjptrs ∧ 0 < numElements then
      if h : 0 < e.bytesNonObjptrs then initElements m e h last result
      else initObjptrs m last result
    else []

/-- What is returned: the array, the words that are written and the state; `before` is the state in
which the space is taken, of so many bytes from `block` on. -/
structure Result where
  array : ℕ
  writes : List (ℕ × Word)
  after : State
  before : State
  block : ℕ
  bytes : ℕ

/-- The fields that the runtime is started with. -/
structure Controls where
  oldGenArraySize : ℕ

variable {m} (c : Collector m) (ctl : Controls)

/-- The allocation in the old generation. -/
def allocOldGen (s : State) (ensureBytesFree arraySizeAligned : ℕ) : Option (State × State × ℕ) := do
  let s ← (if hasHeapBytesFree m s arraySizeAligned ensureBytesFree then some s
    else c.performGC s arraySizeAligned ensureBytesFree)
  let frontier := s.start + s.oldGenSize
  pure (s, { s with oldGenSize := (s.oldGenSize + arraySizeAligned) % sizeMod m }, frontier)

/-- The local allocation. -/
def allocLocal (s : State) (ensureBytesFree arraySizeAligned : ℕ) : Option (State × State × ℕ) := do
  let bytesRequested := (arraySizeAligned + ensureBytesFree) % sizeMod m
  let s ← (if hasHeapBytesFree m s 0 bytesRequested then some s
    else c.ensureHasHeapBytesFree s bytesRequested)
  let frontier := s.frontier
  pure (s, { s with frontier := (frontier + arraySizeAligned) % sizeMod m }, frontier)

/-- Nothing is returned if the process ends, out of memory. -/
def GC_arrayAllocate (s : State) (ensureBytesFree numElements : ℕ) (e : Element) :
    Option Result := do
  let (arraySize, arraySizeAligned) ← arraySizes m e numElements
  let holdLock := decide (arraySizeAligned ≥ ctl.oldGenArraySize)
  let (before, after, frontier) ←
    (if holdLock then allocOldGen c s ensureBytesFree arraySizeAligned
    else allocLocal c s ensureBytesFree arraySizeAligned)
  pure {
    array := (frontier + m.arrayHeaderSize) % sizeMod m
    writes := initArray m e numElements arraySize frontier
    after := after
    before := before
    block := frontier
    bytes := arraySizeAligned }

/-- `sizeofArrayNoHeader` and `sizeofObject` of an array, in `size_t` -/
def sizeofArray (m : Model) (numElements : ℕ) (e : Element) : ℕ :=
  let result := numElements * bytesPerElement m e % sizeMod m
  let result := if result < m.objptrSize then m.objptrSize else result
  let aligned := ((result + m.arrayHeaderSize) % sizeMod m + (m.alignment - 1)) % sizeMod m
    / m.alignment * m.alignment
  (m.arrayHeaderSize + (aligned + (sizeMod m - m.arrayHeaderSize))) % sizeMod m

end Code

/-! ### What the array should be -/

section Exact

variable (m : Model)

/-- The addresses of the object pointers of an array. -/
def IsSlot (array numElements : ℕ) (e : Element) (p : ℕ) : Prop :=
  ∃ i < numElements, ∃ j < e.numObjptrs,
    p = array + i * bytesPerElement m e + e.bytesNonObjptrs + j * m.objptrSize

/-- The array lies in free space, is large enough and initialized, and leaves the bytes free. -/
structure Exact (ctl : Controls) (ensureBytesFree numElements : ℕ) (e : Element) (r : Result) :
    Prop where
  array_eq : r.array = r.block + m.arrayHeaderSize
  aligned : m.alignment ∣ r.array ∧ m.alignment ∣ r.bytes
  /-- in the old generation or in the local chunk, where it was free -/
  free : (ctl.oldGenArraySize ≤ r.bytes ∧ r.block = r.before.start + r.before.oldGenSize ∧
      r.block + r.bytes ≤ r.before.nursery) ∨
    (r.bytes < ctl.oldGenArraySize ∧ r.block = r.before.frontier ∧
      r.block + r.bytes ≤ r.before.limitPlusSlop)
  /-- and no longer is -/
  taken : r.after.start + r.after.oldGenSize =
      r.before.start + r.before.oldGenSize + (if ctl.oldGenArraySize ≤ r.bytes then r.bytes else 0) ∧
    r.after.frontier = r.before.frontier + (if ctl.oldGenArraySize ≤ r.bytes then 0 else r.bytes)
  large : m.arrayHeaderSize + bytesPerElement m e * numElements ≤ r.bytes
  sizeofObject : sizeofArray m numElements e = r.bytes
  ensured : r.after.frontier + ensureBytesFree ≤ r.after.limitPlusSlop
  length : (r.block + m.objptrSize, .length numElements) ∈ r.writes
  /-- the slots are what is set to `BOGUS_OBJPTR` -/
  slots : ∀ p, (p, .bogus) ∈ r.writes ↔ IsSlot m r.array numElements e p

/-- The size of the array with its header, as a number. -/
def arrayBytes (numElements : ℕ) (e : Element) : ℕ :=
  align (max (bytesPerElement m e * numElements) m.objptrSize + m.arrayHeaderSize) m.alignment

/-- No sum wraps: not the size of the array, nor what is asked for in the state in which the space
is taken. -/
def Fits (ctl : Controls) (s : State) (ensureBytesFree numElements : ℕ) (e : Element) : Prop :=
  arrayBytes m numElements e < SIZE_MAX m ∧
    if ctl.oldGenArraySize ≤ arrayBytes m numElements e then
      s.start + s.oldGenSize + arrayBytes m numElements e < sizeMod m
    else arrayBytes m numElements e + ensureBytesFree < sizeMod m

end Exact

/-! ### Sizes -/

section Sizes

variable {m : Model} {e : Element} {n : ℕ}

theorem alignment_cases (m : Model) :
    (m.objptrSize = 4 ∧ sizeMod m = 2 ^ 32 ∨ m.objptrSize = 8 ∧ sizeMod m = 2 ^ 64) ∧
      (m.alignment = 4 ∨ m.alignment = 8) := by
  refine ⟨?_, m.alignment_eq⟩
  rcases m.objptrSize_eq with h | h
  · exact .inl ⟨h, by rw [sizeMod, h]⟩
  · exact .inr ⟨h, by rw [sizeMod, h]⟩

/-- The size is that of `sizeofObject`, also for an array smaller than a forwarding pointer. -/
theorem arrayBytes_eq (m : Model) (n : ℕ) (e : Element) : arrayBytes m n e =
    if align (bytesPerElement m e * n + m.arrayHeaderSize) m.alignment <
        m.arrayHeaderSize + m.objptrSize then
      align (m.arrayHeaderSize + m.objptrSize) m.alignment
    else align (bytesPerElement m e * n + m.arrayHeaderSize) m.alignment := by
  obtain ⟨hsize, halign⟩ := alignment_cases m
  unfold arrayBytes align Model.arrayHeaderSize
  generalize bytesPerElement m e * n = b
  rcases hsize with ⟨hsize, -⟩ | ⟨hsize, -⟩ <;> rcases halign with halign | halign <;>
    rw [hsize, halign] <;> split_ifs <;> omega

/-- The size as a number is at least the bytes of the array, and less than an alignment more. -/
theorem arrayBytes_bounds (m : Model) (n : ℕ) (e : Element) :
    m.arrayHeaderSize + bytesPerElement m e * n ≤ arrayBytes m n e ∧
      m.arrayHeaderSize + m.objptrSize ≤ arrayBytes m n e ∧
      arrayBytes m n e <
        m.arrayHeaderSize + max (bytesPerElement m e * n) m.objptrSize + m.alignment ∧
      m.alignment ∣ arrayBytes m n e := by
  have hpos : 0 < m.alignment := by
    rcases m.alignment_eq with heq | heq <;> omega
  have hle := le_align (a := max (bytesPerElement m e * n) m.objptrSize + m.arrayHeaderSize) hpos
  have hlt := align_lt (a := max (bytesPerElement m e * n) m.objptrSize + m.arrayHeaderSize) hpos
  refine ⟨?_, ?_, ?_, dvd_align _ _⟩ <;> unfold arrayBytes <;> omega

/-- A multiple of the alignment below `SIZE_MAX` is so by more than an alignment. -/
theorem add_alignment_le {b : ℕ} (hdvd : m.alignment ∣ b) (hlt : b < sizeMod m) :
    b + m.alignment ≤ sizeMod m := by
  obtain ⟨hsize, halign⟩ := alignment_cases m
  rcases hsize with ⟨-, hmod⟩ | ⟨-, hmod⟩ <;> rcases halign with halign | halign <;>
    (rw [halign] at hdvd ⊢; rw [hmod] at hlt ⊢; omega)

theorem sizeMod_le (m : Model) : sizeMod m ≤ 2 ^ 64 := by
  rcases (alignment_cases m).1 with ⟨-, hmod⟩ | ⟨-, hmod⟩
  · rw [hmod]
    norm_num
  · exact hmod.le

/-- Where no sum wraps, the sizes are those of the array. -/
theorem arraySizes_of_lt (h : arrayBytes m n e < SIZE_MAX m) : ∃ a, arraySizes m e n =
    some (a, arrayBytes m n e) ∧
      (a = m.arrayHeaderSize + bytesPerElement m e * n ∨
        a = m.arrayHeaderSize ∧ bytesPerElement m e * n < m.objptrSize) := by
  obtain ⟨hle, hmin, -, hdvd⟩ := arrayBytes_bounds m n e
  have hroom := add_alignment_le hdvd (h.trans_le (sub_le _ _))
  have hmod := sizeMod_le m
  have hpos : 0 < m.alignment := by
    rcases m.alignment_eq with heq | heq <;> omega
  have hmax : (bytesPerElement m e * n + m.arrayHeaderSize) % 2 ^ 64 =
      bytesPerElement m e * n + m.arrayHeaderSize := mod_eq_of_lt (by omega)
  have halign : alignMax (bytesPerElement m e * n + m.arrayHeaderSize) m.alignment =
      align (bytesPerElement m e * n + m.arrayHeaderSize) m.alignment := by
    rw [alignMax, mod_eq_of_lt (by omega), align]
  have heq := arrayBytes_eq m n e
  have hself := le_align (a := bytesPerElement m e * n + m.arrayHeaderSize) hpos
  unfold arraySizes
  dsimp only
  rw [hmax, halign]
  by_cases htiny : align (bytesPerElement m e * n + m.arrayHeaderSize) m.alignment <
      m.arrayHeaderSize + m.objptrSize
  · rw [if_pos htiny] at heq
    rw [if_neg (by omega), if_pos htiny, heq]
    exact ⟨_, rfl, .inr ⟨rfl, by omega⟩⟩
  · rw [if_neg htiny] at heq
    rw [if_neg (by omega), if_neg htiny, heq, mod_eq_of_lt (by omega)]
    exact ⟨_, rfl, .inl (add_comm _ _)⟩

/-- Blocks are aligned and below `SIZE_MAX`. -/
theorem arraySizes_dvd {a b : ℕ} (h : arraySizes m e n = some (a, b)) :
    m.alignment ∣ b ∧ b < sizeMod m := by
  have hsmall : align (m.arrayHeaderSize + m.objptrSize) m.alignment < sizeMod m := by
    obtain ⟨hsize, halign⟩ := alignment_cases m
    unfold align Model.arrayHeaderSize
    rcases hsize with ⟨hsize, hmod⟩ | ⟨hsize, hmod⟩ <;> rcases halign with halign | halign <;>
      (rw [hsize, hmod, halign]; norm_num)
  unfold arraySizes at h
  dsimp only at h
  split_ifs at h with hmax htiny
  · cases h
    exact ⟨dvd_align _ _, hsmall⟩
  · cases h
    exact ⟨Dvd.intro_left _ rfl, by unfold SIZE_MAX at hmax; omega⟩

/-- Where a sum wraps, the block is too small. -/
theorem arraySizes_of_ge (hge : SIZE_MAX m ≤ arrayBytes m n e) {a b : ℕ}
    (h : arraySizes m e n = some (a, b)) : b < m.arrayHeaderSize + bytesPerElement m e * n := by
  obtain ⟨hdvd, hlt⟩ := arraySizes_dvd h
  have hroom := add_alignment_le hdvd hlt
  obtain ⟨-, -, hupper, hdvd'⟩ := arrayBytes_bounds m n e
  unfold SIZE_MAX at hge
  have hpos : m.objptrSize + m.alignment + m.arrayHeaderSize + m.alignment < sizeMod m := by
    obtain ⟨hsize, halign⟩ := alignment_cases m
    unfold Model.arrayHeaderSize
    rcases hsize with ⟨hsize, hmod⟩ | ⟨hsize, hmod⟩ <;> rcases halign with halign | halign <;>
      (rw [hsize, hmod, halign]; norm_num)
  -- a multiple of the alignment is not `SIZE_MAX`
  have hne : arrayBytes m n e ≠ sizeMod m - 1 := by
    intro heq
    have := add_alignment_le hdvd' (by omega)
    rcases m.alignment_eq with halign | halign <;> omega
  omega

theorem sizeofArray_eq (h : arrayBytes m n e < SIZE_MAX m) :
    sizeofArray m n e = arrayBytes m n e := by
  obtain ⟨hle, hmin, hupper, hdvd⟩ := arrayBytes_bounds m n e
  have hlt : arrayBytes m n e < sizeMod m := h.trans_le (sub_le _ _)
  have hroom := add_alignment_le hdvd hlt
  have hcomm := Nat.mul_comm n (bytesPerElement m e)
  have hmax : (if n * bytesPerElement m e % sizeMod m < m.objptrSize then m.objptrSize
      else n * bytesPerElement m e % sizeMod m) = max (bytesPerElement m e * n) m.objptrSize := by
    rw [hcomm, mod_eq_of_lt (by omega)]
    split_ifs <;> omega
  have hbody : max (bytesPerElement m e * n) m.objptrSize + m.arrayHeaderSize ≤ arrayBytes m n e :=
    by omega
  unfold sizeofArray
  dsimp only
  have hmod : (max (bytesPerElement m e * n) m.objptrSize + m.arrayHeaderSize) % sizeMod m =
      max (bytesPerElement m e * n) m.objptrSize + m.arrayHeaderSize :=
    mod_eq_of_lt (by omega)
  have hpos : 0 < m.alignment := by
    rcases m.alignment_eq with heq | heq <;> omega
  rw [hmax, hmod, mod_eq_of_lt (a := _ + (m.alignment - 1)) (by omega)]
  change (m.arrayHeaderSize + (arrayBytes m n e + (sizeMod m - m.arrayHeaderSize))) % sizeMod m = _
  rw [show m.arrayHeaderSize + (arrayBytes m n e + (sizeMod m - m.arrayHeaderSize)) =
    arrayBytes m n e + sizeMod m by omega, add_mod_right, mod_eq_of_lt hlt]

end Sizes

/-! ### Slots -/

section Slots

variable {m : Model} {e : Element} {n p q : ℕ} {word : Word}

theorem objptrSize_pos (m : Model) : 0 < m.objptrSize := by
  rcases m.objptrSize_eq with h | h <;> omega

/-- The loop over pointers sets the ones before its end. -/
theorem mem_initObjptrs {k : ℕ} : (q, word) ∈ initObjptrs m (p + k * m.objptrSize) p ↔
    word = .bogus ∧ ∃ j < k, q = p + j * m.objptrSize := by
  induction k generalizing p with
  | zero =>
    rw [initObjptrs, dif_neg (by omega)]
    simp
  | succ k ih =>
    have hpos := objptrSize_pos m
    have hnext : p + (k + 1) * m.objptrSize = p + m.objptrSize + k * m.objptrSize := by ring
    rw [initObjptrs, dif_pos (by nlinarith), mem_cons, hnext, ih, Prod.mk.injEq]
    constructor
    · rintro (⟨rfl, rfl⟩ | ⟨rfl, j, hj, rfl⟩)
      · exact ⟨rfl, 0, succ_pos k, by simp⟩
      · exact ⟨rfl, j + 1, by omega, by ring⟩
    · rintro ⟨rfl, j, hj, rfl⟩
      cases j with
      | zero => exact .inl ⟨by simp, rfl⟩
      | succ j => exact .inr ⟨rfl, j, by omega, by ring⟩

/-- The loop over elements sets the pointers of each. -/
theorem mem_initElements (h : 0 < e.bytesNonObjptrs) {k : ℕ} :
    (q, word) ∈ initElements m e h (p + k * bytesPerElement m e) p ↔
      word = .bogus ∧ ∃ i < k, ∃ j < e.numObjptrs,
        q = p + i * bytesPerElement m e + e.bytesNonObjptrs + j * m.objptrSize := by
  induction k generalizing p with
  | zero =>
    rw [initElements, dif_neg (by omega)]
    simp
  | succ k ih =>
    have hpos : 0 < bytesPerElement m e := Nat.add_pos_left h _
    have hnext : p + (k + 1) * bytesPerElement m e =
        p + e.bytesNonObjptrs + e.numObjptrs * m.objptrSize + k * bytesPerElement m e := by
      unfold bytesPerElement
      ring
    rw [initElements, dif_pos (by nlinarith)]
    dsimp only
    rw [mem_append, mem_initObjptrs, hnext, ih]
    constructor
    · rintro (⟨rfl, j, hj, rfl⟩ | ⟨rfl, i, hi, j, hj, rfl⟩)
      · exact ⟨rfl, 0, succ_pos k, j, hj, by simp⟩
      · refine ⟨rfl, i + 1, by omega, j, hj, ?_⟩
        unfold bytesPerElement
        ring
    · rintro ⟨rfl, i, hi, j, hj, rfl⟩
      cases i with
      | zero => exact .inl ⟨rfl, j, hj, by simp⟩
      | succ i =>
        refine .inr ⟨rfl, i, by omega, j, hj, ?_⟩
        unfold bytesPerElement
        ring

/-- In an array that lies below the end of memory, the slots are initialized and nothing else. -/
theorem mem_initArray {arraySize frontier : ℕ} (hlt : frontier + arraySize < sizeMod m)
    (hsize : arraySize = m.arrayHeaderSize + bytesPerElement m e * n ∨
      arraySize = m.arrayHeaderSize ∧ bytesPerElement m e * n < m.objptrSize) :
    (q, .bogus) ∈ initArray m e n arraySize frontier ↔
      IsSlot m (frontier + m.arrayHeaderSize) n e q := by
  have hresult : (frontier + m.arrayHeaderSize) % sizeMod m = frontier + m.arrayHeaderSize :=
    mod_eq_of_lt (by omega)
  unfold initArray IsSlot
  dsimp only
  rw [hresult, mod_eq_of_lt hlt, mem_append, or_iff_right (by simp)]
  by_cases hptrs : 1 ≤ e.numObjptrs ∧ 0 < n
  · have hle : m.objptrSize ≤ bytesPerElement m e * n := by
      have h1 : m.objptrSize ≤ e.numObjptrs * m.objptrSize := Nat.le_mul_of_pos_left _ hptrs.1
      have h2 : e.numObjptrs * m.objptrSize ≤ bytesPerElement m e := Nat.le_add_left _ _
      exact (h1.trans h2).trans (Nat.le_mul_of_pos_right _ hptrs.2)
    have hlast : frontier + arraySize =
        frontier + m.arrayHeaderSize + n * bytesPerElement m e := by
      rw [Nat.mul_comm n]
      omega
    rw [if_pos hptrs, hlast]
    split_ifs with hmixed
    · rw [mem_initElements]
      simp
    · have hzero : e.bytesNonObjptrs = 0 := by omega
      have hbytes : bytesPerElement m e = e.numObjptrs * m.objptrSize := by
        rw [bytesPerElement, hzero, zero_add]
      rw [hbytes, ← mul_assoc, mem_initObjptrs, hzero]
      constructor
      · rintro ⟨-, t, ht, rfl⟩
        -- slot `t` is in element `t / numObjptrs`
        refine ⟨t / e.numObjptrs, Nat.div_lt_of_lt_mul (by rwa [Nat.mul_comm]),
          t % e.numObjptrs, Nat.mod_lt _ hptrs.1, ?_⟩
        conv_lhs => rw [← div_add_mod t e.numObjptrs]
        ring
      · rintro ⟨i, hi, j, hj, rfl⟩
        refine ⟨rfl, i * e.numObjptrs + j, ?_, by ring⟩
        calc i * e.numObjptrs + j < i * e.numObjptrs + e.numObjptrs := by omega
          _ = (i + 1) * e.numObjptrs := by ring
          _ ≤ n * e.numObjptrs := mul_le_mul_right _ hi
  · rw [if_neg hptrs]
    refine iff_of_false not_mem_nil ?_
    rintro ⟨i, hi, j, hj, -⟩
    exact hptrs ⟨by omega, by omega⟩

end Slots

/-! ### The two allocations -/

section Alloc

variable {m : Model} {c : Collector m} {ctl : Controls} {s before after : State}
  {e : Element} {n ensure b block : ℕ}

theorem hasHeapBytesFree_iff {oldGen nursery : ℕ} : hasHeapBytesFree m s oldGen nursery = true ↔
    (s.oldGenSize + oldGen + (if s.canMinor then 2 else 1) * (s.frontier - s.nursery)) % sizeMod m ≤
        s.size ∧
      (s.start + s.oldGenSize + oldGen) % sizeMod m ≤ s.nursery ∧
      nursery ≤ s.limitPlusSlop - s.frontier := by
  simp [hasHeapBytesFree, and_assoc]

theorem allocOldGen_eq (hs : WF m s) (h : allocOldGen c s ensure b = some (before, after, block)) :
    WF m before ∧ hasHeapBytesFree m before b ensure = true ∧
      block = before.start + before.oldGenSize ∧
      after = { before with oldGenSize := (before.oldGenSize + b) % sizeMod m } := by
  unfold allocOldGen at h
  obtain ⟨t, ht, heq⟩ := bind_eq_some_iff.1 h
  cases heq
  split_ifs at ht with hfree
  · cases ht
    exact ⟨hs, hfree, rfl, rfl⟩
  · obtain ⟨hwf, hfree'⟩ := c.performGC_spec hs ht
    exact ⟨hwf, hfree', rfl, rfl⟩

theorem allocLocal_eq (hs : WF m s) (h : allocLocal c s ensure b = some (before, after, block)) :
    WF m before ∧ hasHeapBytesFree m before 0 ((b + ensure) % sizeMod m) = true ∧
      block = before.frontier ∧
      after = { before with frontier := (before.frontier + b) % sizeMod m } := by
  unfold allocLocal at h
  obtain ⟨t, ht, heq⟩ := bind_eq_some_iff.1 h
  cases heq
  split_ifs at ht with hfree
  · cases ht
    exact ⟨hs, hfree, rfl, rfl⟩
  · obtain ⟨hwf, hfree'⟩ := c.ensureHasHeapBytesFree_spec hs ht
    exact ⟨hwf, hfree', rfl, rfl⟩

/-- The array follows its header, aligned like the frontier. -/
theorem dvd_add_arrayHeaderSize (h : m.alignment ∣ block + m.headerSize) :
    m.alignment ∣ block + m.arrayHeaderSize := by
  obtain ⟨hsize, halign⟩ := alignment_cases m
  unfold Model.headerSize at h
  unfold Model.arrayHeaderSize
  rcases hsize with ⟨hsize, -⟩ | ⟨hsize, -⟩ <;> rcases halign with halign | halign <;>
    (rw [halign, hsize] at h; rw [halign, hsize]; omega)

/-- What `GC_arrayAllocate` returns, by the way it allocates. -/
theorem GC_arrayAllocate_cases (hs : WF m s) {r : Result}
    (h : GC_arrayAllocate c ctl s ensure n e = some r) : ∃ a, arraySizes m e n = some (a, r.bytes) ∧
      WF m r.before ∧ r.array = (r.block + m.arrayHeaderSize) % sizeMod m ∧
      r.writes = initArray m e n a r.block ∧
      (ctl.oldGenArraySize ≤ r.bytes ∧ hasHeapBytesFree m r.before r.bytes ensure = true ∧
          r.block = r.before.start + r.before.oldGenSize ∧
          r.after = { r.before with oldGenSize := (r.before.oldGenSize + r.bytes) % sizeMod m } ∨
        r.bytes < ctl.oldGenArraySize ∧
          hasHeapBytesFree m r.before 0 ((r.bytes + ensure) % sizeMod m) = true ∧
          r.block = r.before.frontier ∧
          r.after = { r.before with frontier := (r.before.frontier + r.bytes) % sizeMod m }) := by
  unfold GC_arrayAllocate at h
  obtain ⟨⟨a, b⟩, hsizes, h⟩ := bind_eq_some_iff.1 h
  dsimp only at h
  obtain ⟨⟨before, after, block⟩, halloc, heq⟩ := bind_eq_some_iff.1 h
  cases heq
  split_ifs at halloc with hlock
  · obtain ⟨hwf, hfree, hblock, hafter⟩ := allocOldGen_eq hs halloc
    exact ⟨a, hsizes, hwf, rfl, rfl, .inl ⟨by simpa using hlock, hfree, hblock, hafter⟩⟩
  · obtain ⟨hwf, hfree, hblock, hafter⟩ := allocLocal_eq hs halloc
    exact ⟨a, hsizes, hwf, rfl, rfl, .inr ⟨by simpa using hlock, hfree, hblock, hafter⟩⟩

/-- The sizes of the code are those of the array, or the block is too small. -/
theorem fits_of_large {r : Result} {a : ℕ} (hsizes : arraySizes m e n = some (a, r.bytes))
    (hlarge : m.arrayHeaderSize + bytesPerElement m e * n ≤ r.bytes) :
    arrayBytes m n e < SIZE_MAX m ∧ r.bytes = arrayBytes m n e := by
  have hlt : arrayBytes m n e < SIZE_MAX m := by
    by_contra hge
    have := arraySizes_of_ge (not_lt.1 hge) hsizes
    omega
  obtain ⟨a', hsizes', -⟩ := arraySizes_of_lt hlt
  rw [hsizes] at hsizes'
  exact ⟨hlt, (Prod.mk.inj (Option.some.inj hsizes')).2⟩

theorem Exact.fits {r : Result} (hs : WF m s)
    (h : GC_arrayAllocate c ctl s ensure n e = some r) (hr : Exact m ctl ensure n e r) :
    Fits m ctl r.before ensure n e := by
  obtain ⟨a, hsizes, hwf, -, -, halloc⟩ := GC_arrayAllocate_cases hs h
  obtain ⟨hlt, hbytes⟩ := fits_of_large hsizes hr.large
  refine ⟨hlt, ?_⟩
  rw [← hbytes]
  have hlimit := hwf.limit_lt
  have hnursery := hwf.nursery_le
  have hfrontier := hwf.frontier_le
  split_ifs with hold
  · rcases hr.free with ⟨-, hblock, hle⟩ | ⟨hnew, -⟩ <;> omega
  · have hensured := hr.ensured
    have htaken := hr.taken.2
    rw [if_neg hold] at htaken
    rcases halloc with ⟨hold', -⟩ | ⟨-, -, -, hafter⟩
    · exact absurd hold' hold
    · rw [hafter] at hensured htaken
      dsimp only at hensured htaken
      omega

theorem Fits.exact {r : Result} (hs : WF m s)
    (h : GC_arrayAllocate c ctl s ensure n e = some r) (hfits : Fits m ctl r.before ensure n e) :
    Exact m ctl ensure n e r := by
  obtain ⟨a, hsizes, hwf, harray, hwrites, halloc⟩ := GC_arrayAllocate_cases hs h
  obtain ⟨hlt, hroom⟩ := hfits
  obtain ⟨a', hsizes', ha⟩ := arraySizes_of_lt hlt
  rw [hsizes] at hsizes'
  obtain ⟨rfl, hbytes⟩ := Prod.mk.inj (Option.some.inj hsizes')
  obtain ⟨hlarge, hmin, -, hdvd⟩ := arrayBytes_bounds m n e
  rw [← hbytes] at hlarge hmin hdvd hroom
  have hlimit := hwf.limit_lt
  have hnursery := hwf.nursery_le
  have hfrontier := hwf.frontier_le
  have hold := hwf.oldGen_le
  have hpos := objptrSize_pos m
  -- the block ends below the end of memory
  have hend : r.block + r.bytes < sizeMod m ∧ m.alignment ∣ r.block + m.headerSize := by
    rcases halloc with ⟨hlock, hfree, hblock, -⟩ | ⟨hlock, hfree, hblock, -⟩
    · rw [if_pos hlock] at hroom
      exact ⟨by omega, hblock ▸ hwf.oldGen_aligned⟩
    · rw [if_neg (not_le.2 hlock)] at hroom
      obtain ⟨-, -, hnew⟩ := hasHeapBytesFree_iff.1 hfree
      rw [mod_eq_of_lt hroom] at hnew
      exact ⟨by omega, hblock ▸ hwf.frontier_aligned⟩
  have hasize : a ≤ r.bytes := by omega
  have harray' : r.array = r.block + m.arrayHeaderSize := by
    rw [harray, mod_eq_of_lt (by omega)]
  refine ⟨harray', ⟨harray' ▸ dvd_add_arrayHeaderSize hend.2, hdvd⟩, ?_, ?_, hlarge,
    (sizeofArray_eq hlt).trans hbytes.symm, ?_, ?_, fun p => ?_⟩
  · rcases halloc with ⟨hlock, hfree, hblock, -⟩ | ⟨hlock, hfree, hblock, -⟩
    · rw [if_pos hlock] at hroom
      obtain ⟨-, hnew, -⟩ := hasHeapBytesFree_iff.1 hfree
      rw [mod_eq_of_lt hroom] at hnew
      exact .inl ⟨hlock, hblock, by omega⟩
    · rw [if_neg (not_le.2 hlock)] at hroom
      obtain ⟨-, -, hnew⟩ := hasHeapBytesFree_iff.1 hfree
      rw [mod_eq_of_lt hroom] at hnew
      exact .inr ⟨hlock, hblock, by omega⟩
  · rcases halloc with ⟨hlock, hfree, hblock, hafter⟩ | ⟨hlock, hfree, hblock, hafter⟩
    · rw [if_pos hlock] at hroom
      rw [hafter, if_pos hlock, if_pos hlock]
      dsimp only
      rw [mod_eq_of_lt (by omega)]
      omega
    · rw [if_neg (not_le.2 hlock)] at hroom
      rw [hafter, if_neg (not_le.2 hlock), if_neg (not_le.2 hlock)]
      dsimp only
      rw [mod_eq_of_lt (by omega)]
      omega
  · rcases halloc with ⟨hlock, hfree, hblock, hafter⟩ | ⟨hlock, hfree, hblock, hafter⟩
    · obtain ⟨-, -, hnew⟩ := hasHeapBytesFree_iff.1 hfree
      rw [hafter]
      dsimp only
      omega
    · rw [if_neg (not_le.2 hlock)] at hroom
      obtain ⟨-, -, hnew⟩ := hasHeapBytesFree_iff.1 hfree
      rw [mod_eq_of_lt hroom] at hnew
      rw [hafter]
      dsimp only
      rw [mod_eq_of_lt (by omega)]
      omega
  · rw [hwrites, initArray]
    simp
  · rw [hwrites, harray']
    exact mem_initArray (by omega) ha

end Alloc

/-- A target with `size_t` of 64 bits and `-align 8`. -/
def align8 : Model := ⟨8, 8, Model.eight_eq, Model.eight_eq⟩

/-- Out of memory whenever there is no room. -/
def outOfMemory (m : Model) : Collector m where
  performGC _ _ _ := none
  ensureHasHeapBytesFree _ _ := none
  performGC_spec _ h := by cases h
  ensureHasHeapBytesFree_spec _ h := by cases h

/-- A heap of 64K with an empty old generation and 8K left in the nursery. -/
def smallHeap : State where
  start := 4096
  size := 65536
  oldGenSize := 0
  nursery := 8192
  frontier := 8192
  limitPlusSlop := 16384
  canMinor := false

theorem smallHeap_wf : WF align8 smallHeap := by
  constructor <;> decide

end MultiMLton.GC.ArrayAllocate
