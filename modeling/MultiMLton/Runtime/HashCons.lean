import Mathlib
import MultiMLton.Lib.OpenAddressing
import MultiMLton.Runtime.DfsExact

/-!
# Hash-consing

`gc/hash-cons.c`: the table of the objects that are shared, and `hashConsPointer`.  Lengths of tables
are natural numbers; a table never has 2³² elements.
-/

namespace MultiMLton.GC

open DfsMark OpenAddressing List Function Finset Nat

variable {w : ℕ}

/-! ### The words of an object -/

section

variable (g : Tables) (data : ℕ → ℕ → ℕ)

/-- The pointers of an object by their offsets: its object pointers, or the link and the pointer of a
weak object. -/
def pointerFields (ob : Obj w) : List (ℕ × ℕ) :=
  let t := splitHeader g ob.header
  match t.tag with
  | .weak =>
    let back := if t.numObjptrs = 1 then 1 else 2
    [(t.bytesNonObjptrs - back * g.model.objptrSize, ob.weakLink),
      (t.bytesNonObjptrs - (back - 1) * g.model.objptrSize, ob.weakObjptr)]
  | _ => (slots g ob).map fun off => (off, ob.objptr off)

/-- A byte of an object.  `data` gives those that are not part of a pointer, which marking does not
write. -/
def byteAt (h : Heap w) (p o : ℕ) : ℕ :=
  match (pointerFields g (h p)).find? fun f =>
      decide (f.1 ≤ o) && decide (o < f.1 + g.model.objptrSize) with
  | some f => f.2 / 256 ^ (o - f.1) % 256
  | none => data p o % 256

/-- `*(unsigned int*)p` -/
def wordAt (h : Heap w) (p i : ℕ) : ℕ :=
  byteAt g data h p (4 * i) + 256 * byteAt g data h p (4 * i + 1)
    + 256 ^ 2 * byteAt g data h p (4 * i + 2) + 256 ^ 3 * byteAt g data h p (4 * i + 3)

/-- `max - object` -/
def bytesHashed (ob : Obj w) : ℕ :=
  let t := splitHeader g ob.header
  match t.tag with
  | .array => sizeofArrayNoHeader g.model ob.arrayLength t.bytesNonObjptrs t.numObjptrs
  | _ => t.bytesNonObjptrs + t.numObjptrs * g.model.objptrSize

/-- The number of words from `object` to `max`. -/
def wordsHashed (ob : Obj w) : ℕ := (bytesHashed g ob + 3) / 4

/-- `hash` in `hashConsPointer`. -/
def hashOf (h : Heap w) (p : ℕ) : ℕ :=
  (List.range (wordsHashed g (h p))).foldl (fun hash i => (hash * 31 + wordAt g data h p i) % 2 ^ 32)
    ((h p).header.toNat % 2 ^ 32)

/-- The comparison of `object` to `e->object`. -/
def sameContents (h : Heap w) (object other : ℕ) : Bool :=
  object == other ||
    ((h object).header == (h other).header
      && (List.range (wordsHashed g (h object))).all
        (fun i => wordAt g data h object i == wordAt g data h other i)
      && !(decide ((splitHeader g (h object).header).tag = .array)
        && (h object).arrayLength != (h other).arrayLength))

end

/-! ### The table -/

/-- `struct GC_objectHashElement` -/
structure HashElement where
  hash : ℕ
  object : ℕ

/-- `struct GC_objectHashTable`; `elementsLengthMax` is a power of two. -/
structure HashTable where
  elements : ℕ → Option HashElement
  elementsLengthCur : ℕ
  elementsLengthMaxLog2 : ℕ
  mayInsert : Bool

def HashTable.elementsLengthMax (t : HashTable) : ℕ := 2 ^ t.elementsLengthMaxLog2

/-- `allocHashTable`, in a region that has room for so many elements. -/
def allocHashTable (elementsLengthMax : ℕ) : HashTable where
  elements _ := none
  elementsLengthCur := 0
  elementsLengthMaxLog2 := if elementsLengthMax < 64 then 6 else Nat.log 2 elementsLengthMax
  mayInsert := true

/-- `floor (((sqrt (5.0) - 1.0) / 2.0) * (double)0x100000000llu)` -/
def mult : ℕ := 2654435769

/-- Where the probes begin. -/
def HashTable.slot (t : HashTable) (hash : ℕ) : ℕ :=
  mult * hash % 2 ^ 32 / 2 ^ (32 - t.elementsLengthMaxLog2)

/-- `probe`, a 32-bit number. -/
def HashTable.probe (t : HashTable) (hash : ℕ) : ℕ :=
  if t.slot hash % 2 = 1 then t.slot hash else (t.slot hash + (2 ^ 32 - 1)) % 2 ^ 32

/-- The loop `look`, which goes on at cells with another object. -/
def HashTable.look (t : HashTable) (hash : ℕ) (same : ℕ → Bool) : Option ℕ :=
  findSlot t.elements (fun e => hash == e.hash && same e.object) t.elementsLengthMax (t.probe hash)
    t.elementsLengthMax (t.slot hash)

/-- `insertHashTableElem`.  Without `mightBeThere` nothing is the same. -/
def insertHashTableElem (t : HashTable) (hash object : ℕ) (same : ℕ → Bool) : HashTable × ℕ :=
  match t.look hash same with
  | none => (t, object)
  | some slot => match t.elements slot with
    | none =>
      if !t.mayInsert then (t, object)
      else ({ t with
        elements := Function.update t.elements slot (some ⟨hash, object⟩)
        elementsLengthCur := t.elementsLengthCur + 1 }, object)
    | some e => (t, e.object)

/-- One turn of the loop of `growHashTableMaybe`. -/
def reinsert (old : HashTable) (t : HashTable) (i : ℕ) : HashTable :=
  match old.elements i with
  | none => t
  | some e => (insertHashTableElem t e.hash e.object fun _ => false).1

/-- `growHashTableMaybe`; `calloc` says whether there is memory for so many elements. -/
def growHashTableMaybe (calloc : ℕ → Bool) (t : HashTable) : HashTable :=
  if !t.mayInsert || decide (t.elementsLengthCur * 2 ≤ t.elementsLengthMax) then t
  else if !calloc (t.elementsLengthMax * 2) then { t with mayInsert := false }
  else (List.range t.elementsLengthMax).foldl (reinsert t) { t with
    elements := fun _ => none
    elementsLengthMaxLog2 := t.elementsLengthMaxLog2 + 1 }

/-- `s->objectHashTable` and the statistics. -/
structure HashConsState where
  table : HashTable
  bytesHashConsed : ℕ

/-- What `countBytesHashConsed` adds. -/
def bytesSaved (g : Tables) (ob : Obj w) : ℕ :=
  bytesHashed g ob + if (splitHeader g ob.header).tag = .array then g.model.arrayHeaderSize
    else g.model.headerSize

def hashConsPointer (g : Tables) (data : ℕ → ℕ → ℕ) (calloc : ℕ → Bool) (x : HashConsState)
    (h : Heap w) (object : ℕ) (countBytesHashConsed : Bool) : HashConsState × ℕ :=
  if (splitHeader g (h object).header).hasIdentity then (x, object)
  else
    let (t, res) := insertHashTableElem x.table (hashOf g data h object) object
      (sameContents g data h object)
    ({ table := growHashTableMaybe calloc t
       bytesHashConsed := x.bytesHashConsed
        + if countBytesHashConsed && res != object then bytesSaved g (h object) else 0 }, res)

/-! ### The table is never full -/

namespace HashTable

variable {t : HashTable}

/-- The number of occupied cells. -/
def count (t : HashTable) : ℕ := (occupied t.elements t.elementsLengthMax).card

/-- At most half of the cells are occupied, or one more when nothing is inserted any more. -/
structure Roomy (t : HashTable) : Prop where
  log2 : 6 ≤ t.elementsLengthMaxLog2
  count : t.count ≤ t.elementsLengthCur
  half : t.count * 2 ≤ t.elementsLengthMax + if t.mayInsert then 0 else 2

theorem le_elementsLengthMax (h : 6 ≤ t.elementsLengthMaxLog2) : 64 ≤ t.elementsLengthMax :=
  Nat.pow_le_pow_right Nat.two_pos h

theorem slot_lt (t : HashTable) (hash : ℕ) : t.slot hash < t.elementsLengthMax := by
  have hlt : mult * hash % 2 ^ 32 < 2 ^ 32 := Nat.mod_lt _ (Nat.two_pow_pos 32)
  unfold slot elementsLengthMax
  have hpos : 0 < 2 ^ (32 - t.elementsLengthMaxLog2) := by positivity
  rw [Nat.div_lt_iff_lt_mul hpos, ← pow_add]
  exact hlt.trans_le (Nat.pow_le_pow_right (by decide) (by omega))

theorem probe_odd (t : HashTable) (hash : ℕ) : t.probe hash % 2 = 1 := by
  unfold probe
  split_ifs <;> omega

/-- The loop `look` ends. -/
theorem look_ends (h : t.count < t.elementsLengthMax) (hash : ℕ) (same : ℕ → Bool) :
    ∃ slot, t.look hash same = some slot :=
  findSlot_isSome (t.probe_odd hash) (t.slot_lt hash) (exists_empty h)

theorem Roomy.count_lt (h : t.Roomy) : t.count < t.elementsLengthMax := by
  have hmax := le_elementsLengthMax h.log2
  have hhalf := h.half
  split_ifs at hhalf <;> omega

end HashTable

/-- Either an object that is in the table is returned, or the object is returned and perhaps
inserted. -/
theorem insertHashTableElem_cases (t : HashTable) (hash object : ℕ) (same : ℕ → Bool) :
    (∃ i e, t.elements i = some e ∧ same e.object = true ∧
      insertHashTableElem t hash object same = (t, e.object)) ∨
    insertHashTableElem t hash object same = (t, object) ∨
    t.mayInsert = true ∧ ∃ i, insertHashTableElem t hash object same = ({ t with
      elements := Function.update t.elements i (some ⟨hash, object⟩)
      elementsLengthCur := t.elementsLengthCur + 1 }, object) := by
  unfold insertHashTableElem
  cases hlook : t.look hash same with
  | none => exact .inr (.inl rfl)
  | some slot =>
    rcases findSlot_spec hlook with hcell | ⟨e, hcell, hfound⟩
    · simp only [hcell]
      cases hinsert : t.mayInsert with
      | false => exact .inr (.inl rfl)
      | true => exact .inr (.inr ⟨rfl, slot, rfl⟩)
    · simp only [hcell]
      exact .inl ⟨slot, e, hcell, (Bool.and_eq_true _ _ ▸ hfound).2, rfl⟩

/-- The table of `insertHashTableElem` has at most one more element, and keeps its length. -/
theorem insertHashTableElem_count (t : HashTable) (hash object : ℕ) (same : ℕ → Bool) :
    let t' := (insertHashTableElem t hash object same).1
    t'.elementsLengthMaxLog2 = t.elementsLengthMaxLog2 ∧ t'.mayInsert = t.mayInsert ∧
      (t' = t ∨ t.mayInsert = true ∧ t'.count ≤ t.count + 1 ∧
        t'.elementsLengthCur = t.elementsLengthCur + 1) := by
  rcases insertHashTableElem_cases t hash object same with ⟨i, e, -, -, heq⟩ | heq | ⟨hmay, i, heq⟩
  · rw [heq]
    exact ⟨rfl, rfl, .inl rfl⟩
  · rw [heq]
    exact ⟨rfl, rfl, .inl rfl⟩
  · rw [heq]
    exact ⟨rfl, rfl, .inr ⟨hmay, occupied_update _ _ _ _, rfl⟩⟩

/-- The elements of the table after `n` turns of the loop of `growHashTableMaybe`. -/
theorem reinsert_foldl (old t : HashTable) (hinsert : t.mayInsert = true) (n : ℕ) :
    let t' := (List.range n).foldl (reinsert old) t
    t'.elementsLengthMaxLog2 = t.elementsLengthMaxLog2 ∧ t'.mayInsert = true ∧
      t'.count ≤ t.count + (occupied old.elements n).card ∧
      t'.count + t.elementsLengthCur ≤ t'.elementsLengthCur + t.count ∧
      ∀ i e, t'.elements i = some e →
        t.elements i = some e ∨ ∃ j e', old.elements j = some e' ∧ e'.object = e.object := by
  induction n with
  | zero => exact ⟨rfl, hinsert, by simp, Nat.add_comm _ _ ▸ le_rfl, fun i e he => .inl he⟩
  | succ n ih =>
    obtain ⟨hlog, hmay, hcount, hcur, helements⟩ := ih
    simp only [range_succ, foldl_append, foldl_cons, foldl_nil]
    set t' := (List.range n).foldl (reinsert old) t with ht'
    have hmono : (occupied old.elements n).card ≤ (occupied old.elements (n + 1)).card :=
      card_le_card (filter_subset_filter _
        (range_subset_range.2 (le_succ n)))
    cases hcell : old.elements n with
    | none =>
      simp only [reinsert, hcell]
      exact ⟨hlog, hmay, by omega, hcur, helements⟩
    | some e =>
      have hnew : (occupied old.elements (n + 1)).card = (occupied old.elements n).card + 1 := by
        rw [occupied, range_add_one, filter_insert, if_pos (by rw [hcell]; rfl),
          card_insert_of_notMem (by simp), occupied]
      obtain ⟨hlog', hmay', hcases⟩ := insertHashTableElem_count t' e.hash e.object fun _ => false
      simp only [reinsert, hcell]
      refine ⟨hlog'.trans hlog, hmay'.trans hmay, ?_, ?_, fun i e' he' => ?_⟩
      · rcases hcases with heq | ⟨-, hle, -⟩
        · rw [heq]
          omega
        · omega
      · rcases hcases with heq | ⟨-, hle, hcur'⟩
        · rw [heq]
          exact hcur
        · omega
      · rcases insertHashTableElem_cases t' e.hash e.object fun _ => false with
          ⟨i, e, -, hsame, -⟩ | heq | ⟨-, j, heq⟩
        · exact absurd hsame Bool.false_ne_true
        · rw [heq] at he'
          exact helements i e' he'
        · rw [heq] at he'
          by_cases hij : i = j
          · subst hij
            rw [show ({ t' with
              elements := Function.update t'.elements i (some ⟨e.hash, e.object⟩)
              elementsLengthCur := t'.elementsLengthCur + 1 } : HashTable).elements i =
                some ⟨e.hash, e.object⟩ from update_self ..] at he'
            obtain rfl := Option.some.inj he'
            exact .inr ⟨n, e, hcell, rfl⟩
          · refine helements i e' ?_
            rw [← he']
            exact (update_of_ne hij _ _).symm

theorem growHashTableMaybe_roomy (calloc : ℕ → Bool) {t : HashTable}
    (hlog : 6 ≤ t.elementsLengthMaxLog2) (hcount : t.count ≤ t.elementsLengthCur)
    (hhalf : t.count * 2 ≤ t.elementsLengthMax + 2) :
    (growHashTableMaybe calloc t).Roomy := by
  have hmax := HashTable.le_elementsLengthMax hlog
  unfold growHashTableMaybe
  split_ifs with hstay hcalloc
  · refine ⟨hlog, hcount, ?_⟩
    cases hmay : t.mayInsert with
    | false => exact hhalf
    | true =>
      simp only [hmay, Bool.not_true, Bool.false_or, decide_eq_true_eq] at hstay
      show t.count * 2 ≤ t.elementsLengthMax
      omega
  · exact ⟨hlog, hcount, hhalf⟩
  · have hmay : t.mayInsert = true := by
      simp only [Bool.or_eq_true, Bool.not_eq_true', not_or, Bool.not_eq_false] at hstay
      exact hstay.1
    obtain ⟨hlog', hmay', hcount', hcur', -⟩ := reinsert_foldl t { t with
      elements := fun _ => none
      elementsLengthMaxLog2 := t.elementsLengthMaxLog2 + 1 } hmay t.elementsLengthMax
    have hempty : HashTable.count { t with
        elements := fun _ => none
        elementsLengthMaxLog2 := t.elementsLengthMaxLog2 + 1 } = 0 := by
      simp [HashTable.count]
    rw [hempty] at hcount' hcur'
    generalize (List.range t.elementsLengthMax).foldl (reinsert t) _ = t' at hlog' hmay' hcount' hcur' ⊢
    have hlog' : t'.elementsLengthMaxLog2 = t.elementsLengthMaxLog2 + 1 := hlog'
    have hold : (occupied t.elements t.elementsLengthMax).card = t.count := rfl
    have hdouble : t'.elementsLengthMax = t.elementsLengthMax * 2 := by
      rw [HashTable.elementsLengthMax, hlog', pow_succ, HashTable.elementsLengthMax]
    have hcur' : t'.count + t.elementsLengthCur ≤ t'.elementsLengthCur := hcur'
    refine ⟨by omega, by omega, ?_⟩
    rw [hmay', hdouble]
    show t'.count * 2 ≤ t.elementsLengthMax * 2 + 0
    omega

theorem allocHashTable_roomy (n : ℕ) : (allocHashTable n).Roomy := by
  have hempty : (allocHashTable n).count = 0 := by simp [HashTable.count, allocHashTable]
  refine ⟨?_, by omega, by omega⟩
  show 6 ≤ if n < 64 then 6 else Nat.log 2 n
  split_ifs with hn
  · exact le_rfl
  · exact le_log_of_pow_le (by decide) (not_lt.1 hn)

/-- In every run the table is roomy, so that the loop `look` ends. -/
theorem hashConsPointer_roomy {g : Tables} {data : ℕ → ℕ → ℕ} {calloc : ℕ → Bool}
    {x : HashConsState} (hx : x.table.Roomy) (h : Heap w) (object : ℕ) (countBytes : Bool) :
    (hashConsPointer g data calloc x h object countBytes).1.table.Roomy := by
  unfold hashConsPointer
  split_ifs with hidentity
  · exact hx
  · have hhalf := hx.half
    have hcount := hx.count
    obtain ⟨hlog, -, hcases⟩ :=
      insertHashTableElem_count x.table (hashOf g data h object) object (sameContents g data h object)
    apply growHashTableMaybe_roomy
    · rw [hlog]
      exact hx.log2
    · rcases hcases with heq | ⟨-, hle, hcur⟩
      · rw [heq]
        exact hcount
      · omega
    · rw [HashTable.elementsLengthMax, hlog]
      show _ ≤ x.table.elementsLengthMax + 2
      rcases hcases with heq | ⟨hmay, hle, -⟩
      · rw [heq]
        split_ifs at hhalf <;> omega
      · rw [if_pos hmay] at hhalf
        omega

/-! ### What the comparison says -/

section

variable {g : Tables} {data : ℕ → ℕ → ℕ} {ob : Obj w} {h : Heap w}

theorem byteAt_lt (p o : ℕ) : byteAt g data h p o < 256 := by
  unfold byteAt
  split <;> exact Nat.mod_lt _ (by decide)

/-- Objects with the same words have the same bytes. -/
theorem byteAt_of_words {x y o : ℕ} (ho : o < bytesHashed g (h x))
    (hwords : ∀ i < wordsHashed g (h x), wordAt g data h x i = wordAt g data h y i) :
    byteAt g data h x o = byteAt g data h y o := by
  have hword := hwords (o / 4) (by unfold wordsHashed; omega)
  have hx (k : ℕ) : byteAt g data h x k < 256 := byteAt_lt x k
  have hy (k : ℕ) : byteAt g data h y k < 256 := byteAt_lt y k
  have hx0 := hx (4 * (o / 4))
  have hx1 := hx (4 * (o / 4) + 1)
  have hx2 := hx (4 * (o / 4) + 2)
  have hx3 := hx (4 * (o / 4) + 3)
  have hy0 := hy (4 * (o / 4))
  have hy1 := hy (4 * (o / 4) + 1)
  have hy2 := hy (4 * (o / 4) + 2)
  have hy3 := hy (4 * (o / 4) + 3)
  simp only [wordAt] at hword
  have hmod : o = 4 * (o / 4) ∨ o = 4 * (o / 4) + 1 ∨ o = 4 * (o / 4) + 2 ∨ o = 4 * (o / 4) + 3 := by
    omega
  rcases hmod with heq | heq | heq | heq <;> rw [heq] <;> omega

/-- What objects have in common that the comparison takes for the same. -/
structure SameWords (g : Tables) (data : ℕ → ℕ → ℕ) (h : Heap w) (x y : ℕ) : Prop where
  header : (h x).header = (h y).header
  length : (splitHeader g (h x).header).tag = .array → (h x).arrayLength = (h y).arrayLength
  bytes : ∀ o < bytesHashed g (h x), byteAt g data h x o = byteAt g data h y o

theorem sameContents_spec {x y : ℕ} (hsame : sameContents g data h x y = true) :
    SameWords g data h x y := by
  simp only [sameContents, Bool.or_eq_true, Bool.and_eq_true, beq_iff_eq, List.all_eq_true,
    List.mem_range, Bool.not_eq_true', Bool.and_eq_false_iff, decide_eq_false_iff_not,
    bne_eq_false_iff_eq] at hsame
  rcases hsame with rfl | ⟨⟨hheader, hwords⟩, hlength⟩
  · exact ⟨rfl, fun _ => rfl, fun _ _ => rfl⟩
  · exact ⟨hheader, fun ht => hlength.resolve_left (not_not_intro ht),
      fun o ho => byteAt_of_words ho hwords⟩

end

end MultiMLton.GC
