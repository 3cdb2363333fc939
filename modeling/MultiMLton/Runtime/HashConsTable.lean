import MultiMLton.Runtime.HashCons

/-!
# The table of the hash-consed objects

Sequences of calls of `hashConsPointer`, from the allocation of the table on.

* `fitLength`, `allocTable`: the loop of `allocHashTable`, with lengths of 32 bits;
* `Sound`: the probes end, and an element is found by its hash; `Exact`: `elementsLengthCur` is the
  number of elements;
* `insertHashTableElem_inserts`, `growHashTableMaybe_findable`: an insertion and a larger table keep
  all elements findable, and the larger table has twice the count;
* `hashTable_correct_iff`: the table is sound and exact after every call, and the answers are those
  of hash-consing, as long as it does not grow.
-/

namespace MultiMLton.GC

open OpenAddressing List Function

variable {w : ℕ}

/-! ### The allocation -/

/-- The loop of `allocHashTable`, at the length `2 ^ log2` of 32 bits. -/
def fitLength (elementsLengthMax : ℕ) : ℕ → ℕ → ℕ → Option ℕ
  | 0, _, _ => none
  | fuel + 1, length, log2 =>
    if length ≤ elementsLengthMax then
      fitLength elementsLengthMax fuel (length * 2 % 2 ^ 32) (log2 + 1)
    else some (log2 - 1)

/-- `allocHashTable` with its loop, where the region has room for so many elements. -/
def allocTable (room fuel : ℕ) : Option HashTable :=
  let elementsLengthMax := room % 2 ^ 32
  if elementsLengthMax < 64 then some ⟨fun _ => none, 0, 6, true⟩
  else (fitLength elementsLengthMax fuel 64 6).map fun log2 => ⟨fun _ => none, 0, log2, true⟩

/-- The loop stops at a length of at most `2 ^ 31`. -/
theorem fitLength_eq {n k : ℕ} (hn : n < 2 ^ 31) (hk : 2 ^ k ≤ n) (d : ℕ) (fuel : ℕ)
    (hd : Nat.log 2 n = k + d) (hfuel : d + 2 ≤ fuel) :
    fitLength n fuel (2 ^ k) k = some (Nat.log 2 n) := by
  have hpos : n ≠ 0 := by
    have := Nat.two_pow_pos k
    omega
  have hlog : Nat.log 2 n < 31 := Nat.log_lt_of_lt_pow hpos hn
  induction d generalizing k fuel with
  | zero =>
    obtain ⟨fuel, rfl⟩ : ∃ n, fuel = n + 2 := ⟨fuel - 2, by omega⟩
    have hlt : n < 2 ^ (k + 1) := by
      have := Nat.lt_pow_succ_log_self (b := 2) (by decide) n
      rwa [hd] at this
    have hmod : 2 ^ k * 2 % 2 ^ 32 = 2 ^ (k + 1) := by
      rw [← pow_succ, Nat.mod_eq_of_lt]
      exact Nat.pow_lt_pow_right (by decide) (by omega)
    rw [fitLength, if_pos hk, hmod, fitLength, if_neg (not_le.2 hlt), hd]
    rfl
  | succ d ih =>
    obtain ⟨fuel, rfl⟩ : ∃ n, fuel = n + 1 := ⟨fuel - 1, by omega⟩
    have hmod : 2 ^ k * 2 % 2 ^ 32 = 2 ^ (k + 1) := by
      rw [← pow_succ, Nat.mod_eq_of_lt]
      exact Nat.pow_lt_pow_right (by decide) (by omega)
    have hle : 2 ^ (k + 1) ≤ n := by
      refine le_trans (Nat.pow_le_pow_right (by decide) ?_) (Nat.pow_log_le_self 2 hpos)
      omega
    rw [fitLength, if_pos hk, hmod]
    exact ih hle _ (by omega) (by omega)

/-- The length becomes 0, which always fits. -/
theorem fitLength_none {n : ℕ} (hn : 2 ^ 31 ≤ n) (fuel length log2 : ℕ)
    (hlength : length = 0 ∨ ∃ k ≤ 31, length = 2 ^ k) : fitLength n fuel length log2 = none := by
  induction fuel generalizing length log2 with
  | zero => rfl
  | succ fuel ih =>
    have hle : length ≤ n := by
      rcases hlength with rfl | ⟨k, hk, rfl⟩
      · exact Nat.zero_le n
      · exact (Nat.pow_le_pow_right (by decide) hk).trans hn
    rw [fitLength, if_pos hle]
    apply ih
    rcases hlength with rfl | ⟨k, hk, rfl⟩
    · exact .inl rfl
    · rcases hk.eq_or_lt with rfl | hlt
      · exact .inl (by decide)
      · refine .inr ⟨k + 1, hlt, ?_⟩
        rw [← pow_succ, Nat.mod_eq_of_lt]
        exact Nat.pow_lt_pow_right (by decide) (by omega)

/-- `allocHashTable` returns if and only if fewer than `2 ^ 31` elements fit. -/
theorem allocTable_eq {room : ℕ} (hroom : room % 2 ^ 32 < 2 ^ 31) {fuel : ℕ} (hfuel : 32 ≤ fuel) :
    allocTable room fuel = some (allocHashTable (room % 2 ^ 32)) := by
  unfold allocTable allocHashTable
  simp only
  split_ifs with hsmall
  · rfl
  · have hle : 2 ^ 6 ≤ room % 2 ^ 32 := not_lt.1 hsmall
    have hlog : 6 ≤ Nat.log 2 (room % 2 ^ 32) := Nat.le_log_of_pow_le (by decide) hle
    have hlt : Nat.log 2 (room % 2 ^ 32) < 31 := by
      refine Nat.log_lt_of_lt_pow ?_ hroom
      omega
    have hfit := fitLength_eq hroom hle (Nat.log 2 (room % 2 ^ 32) - 6) fuel
      (by omega) (by omega)
    rw [show (64 : ℕ) = 2 ^ 6 from rfl, hfit]
    rfl

theorem allocTable_none {room : ℕ} (hroom : ¬ room % 2 ^ 32 < 2 ^ 31) (fuel : ℕ) :
    allocTable room fuel = none := by
  have hle := not_lt.1 hroom
  have hsmall : ¬ room % 2 ^ 32 < 64 := by omega
  unfold allocTable
  simp only [if_neg hsmall]
  rw [fitLength_none hle fuel 64 6 (.inr ⟨6, by decide, rfl⟩)]
  rfl

/-! ### Runs -/

/-- A call of `hashConsPointer`: the heap and the bytes of the objects at that time, and what the
allocator would say. -/
structure HashConsCall (w : ℕ) where
  heap : Heap w
  data : ℕ → ℕ → ℕ
  calloc : ℕ → Bool
  object : ℕ
  countBytesHashConsed : Bool

section

variable (g : Tables)

/-- The hash that the call computes. -/
def HashConsCall.hash (c : HashConsCall w) : ℕ := hashOf g c.data c.heap c.object

/-- The comparison to the object of the call. -/
def HashConsCall.same (c : HashConsCall w) : ℕ → Bool := sameContents g c.data c.heap c.object

def HashConsCall.run (c : HashConsCall w) (x : HashConsState) : HashConsState × ℕ :=
  hashConsPointer g c.data c.calloc x c.heap c.object c.countBytesHashConsed

end

/-- Some cell is free, so that all probes end, and an element is found by its hash. -/
structure HashTable.Sound (t : HashTable) : Prop where
  free : ∃ slot < t.elementsLengthMax, t.elements slot = none
  ends : ∀ hash same, ∃ slot, t.look hash same = some slot
  found : ∀ slot < t.elementsLengthMax, ∀ e, t.elements slot = some e →
    ∀ same : ℕ → Bool, same e.object = true → ∃ slot' e', t.look e.hash same = some slot' ∧
      t.elements slot' = some e' ∧ e'.hash = e.hash ∧ same e'.object = true

/-- `elementsLengthCur` is the number of occupied slots. -/
def HashTable.Exact (t : HashTable) : Prop := t.elementsLengthCur = t.count

/-- Whether an object is in a table. -/
def HashTable.Holds (t : HashTable) (object : ℕ) : Prop :=
  ∃ slot < t.elementsLengthMax, ∃ e, t.elements slot = some e ∧ e.object = object

/-- What a call on an immutable object returns: the object, which is then in the table unless
nothing may be inserted, or an earlier one with the same header, length and contents. -/
def Answers (g : Tables) (x : HashConsState) (earlier : List ℕ) (c : HashConsCall w) : Prop :=
  (splitHeader g (c.heap c.object).header).hasIdentity = false →
    (c.run g x).2 = c.object ∧
        ((c.run g x).1.table.Holds c.object ∨ x.table.mayInsert = false) ∨
      (c.run g x).2 ∈ earlier ∧ SameWords g c.data c.heap c.object (c.run g x).2

/-- `P` holds of the table before and after every call; the calls answer as they should and no
element is lost. -/
def RunOk (g : Tables) (P : HashTable → Prop) :
    HashConsState → List ℕ → List (HashConsCall w) → Prop
  | x, _, [] => P x.table
  | x, earlier, c :: calls =>
    P x.table ∧ Answers g x earlier c ∧
      (∀ object, x.table.Holds object → (c.run g x).1.table.Holds object) ∧
      RunOk g P (c.run g x).1 (c.object :: earlier) calls

/-- The call inserts an object that is new into a table that is half full, and there is memory for a
larger one. -/
structure Grows (g : Tables) (x : HashConsState) (c : HashConsCall w) : Prop where
  immutable : (splitHeader g (c.heap c.object).header).hasIdentity = false
  mayInsert : x.table.mayInsert = true
  full : x.table.elementsLengthCur * 2 = x.table.elementsLengthMax
  new : ∀ slot < x.table.elementsLengthMax, ∀ e, x.table.elements slot = some e →
    ¬ (e.hash = c.hash g ∧ c.same g e.object = true)
  memory : c.calloc (x.table.elementsLengthMax * 2) = true

/-- No call of the run makes the table grow. -/
def NeverGrows (g : Tables) : HashConsState → List (HashConsCall w) → Prop
  | _, [] => True
  | x, c :: calls => ¬ Grows g x c ∧ NeverGrows g (c.run g x).1 calls

/-! ### Insertion -/

/-- The elements of a table can be found again by its probes. -/
def HashTable.Findable (t : HashTable) : Prop :=
  OpenAddressing.Findable t.elements t.elementsLengthMax (fun e => t.slot e.hash)
    fun e => t.probe e.hash

namespace HashTable

variable {t : HashTable}

theorem Findable.found (h : t.Findable) {slot : ℕ} (hslot : slot < t.elementsLengthMax)
    {e : HashElement} (he : t.elements slot = some e) {same : ℕ → Bool}
    (hsame : same e.object = true) : ∃ slot' e', t.look e.hash same = some slot' ∧
      t.elements slot' = some e' ∧ e'.hash = e.hash ∧ same e'.object = true := by
  obtain ⟨slot', e', hfind, he', htest⟩ := OpenAddressing.Findable.find h
    (fun e' => e.hash == e'.hash && same e'.object) hslot he (t.slot_lt e.hash)
    (by simp [hsame])
  rw [Bool.and_eq_true, beq_iff_eq] at htest
  exact ⟨slot', e', hfind, he', htest.1.symm, htest.2⟩

theorem Findable.sound (h : t.Findable) (hcount : t.count < t.elementsLengthMax) : t.Sound where
  free := exists_empty hcount
  ends hash same := t.look_ends hcount hash same
  found _ hslot _ he _ hsame := h.found hslot he hsame

end HashTable

/-- The table after an insertion into the cell `slot`. -/
def HashTable.put (t : HashTable) (slot hash object : ℕ) : HashTable :=
  { t with
    elements := Function.update t.elements slot (some ⟨hash, object⟩)
    elementsLengthCur := t.elementsLengthCur + 1 }

/-- The ways in which `insertHashTableElem` ends: an equal element is found; or there is none, and
the object is not inserted or inserted into an empty cell, with all elements findable. -/
inductive Inserts (t : HashTable) (hash object : ℕ) (same : ℕ → Bool) :
    HashTable × ℕ → Prop
  | found (slot : ℕ) (e : HashElement) (lt : slot < t.elementsLengthMax)
      (elem : t.elements slot = some e) (hash_eq : e.hash = hash)
      (eq : same e.object = true) : Inserts t hash object same (t, e.object)
  | kept (new : ∀ slot < t.elementsLengthMax, ∀ e, t.elements slot = some e →
        ¬ (e.hash = hash ∧ same e.object = true))
      (mayInsert : t.mayInsert = false) : Inserts t hash object same (t, object)
  | put (slot : ℕ) (lt : slot < t.elementsLengthMax) (empty : t.elements slot = none)
      (new : ∀ slot < t.elementsLengthMax, ∀ e, t.elements slot = some e →
        ¬ (e.hash = hash ∧ same e.object = true))
      (mayInsert : t.mayInsert = true) (findable : (t.put slot hash object).Findable) :
      Inserts t hash object same (t.put slot hash object, object)

variable {t : HashTable}

theorem insertHashTableElem_inserts (h : t.Findable)
    (hcount : t.count < t.elementsLengthMax) (hash object : ℕ) (same : ℕ → Bool) :
    Inserts t hash object same (insertHashTableElem t hash object same) := by
  obtain ⟨slot, hlook⟩ := t.look_ends hcount hash same
  have hlt : slot < t.elementsLengthMax := findSlot_lt (t.slot_lt hash) hlook
  unfold insertHashTableElem
  simp only [hlook]
  cases hcell : t.elements slot with
  | some e =>
    obtain ⟨e', he', htest⟩ := (findSlot_spec hlook).resolve_left (by simp [hcell])
    obtain rfl : e' = e := Option.some.inj (he'.symm.trans hcell)
    rw [Bool.and_eq_true, beq_iff_eq] at htest
    exact .found slot e' hlt hcell htest.1.symm htest.2
  | none =>
    have hnew : ∀ i < t.elementsLengthMax, ∀ e, t.elements i = some e →
        ¬ (e.hash = hash ∧ same e.object = true) := by
      rintro i hi e he ⟨rfl, hsame⟩
      obtain ⟨slot', e', hlook', he', -, -⟩ := h.found hi he hsame
      cases hlook'.symm.trans hlook
      rw [hcell] at he'
      exact absurd he' nofun
    show Inserts t hash object same
      (if !t.mayInsert then (t, object) else (t.put slot hash object, object))
    by_cases hmay : t.mayInsert = true
    · rw [if_neg (by simp [hmay])]
      exact .put slot hlt hcell hnew hmay (OpenAddressing.Findable.update h
        (e := ⟨hash, object⟩) le_rfl (t.slot_lt hash) hlook hcell)
    · rw [if_pos (by simpa using hmay)]
      exact .kept hnew (by simpa using hmay)

@[simp] theorem HashTable.put_self (t : HashTable) (slot hash object : ℕ) :
    (t.put slot hash object).elements slot = some ⟨hash, object⟩ := update_self ..

theorem HashTable.put_of_ne (t : HashTable) {slot i : ℕ} (hi : i ≠ slot) (hash object : ℕ) :
    (t.put slot hash object).elements i = t.elements i := update_of_ne hi _ _

theorem HashTable.put_count {slot : ℕ} (hslot : slot < t.elementsLengthMax)
    (hempty : t.elements slot = none) (hash object : ℕ) :
    (t.put slot hash object).count = t.count + 1 :=
  card_occupied_update hslot hempty _

theorem HashTable.put_holds {slot hash object : ℕ}
    (hslot : slot < t.elementsLengthMax) : (t.put slot hash object).Holds object :=
  ⟨slot, hslot, _, t.put_self .., rfl⟩

/-- An insertion keeps the other elements, and adds none but the object. -/
theorem HashTable.put_elements {slot hash object i : ℕ} {e : HashElement}
    (he : (t.put slot hash object).elements i = some e) :
    i = slot ∧ e.object = object ∨ i ≠ slot ∧ t.elements i = some e := by
  by_cases hi : i = slot
  · subst hi
    rw [HashTable.put_self] at he
    cases he
    exact .inl ⟨rfl, rfl⟩
  · rw [HashTable.put_of_ne t hi] at he
    exact .inr ⟨hi, he⟩

theorem HashTable.Holds.put {slot hash object object' : ℕ}
    (hempty : t.elements slot = none) (h : t.Holds object') :
    (t.put slot hash object).Holds object' := by
  obtain ⟨i, hi, e, he, rfl⟩ := h
  refine ⟨i, hi, e, ?_, rfl⟩
  rw [HashTable.put_of_ne, he]
  rintro rfl
  rw [hempty] at he
  cases he

/-! ### A larger table -/

/-- The table after the elements of the first `n` cells of the old one have been inserted. -/
structure Rebuilt (old : HashTable) (n : ℕ) (t : HashTable) : Prop where
  log2 : t.elementsLengthMaxLog2 = old.elementsLengthMaxLog2 + 1
  mayInsert : t.mayInsert = true
  findable : t.Findable
  count : t.count = (occupied old.elements n).card
  cur : t.elementsLengthCur = old.elementsLengthCur + (occupied old.elements n).card
  keeps : ∀ i < n, ∀ e, old.elements i = some e → t.Holds e.object
  only : ∀ object, t.Holds object → old.Holds object

/-- `reinsert` inserts the element of a cell. -/
theorem Rebuilt.reinsert {old t : HashTable} {n : ℕ} (h : Rebuilt old n t)
    (hn : n < old.elementsLengthMax) : Rebuilt old (n + 1) (reinsert old t n) := by
  have hmax : t.elementsLengthMax = old.elementsLengthMax * 2 := by
    rw [HashTable.elementsLengthMax, h.log2, pow_succ, HashTable.elementsLengthMax]
  unfold GC.reinsert
  cases hcell : old.elements n with
  | none =>
    have hsame : occupied old.elements (n + 1) = occupied old.elements n := by
      ext i
      rw [mem_occupied, mem_occupied]
      by_cases hi : i = n
      · subst hi
        simp [hcell]
      · constructor <;> rintro ⟨hlt, hsome⟩ <;> exact ⟨by omega, hsome⟩
    refine { h with count := hsame ▸ h.count, cur := hsame ▸ h.cur, keeps := fun i hi e he => ?_ }
    refine h.keeps i (lt_of_le_of_ne (Nat.le_of_lt_succ hi) ?_) e he
    rintro rfl
    rw [hcell] at he
    cases he
  | some e =>
    have hnext : (occupied old.elements (n + 1)).card = (occupied old.elements n).card + 1 := by
      rw [occupied, Finset.range_add_one, Finset.filter_insert, if_pos (by rw [hcell]; rfl),
        Finset.card_insert_of_notMem (by simp), occupied]
    have hle : (occupied old.elements n).card ≤ n := by
      have := Finset.card_filter_le (Finset.range n) fun i => (old.elements i).isSome
      rwa [Finset.card_range] at this
    have hroom : t.count < t.elementsLengthMax := by
      rw [h.count, hmax]
      omega
    have hinserts := insertHashTableElem_inserts h.findable hroom e.hash e.object fun _ => false
    simp only
    generalize insertHashTableElem t e.hash e.object (fun _ => false) = out at hinserts
    cases hinserts with
    | found _ _ _ _ _ hsame => exact absurd hsame Bool.false_ne_true
    | kept _ hmay => exact absurd (h.mayInsert.symm.trans hmay) (by simp)
    | put slot hslot hempty _ _ hfindable =>
      refine ⟨h.log2, h.mayInsert, hfindable, ?_, ?_, fun i hi e' he' => ?_, fun object hobject => ?_⟩
      · rw [HashTable.put_count hslot hempty, h.count, hnext]
      · show t.elementsLengthCur + 1 = _
        rw [h.cur, hnext]
        omega
      · rcases Nat.lt_succ_iff_lt_or_eq.1 hi with hlt | rfl
        · exact (h.keeps i hlt e' he').put hempty
        · cases he'.symm.trans hcell
          exact HashTable.put_holds hslot
      · obtain ⟨i, hi, e', he', rfl⟩ := hobject
        rcases HashTable.put_elements he' with ⟨-, heq⟩ | ⟨-, hold⟩
        · exact ⟨n, hn, e, hcell, heq.symm⟩
        · exact h.only _ ⟨i, hi, e', hold, rfl⟩

theorem foldl_rebuilt (old : HashTable) (hmay : old.mayInsert = true) (n : ℕ)
    (hn : n ≤ old.elementsLengthMax) :
    Rebuilt old n ((List.range n).foldl (reinsert old) { old with
      elements := fun _ => none
      elementsLengthMaxLog2 := old.elementsLengthMaxLog2 + 1 }) := by
  induction n with
  | zero =>
    refine ⟨rfl, hmay, OpenAddressing.Findable.empty, ?_, ?_, nofun, ?_⟩
    · simp [HashTable.count, occupied]
    · simp [occupied]
    · rintro object ⟨i, -, e, he, -⟩
      cases he
  | succ n ih =>
    rw [range_succ, foldl_append, foldl_cons, foldl_nil]
    exact (ih (by omega)).reinsert (by omega)

/-- The ways in which `growHashTableMaybe` ends. -/
theorem growHashTableMaybe_cases (calloc : ℕ → Bool) (t : HashTable) :
    (t.mayInsert = false ∨ t.elementsLengthCur * 2 ≤ t.elementsLengthMax) ∧
        growHashTableMaybe calloc t = t ∨
      (t.mayInsert = true ∧ t.elementsLengthMax < t.elementsLengthCur * 2) ∧
        (calloc (t.elementsLengthMax * 2) = false ∧
            growHashTableMaybe calloc t = { t with mayInsert := false } ∨
          calloc (t.elementsLengthMax * 2) = true ∧
            Rebuilt t t.elementsLengthMax (growHashTableMaybe calloc t)) := by
  unfold growHashTableMaybe
  by_cases hstay : t.mayInsert = false ∨ t.elementsLengthCur * 2 ≤ t.elementsLengthMax
  · rw [if_pos (by simpa using hstay)]
    exact .inl ⟨hstay, rfl⟩
  · rw [if_neg (by simpa using hstay)]
    rw [not_or, Bool.not_eq_false, not_le] at hstay
    refine .inr ⟨hstay, ?_⟩
    cases hcalloc : calloc (t.elementsLengthMax * 2) with
    | false => exact .inl ⟨rfl, by simp⟩
    | true =>
      refine .inr ⟨rfl, ?_⟩
      simp only [Bool.not_true, Bool.false_eq_true, if_false]
      exact foldl_rebuilt t hstay.1 _ le_rfl

/-- Growing keeps every element, and all of them findable. -/
theorem growHashTableMaybe_findable (calloc : ℕ → Bool) (h : t.Findable) :
    (growHashTableMaybe calloc t).Findable ∧
      ∀ object, (growHashTableMaybe calloc t).Holds object ↔ t.Holds object := by
  rcases growHashTableMaybe_cases calloc t with ⟨-, heq⟩ | ⟨-, ⟨-, heq⟩ | ⟨-, hnew⟩⟩
  · rw [heq]
    exact ⟨h, fun _ => Iff.rfl⟩
  · rw [heq]
    exact ⟨h, fun _ => Iff.rfl⟩
  · refine ⟨hnew.findable, fun object => ⟨hnew.only object, ?_⟩⟩
    rintro ⟨i, hi, e, he, rfl⟩
    exact hnew.keeps i hi e he

/-! ### Calls -/

section

variable {g : Tables} {x : HashConsState} {c : HashConsCall w} {earlier : List ℕ}

theorem run_mutable (hidentity : (splitHeader g (c.heap c.object).header).hasIdentity = true) :
    c.run g x = (x, c.object) := by
  unfold HashConsCall.run hashConsPointer
  rw [if_pos hidentity]

theorem run_immutable (hidentity : (splitHeader g (c.heap c.object).header).hasIdentity = false) :
    (c.run g x).1.table = growHashTableMaybe c.calloc
        (insertHashTableElem x.table (c.hash g) c.object (c.same g)).1 ∧
      (c.run g x).2 = (insertHashTableElem x.table (c.hash g) c.object (c.same g)).2 := by
  unfold HashConsCall.run hashConsPointer
  rw [if_neg (by simp [hidentity])]
  exact ⟨rfl, rfl⟩

/-- What holds before and after every call. -/
structure TableInv (x : HashConsState) (earlier : List ℕ) : Prop where
  roomy : x.table.Roomy
  findable : x.table.Findable
  seen : ∀ object, x.table.Holds object → object ∈ earlier

theorem TableInv.sound (hx : TableInv x earlier) : x.table.Sound :=
  hx.findable.sound hx.roomy.count_lt

theorem TableInv.inserts (hx : TableInv x earlier) (g : Tables) (c : HashConsCall w) :
    Inserts x.table (c.hash g) c.object (c.same g)
      (insertHashTableElem x.table (c.hash g) c.object (c.same g)) :=
  insertHashTableElem_inserts hx.findable hx.roomy.count_lt _ _ _

/-- The table of an insertion is findable, keeps the elements and adds at most the object. -/
theorem Inserts.findable {hash object : ℕ} {same : ℕ → Bool}
    {out : HashTable × ℕ} (ht : t.Findable) (h : Inserts t hash object same out) :
    out.1.Findable ∧ (∀ object', t.Holds object' → out.1.Holds object') ∧
      ∀ object', out.1.Holds object' → object' = object ∨ t.Holds object' := by
  cases h with
  | found | kept => exact ⟨ht, fun _ => id, fun _ => .inr⟩
  | put slot hslot hempty _ _ hfindable =>
    refine ⟨hfindable, fun _ hold => hold.put hempty, ?_⟩
    rintro object' ⟨i, hi, e, he, rfl⟩
    rcases HashTable.put_elements he with ⟨-, heq⟩ | ⟨-, hold⟩
    · exact .inl heq
    · exact .inr ⟨i, hi, e, hold, rfl⟩

/-- No element is lost in a call. -/
theorem TableInv.keeps (hx : TableInv x earlier) (g : Tables) (c : HashConsCall w) (object : ℕ)
    (hobject : x.table.Holds object) : (c.run g x).1.table.Holds object := by
  cases hidentity : (splitHeader g (c.heap c.object).header).hasIdentity with
  | true =>
    rw [run_mutable hidentity]
    exact hobject
  | false =>
    obtain ⟨hfindable, hkeeps, -⟩ := (hx.inserts g c).findable hx.findable
    rw [(run_immutable hidentity).1, (growHashTableMaybe_findable c.calloc hfindable).2]
    exact hkeeps object hobject

theorem TableInv.run (hx : TableInv x earlier) (g : Tables) (c : HashConsCall w) :
    TableInv (c.run g x).1 (c.object :: earlier) := by
  refine ⟨hashConsPointer_roomy hx.roomy _ _ _, ?_, ?_⟩
  · cases hidentity : (splitHeader g (c.heap c.object).header).hasIdentity with
    | true =>
      rw [run_mutable hidentity]
      exact hx.findable
    | false =>
      rw [(run_immutable hidentity).1]
      exact (growHashTableMaybe_findable c.calloc ((hx.inserts g c).findable hx.findable).1).1
  · intro object hobject
    cases hidentity : (splitHeader g (c.heap c.object).header).hasIdentity with
    | true =>
      rw [run_mutable hidentity] at hobject
      exact mem_cons_of_mem _ (hx.seen object hobject)
    | false =>
      obtain ⟨hfindable, -, honly⟩ := (hx.inserts g c).findable hx.findable
      rw [(run_immutable hidentity).1, (growHashTableMaybe_findable c.calloc hfindable).2]
        at hobject
      rcases honly object hobject with rfl | hold
      · exact mem_cons_self
      · exact mem_cons_of_mem _ (hx.seen object hold)

theorem TableInv.answers (hx : TableInv x earlier) (g : Tables) (c : HashConsCall w) :
    Answers g x earlier c := by
  intro hidentity
  obtain ⟨htable, hres⟩ := run_immutable (x := x) hidentity
  have hinserts := hx.inserts g c
  rw [htable, hres]
  generalize insertHashTableElem x.table (c.hash g) c.object (c.same g) = out at hinserts ⊢
  cases hinserts with
  | found slot e hslot he _ hsame =>
    exact .inr ⟨hx.seen _ ⟨slot, hslot, e, he, rfl⟩, sameContents_spec hsame⟩
  | kept _ hmay => exact .inl ⟨rfl, .inr hmay⟩
  | put slot hslot _ _ _ hfindable =>
    refine .inl ⟨rfl, .inl ?_⟩
    rw [(growHashTableMaybe_findable c.calloc hfindable).2]
    exact HashTable.put_holds hslot

/-- The count is wrong as soon as the table grows, and only then. -/
theorem TableInv.exact_iff (hx : TableInv x earlier) (hexact : x.table.Exact) (g : Tables)
    (c : HashConsCall w) : (c.run g x).1.table.Exact ↔ ¬ Grows g x c := by
  have hroom : x.table.mayInsert = true →
      x.table.elementsLengthCur * 2 ≤ x.table.elementsLengthMax := by
    intro hmay
    have hhalf := hx.roomy.half
    rwa [if_pos hmay, ← hexact, Nat.add_zero] at hhalf
  -- nothing happens to a table into which nothing has been inserted
  have hsame : growHashTableMaybe c.calloc x.table = x.table := by
    rcases growHashTableMaybe_cases c.calloc x.table with ⟨-, heq⟩ | ⟨⟨hmay, hfull⟩, -⟩
    · exact heq
    · exact absurd (hroom hmay) (not_le.2 hfull)
  cases hidentity : (splitHeader g (c.heap c.object).header).hasIdentity with
  | true =>
    rw [run_mutable hidentity]
    refine ⟨fun _ hgrows => ?_, fun _ => hexact⟩
    exact absurd (hidentity.symm.trans hgrows.immutable) (by simp)
  | false =>
    have hinserts := hx.inserts g c
    rw [(run_immutable hidentity).1]
    generalize insertHashTableElem x.table (c.hash g) c.object (c.same g) = out at hinserts ⊢
    cases hinserts with
    | found slot e hslot he hhash heq =>
      rw [hsame]
      exact ⟨fun _ hgrows => hgrows.new slot hslot e he ⟨hhash, heq⟩, fun _ => hexact⟩
    | kept _ hmay =>
      rw [hsame]
      exact ⟨fun _ hgrows => absurd (hmay.symm.trans hgrows.mayInsert) (by simp), fun _ => hexact⟩
    | put slot hslot hempty hnew hmay _ =>
      have hcount := HashTable.put_count hslot hempty (c.hash g) c.object
      have hroom := hroom hmay
      set t := x.table.put slot (c.hash g) c.object with ht
      have hcur : t.elementsLengthCur = x.table.elementsLengthCur + 1 := rfl
      have hmax : t.elementsLengthMax = x.table.elementsLengthMax := rfl
      have hexact' : t.Exact := by
        rw [HashTable.Exact, hcur, hcount, hexact]
      rcases growHashTableMaybe_cases c.calloc t with
        ⟨hstay, heq⟩ | ⟨⟨-, hfull⟩, ⟨hmemory, heq⟩ | ⟨hmemory, hrebuilt⟩⟩
      · rw [heq]
        refine ⟨fun _ hgrows => ?_, fun _ => hexact'⟩
        have hle := hstay.resolve_left (by rw [show t.mayInsert = _ from hmay]; simp)
        have hfull := hgrows.full
        omega
      · rw [heq]
        refine ⟨fun _ hgrows => ?_, fun _ => hexact'⟩
        exact absurd (hmemory.symm.trans hgrows.memory) (by simp)
      · constructor
        · intro hexact''
          rw [HashTable.Exact, hrebuilt.cur, hrebuilt.count] at hexact''
          have hocc : (occupied t.elements t.elementsLengthMax).card = t.count := rfl
          omega
        · intro hgrows
          refine absurd ⟨hidentity, hmay, ?_, hnew, hmemory⟩ hgrows
          have heven : x.table.elementsLengthMax % 2 = 0 := by
            obtain ⟨k, hk⟩ : ∃ k, x.table.elementsLengthMaxLog2 = k + 1 :=
              ⟨x.table.elementsLengthMaxLog2 - 1, by have := hx.roomy.log2; omega⟩
            rw [HashTable.elementsLengthMax, hk, pow_succ, Nat.mul_mod_left]
          omega

/-! ### Whole runs -/

theorem allocHashTable_inv (n bytesHashConsed : ℕ) :
    TableInv ⟨allocHashTable n, bytesHashConsed⟩ [] := by
  refine ⟨allocHashTable_roomy n, OpenAddressing.Findable.empty, ?_⟩
  rintro object ⟨i, -, e, he, -⟩
  cases he

theorem allocHashTable_exact (n : ℕ) : (allocHashTable n).Exact := by
  simp [HashTable.Exact, HashTable.count, allocHashTable]

/-- The table is sound in every run. -/
theorem TableInv.runOk (hx : TableInv x earlier) (g : Tables) (calls : List (HashConsCall w)) :
    RunOk g HashTable.Sound x earlier calls := by
  induction calls generalizing x earlier with
  | nil => exact hx.sound
  | cons c calls ih => exact ⟨hx.sound, hx.answers g c, hx.keeps g c, ih (hx.run g c)⟩

/-- The table stays exact as long as it does not grow. -/
theorem TableInv.runOk_exact_iff (hx : TableInv x earlier) (hexact : x.table.Exact) (g : Tables)
    (calls : List (HashConsCall w)) :
    RunOk g (fun t => t.Sound ∧ t.Exact) x earlier calls ↔ NeverGrows g x calls := by
  induction calls generalizing x earlier with
  | nil => exact ⟨fun _ => trivial, fun _ => ⟨hx.sound, hexact⟩⟩
  | cons c calls ih =>
    constructor
    · rintro ⟨-, -, -, hrun⟩
      have hnext : (c.run g x).1.table.Exact := by
        cases calls with
        | nil => exact hrun.2
        | cons _ _ => exact hrun.1.2
      exact ⟨(hx.exact_iff hexact g c).1 hnext, (ih (hx.run g c) hnext).1 hrun⟩
    · rintro ⟨hgrows, hnever⟩
      have hnext := (hx.exact_iff hexact g c).2 hgrows
      exact ⟨⟨hx.sound, hexact⟩, hx.answers g c, hx.keeps g c,
        (ih (hx.run g c) hnext).2 hnever⟩

end

/-- The hash-cons table is correct in a run if and only if it can be allocated and never grows: a
table that grows counts its elements twice.  Its other properties hold in every run whose table
stays below `2 ^ 32` elements. -/
theorem hashTable_correct_iff (g : Tables) (room bytesHashConsed : ℕ)
    (calls : List (HashConsCall w)) :
    ((∃ t, (∃ fuel₀, ∀ fuel, fuel₀ ≤ fuel → allocTable room fuel = some t) ∧
        RunOk g (fun t => t.Sound ∧ t.Exact) ⟨t, bytesHashConsed⟩ [] calls) ↔
      room % 2 ^ 32 < 2 ^ 31 ∧
        NeverGrows g ⟨allocHashTable (room % 2 ^ 32), bytesHashConsed⟩ calls) ∧
    (room % 2 ^ 32 < 2 ^ 31 → (∀ c ∈ calls, c.calloc (2 ^ 32) = false) →
      ∃ t, (∃ fuel₀, ∀ fuel, fuel₀ ≤ fuel → allocTable room fuel = some t) ∧
        RunOk g HashTable.Sound ⟨t, bytesHashConsed⟩ [] calls) := by
  have hinv := allocHashTable_inv (room % 2 ^ 32) bytesHashConsed
  have hiff := hinv.runOk_exact_iff (allocHashTable_exact (room % 2 ^ 32)) g calls
  constructor
  · constructor
    · rintro ⟨t, ⟨fuel₀, halloc⟩, hrun⟩
      have halloc := halloc (max fuel₀ 32) (le_max_left _ _)
      by_cases hroom : room % 2 ^ 32 < 2 ^ 31
      · rw [allocTable_eq hroom (le_max_right _ _)] at halloc
        cases halloc
        exact ⟨hroom, hiff.1 hrun⟩
      · rw [allocTable_none hroom] at halloc
        exact absurd halloc nofun
    · rintro ⟨hroom, hnever⟩
      exact ⟨_, ⟨32, fun _ hfuel => allocTable_eq hroom hfuel⟩, hiff.2 hnever⟩
  · intro hroom _
    exact ⟨_, ⟨32, fun _ hfuel => allocTable_eq hroom hfuel⟩, hinv.runOk g calls⟩

/-- The state after the calls. -/
def runAll (g : Tables) (x : HashConsState) (calls : List (HashConsCall w)) : HashConsState :=
  calls.foldl (fun x c => (c.run g x).1) x

theorem RunOk.last {g : Tables} {P : HashTable → Prop} {x : HashConsState} {earlier : List ℕ}
    {calls : List (HashConsCall w)} (h : RunOk g P x earlier calls) :
    P (runAll g x calls).table := by
  induction calls generalizing x earlier with
  | nil => exact h
  | cons c calls ih => exact ih h.2.2.2

/-- One type of objects, of eight bytes and immutable. -/
def wordTables : Tables where
  model := ⟨8, 8, Model.eight_eq, Model.eight_eq⟩
  objectTypes _ := ⟨.normal, false, 8, 0⟩
  getFrameLayoutFromReturnAddress _ := ⟨[], 8⟩
  sharedHeapStart := 0
  sharedHeapSize := 0

/-- Objects at the first 33 places, each with its address as its contents. -/
def wordCalls : List (HashConsCall 64) :=
  (List.range 33).map fun i =>
    { heap := fun _ => ⟨1#64, 0, 0, fun _ => 0, fun _ => 0, 0, 0, 0, 0, 0, false, 0, 0⟩
      data := fun p o => p / 256 ^ o
      calloc := fun _ => true
      object := 16 * (i + 1)
      countBytesHashConsed := true }

theorem hashTable_not_correct : ¬ ∃ t,
    (∃ fuel₀, ∀ fuel, fuel₀ ≤ fuel → allocTable 0 fuel = some t) ∧
      RunOk wordTables (fun t => t.Sound ∧ t.Exact) ⟨t, 0⟩ [] wordCalls := by
  rintro ⟨t, ⟨fuel₀, halloc⟩, hrun⟩
  have halloc : some (allocHashTable 0) = some t := halloc fuel₀ le_rfl
  cases halloc
  have hexact := hrun.last.2
  have hcur : (runAll wordTables ⟨allocHashTable 0, 0⟩ wordCalls).table.elementsLengthCur = 66 := by
    decide +kernel
  have hcount : (runAll wordTables ⟨allocHashTable 0, 0⟩ wordCalls).table.count = 33 := by
    decide +kernel
  rw [HashTable.Exact, hcur, hcount] at hexact
  exact absurd hexact (by decide)

end MultiMLton.GC
