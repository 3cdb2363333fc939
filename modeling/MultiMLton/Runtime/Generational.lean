import Mathlib
import MultiMLton.Runtime.Object

/-!
# Cards, the cross map and the remembered set

`gc/generational.c` and `forwardInterGenerationalObjptrs` of `gc/forward.c`.  The old generation is
cut into cards of 256 bytes.  The cross map says, for each card, where the last object boundary in
it is, as a scaled offset in a byte; `updateCrossMap` computes it for the part of the old
generation that it has not seen, and `isCrossMapOk` from the start.

* the functions of the two files;
* `MapOk`: the cross map says where the last boundary is in each card but the last;
* `updateCrossMap_mapOk`, `isCrossMapOk_of_mapOk`;
* `rememberedSet_complete`: a minor collection scans every object that overlaps a marked card.

Loops take a number of rounds; `none` also stands for a header that is read where no object begins.
The maps are as long as the heap.
-/

namespace MultiMLton.GC

open List Option Nat
open Function (update update_of_ne update_self)

universe u

variable {σ : Type u}

/-! ### The old generation -/

/-- What begins at an address of the old generation.  An object that has been lifted has left a
forwarding pointer, through which its size is found. -/
inductive Cell
  | object (o : Shape)
  | forwarded (o : Shape)

def Cell.shape : Cell → Shape
  | .object o => o
  | .forwarded o => o

/-- `sizeofObject` of the object that begins here. -/
def Cell.size (m : Model) (c : Cell) : ℕ := sizeofObject m c.shape

/-- The size of a sequence of objects. -/
def totalSize (m : Model) (cells : List Cell) : ℕ := (cells.map (Cell.size m)).sum

/-- The object that begins at `a`, in a sequence of objects that begins at `front`. -/
def objectAt (m : Model) : ℕ → List Cell → ℕ → Option Cell
  | _, [], _ => none
  | front, c :: cells, a => if a = front then some c else objectAt m (front + c.size m) cells a

/-- The fields of `GC_state` that the functions use. -/
structure GenState where
  start : ℕ
  oldGen : List Cell
  crossMap : ℕ → UInt8
  crossMapValidSize : ℕ

namespace GenState

variable (m : Model) (s : GenState)

/-- The first object. -/
def first : ℕ := alignFrontier m s.start

def oldGenSize : ℕ := if s.oldGen = [] then 0 else s.first m + totalSize m s.oldGen - s.start

def oldGenEnd : ℕ := s.start + s.oldGenSize m

def objectAt (a : ℕ) : Option Cell := GC.objectAt m (s.first m) s.oldGen a

end GenState

/-! ### The cross map -/

def CARD_SIZE_LOG2 : ℕ := 8

def CARD_SIZE : ℕ := 2 ^ CARD_SIZE_LOG2

def CROSS_MAP_EMPTY : UInt8 := 255

def CROSS_MAP_OFFSET_SCALE : ℕ := 4

def sizeToCardMapIndex (z : ℕ) : ℕ := z >>> CARD_SIZE_LOG2

def cardMapIndexToSize (i : ℕ) : ℕ := i <<< CARD_SIZE_LOG2

def getCrossMapCardStart (s : GenState) (p : ℕ) : ℕ :=
  if p = s.start then s.start else (p - 1) - (p - 1) % CARD_SIZE

/-- `loopObjects` of `isCrossMapOk`: the last card index and the map. -/
def isCrossMapOkLoop (m : Model) (s : GenState) :
    ℕ → ℕ → (ℕ → UInt8) → Option (ℕ × (ℕ → UInt8))
  | 0, _, _ => none
  | fuel + 1, front, map =>
    let cardStart := getCrossMapCardStart s front
    let cardIndex := sizeToCardMapIndex (cardStart - s.start)
    let map := update map cardIndex
      (UInt8.ofNat ((front - cardStart) / CROSS_MAP_OFFSET_SCALE))
    if front < s.oldGenEnd m then
      (s.objectAt m front).bind fun c => isCrossMapOkLoop m s fuel (front + c.size m) map
    else some (cardIndex, map)

def isCrossMapOk (m : Model) (s : GenState) : Option Bool :=
  (isCrossMapOkLoop m s (s.oldGen.length + 1) (alignFrontier m s.start) fun _ => CROSS_MAP_EMPTY).map
    fun r => (List.range r.1).all fun i => r.2 i == s.crossMap i

/-- `loopObjects` of `updateCrossMap` and the assignment after it. -/
def updateCrossMapLoop (m : Model) (s : GenState) :
    ℕ → ℕ → ℕ → ℕ → (ℕ → UInt8) → Option (ℕ → UInt8)
  | 0, _, _, _, _ => none
  | fuel + 1, cardIndex, cardStart, objectStart, crossMap =>
    (s.objectAt m objectStart).bind fun c =>
      let nextObject := objectStart + c.size m
      let cardEnd := cardStart + CARD_SIZE
      let crossMap' :=
        if nextObject > cardEnd then
          update crossMap cardIndex
            (UInt8.ofNat ((objectStart - cardStart) / CROSS_MAP_OFFSET_SCALE))
        else crossMap
      let cardIndex' :=
        if nextObject > cardEnd then sizeToCardMapIndex (nextObject - 1 - s.start) else cardIndex
      let cardStart' :=
        if nextObject > cardEnd then s.start + cardMapIndexToSize cardIndex' else cardStart
      if nextObject < s.oldGenEnd m then
        updateCrossMapLoop m s fuel cardIndex' cardStart' nextObject crossMap'
      else
        some (update crossMap' cardIndex'
          (UInt8.ofNat (s.oldGenEnd m - cardStart') / UInt8.ofNat CROSS_MAP_OFFSET_SCALE))

def updateCrossMap (m : Model) (s : GenState) : Option GenState :=
  if s.crossMapValidSize = s.oldGenSize m then some s
  else
    let objectStart := s.start + s.crossMapValidSize
    let cardIndex :=
      if objectStart = s.start then 0 else sizeToCardMapIndex (objectStart - 1 - s.start)
    let objectStart' := if objectStart = s.start then alignFrontier m objectStart else objectStart
    (updateCrossMapLoop m s (s.oldGen.length + 1) cardIndex (s.start + cardMapIndexToSize cardIndex)
      objectStart' s.crossMap).map
      fun crossMap => { s with crossMap := crossMap, crossMapValidSize := s.oldGenSize m }

/-! ### The scan of the marked cards -/

/-- `foreachObjptrInRange` on the old generation, which the calls of `f` do not change; no range is
skipped in a collection of a local heap. -/
def foreachObjptrInRange (m : Model) (s : GenState) (isObjptr : σ → ℕ → Bool) (f : σ → ℕ → σ)
    (skipWeaks : Bool) (back : ℕ) : ℕ → ℕ → σ → Option (σ × ℕ)
  | 0, _, _ => none
  | fuel + 1, front, x =>
    if front < back then
      match s.objectAt m front with
      | none => none
      | some (.forwarded o) =>
        foreachObjptrInRange m s isObjptr f skipWeaks back fuel
          (front + headerBytes m o + sizeofObjectNoHeader m o) x
      | some (.object o) =>
        let r := foreachObjptrInObject m isObjptr f skipWeaks x o (front + headerBytes m o)
        foreachObjptrInRange m s isObjptr f skipWeaks back fuel r.2 r.1
    else some (x, front)

/-- `checkAll`, and `checkCard` where the flag is not set. -/
def checkCards (m : Model) (s : GenState) (cardMap : ℕ → UInt8) (isObjptr : σ → ℕ → Bool)
    (f : σ → ℕ → σ) (maxCardIndex : ℕ) : ℕ → Bool → ℕ → ℕ → ℕ → σ → Option σ
  | 0, _, _, _, _, _ => none
  | fuel + 1, checkAll, cardIndex, cardStart, objectStart, x =>
    if checkAll ∧ cardIndex = maxCardIndex then some x
    else if cardMap cardIndex ≠ 0 then
      let cardEnd := cardStart + CARD_SIZE
      let cardEnd := if s.oldGenEnd m < cardEnd then s.oldGenEnd m else cardEnd
      (foreachObjptrInRange m s isObjptr f false cardEnd (s.oldGen.length + 1) objectStart x).bind
        fun r =>
          if r.2 = s.oldGenEnd m then some r.1
          else
            let cardIndex := sizeToCardMapIndex (r.2 - s.start)
            checkCards m s cardMap isObjptr f maxCardIndex fuel false cardIndex
              (s.start + cardMapIndexToSize cardIndex) r.2 r.1
    else
      let objectStart :=
        if s.crossMap cardIndex = CROSS_MAP_EMPTY then objectStart
        else cardStart + (s.crossMap cardIndex).toNat * CROSS_MAP_OFFSET_SCALE
      checkCards m s cardMap isObjptr f maxCardIndex fuel true (cardIndex + 1)
        (cardStart + CARD_SIZE) objectStart x

/-- `forwardInterGenerationalObjptrs`, where `f` is `forwardObjptrIfInNursery`. -/
def forwardInterGenerationalObjptrs (m : Model) (s : GenState) (cardMap : ℕ → UInt8)
    (isObjptr : σ → ℕ → Bool) (f : σ → ℕ → σ) (x : σ) : Option (GenState × σ) :=
  (updateCrossMap m s).bind fun s =>
    let maxCardIndex := sizeToCardMapIndex (align (s.oldGenSize m) CARD_SIZE)
    (checkCards m s cardMap isObjptr f maxCardIndex (maxCardIndex + 1) true 0 s.start
      (alignFrontier m s.start) x).map (s, ·)

/-- The old generation grows by sequences of objects, its objects change in place, and
`updateCrossMap` is called, in any order from an empty old generation and an empty map. -/
inductive Grown (m : Model) : GenState → Prop
  | clearCrossMap (start : ℕ) (hstart : CARD_SIZE ∣ start) :
      Grown m ⟨start, [], fun _ => CROSS_MAP_EMPTY, 0⟩
  | grow {s : GenState} (h : Grown m s) (run : List Cell) (hne : run ≠ [])
      (hrun : ∀ c ∈ run, c.shape.WellFormed m) : Grown m { s with oldGen := s.oldGen ++ run }
  | write {s : GenState} (h : Grown m s) (cells : List Cell)
      (hcells : ∀ c ∈ cells, c.shape.WellFormed m)
      (hsize : cells.map (Cell.size m) = s.oldGen.map (Cell.size m)) :
      Grown m { s with oldGen := cells }
  | updateCrossMap {s s' : GenState} (h : Grown m s) (hs' : updateCrossMap m s = some s') :
      Grown m s'

/-! ### Boundaries -/

/-- `b` is where an object of the sequence ends, or where the first one begins. -/
def IsBoundary (m : Model) (front : ℕ) (cells : List Cell) (b : ℕ) : Prop :=
  ∃ done, done <+: cells ∧ b = front + totalSize m done

/-- The card of a boundary; one between two cards belongs to the first of them. -/
def cardOf (start b : ℕ) : ℕ := (b - 1 - start) / CARD_SIZE

/-- What the cross map has for a card with last boundary `b`. -/
def offsetOf (start b : ℕ) : UInt8 :=
  UInt8.ofNat ((b - (start + CARD_SIZE * cardOf start b)) / CROSS_MAP_OFFSET_SCALE)

theorem totalSize_append (m : Model) (cells cells' : List Cell) :
    totalSize m (cells ++ cells') = totalSize m cells + totalSize m cells' := by
  simp [totalSize]

theorem totalSize_cons (m : Model) (c : Cell) (cells : List Cell) :
    totalSize m (c :: cells) = c.size m + totalSize m cells := by
  simp [totalSize]

theorem Cell.size_pos (m : Model) (c : Cell) : 0 < c.size m := sizeofObject_pos m c.shape

variable {m : Model} {cells : List Cell} {front b : ℕ}

theorem IsBoundary.le (h : IsBoundary m front cells b) : b ≤ front + totalSize m cells := by
  obtain ⟨done, ⟨rest, rfl⟩, rfl⟩ := h
  rw [totalSize_append]
  omega

theorem IsBoundary.ge (h : IsBoundary m front cells b) : front ≤ b := by
  obtain ⟨done, -, rfl⟩ := h
  omega

theorem isBoundary_nil : IsBoundary m front [] b ↔ b = front := by
  simp [IsBoundary, totalSize]

theorem isBoundary_end (m : Model) (front : ℕ) (cells : List Cell) :
    IsBoundary m front cells (front + totalSize m cells) := ⟨cells, prefix_rfl, rfl⟩

variable {c : Cell}

theorem isBoundary_snoc : IsBoundary m front (cells ++ [c]) b ↔
      IsBoundary m front cells b ∨ b = front + totalSize m (cells ++ [c]) := by
  constructor
  · rintro ⟨done, hdone, rfl⟩
    rcases prefix_concat_iff.1 hdone with rfl | hdone
    · exact .inr rfl
    · exact .inl ⟨done, hdone, rfl⟩
  · rintro (⟨done, hdone, rfl⟩ | rfl)
    · exact ⟨done, hdone.trans (prefix_append _ _), rfl⟩
    · exact isBoundary_end m front _

/-- Boundaries depend on the sizes only. -/
theorem IsBoundary.congr {cells cells' : List Cell}
    (hsize : cells.map (Cell.size m) = cells'.map (Cell.size m))
    (h : IsBoundary m front cells b) : IsBoundary m front cells' b := by
  obtain ⟨done, ⟨rest, rfl⟩, rfl⟩ := h
  rw [map_append] at hsize
  obtain ⟨done', rest', rfl, hdone, -⟩ := map_eq_append_iff.1 hsize.symm
  exact ⟨done', prefix_append _ _, by rw [totalSize, totalSize, hdone]⟩

theorem objectAt_boundary (m : Model) (front : ℕ) (done : List Cell) (c : Cell)
    (rest : List Cell) :
    objectAt m front (done ++ c :: rest) (front + totalSize m done) = some c := by
  induction done generalizing front with
  | nil => simp [objectAt, totalSize]
  | cons d done ih =>
    have hpos := d.size_pos m
    rw [List.cons_append, objectAt, if_neg (by rw [totalSize_cons]; omega), totalSize_cons,
      ← add_assoc]
    exact ih _

/-- An object is found only at a boundary with an object after it. -/
theorem objectAt_eq_some {front a : ℕ} (h : objectAt m front cells a = some c) :
    ∃ done rest, cells = done ++ c :: rest ∧ a = front + totalSize m done := by
  induction cells generalizing front with
  | nil => cases h
  | cons d cells ih =>
    unfold objectAt at h
    split_ifs at h with ha
    · cases h
      exact ⟨[], cells, rfl, by simp [totalSize, ha]⟩
    · obtain ⟨done, rest, rfl, rfl⟩ := ih h
      exact ⟨d :: done, rest, rfl, by rw [totalSize_cons, add_assoc]⟩

/-! ### The first object -/

/-- The first object begins at most four bytes after the start. -/
theorem alignFrontier_eq (m : Model) {start : ℕ} (hstart : CARD_SIZE ∣ start) :
    alignFrontier m start = start ∨ alignFrontier m start = start + 4 := by
  have hcard : CARD_SIZE = 256 := rfl
  rw [hcard] at hstart
  unfold alignFrontier alignWithExtra align Model.headerSize
  rcases m.objptrSize_eq with hw | hw <;> rcases m.alignment_eq with ha | ha <;> rw [hw, ha] <;>
    omega

variable {s : GenState}

theorem le_first (hstart : CARD_SIZE ∣ s.start) : s.start ≤ s.first m := by
  unfold GenState.first
  rcases alignFrontier_eq m hstart with h | h <;> omega

theorem cardOf_first (hstart : CARD_SIZE ∣ s.start) : cardOf s.start (s.first m) = 0 := by
  have hcard : CARD_SIZE = 256 := rfl
  unfold cardOf GenState.first
  rcases alignFrontier_eq m hstart with h | h <;> rw [h, hcard] <;> omega

theorem dvd_totalSize (h : ∀ c ∈ cells, c.shape.WellFormed m) : 4 ∣ totalSize m cells := by
  induction cells with
  | nil => exact dvd_zero 4
  | cons c cells ih =>
    have hc : m.alignment ∣ c.size m := (h c mem_cons_self).aligned
    have h4 : 4 ∣ m.alignment := by
      rcases m.alignment_eq with ha | ha
      · exact dvd_of_eq ha.symm
      · rw [ha]
        decide
    rw [totalSize_cons]
    exact dvd_add (h4.trans hc) (ih fun d hd => h d (mem_cons_of_mem c hd))

theorem dvd_boundary {b : ℕ} (hstart : CARD_SIZE ∣ s.start)
    (h : ∀ c ∈ s.oldGen, c.shape.WellFormed m) (hb : IsBoundary m (s.first m) s.oldGen b) :
    4 ∣ b - s.start := by
  obtain ⟨done, hdone, rfl⟩ := hb
  have hdvd : 4 ∣ totalSize m done := dvd_totalSize fun c hc => h c (hdone.subset hc)
  unfold GenState.first
  rcases alignFrontier_eq m hstart with hf | hf <;> rw [hf] <;> omega

/-! ### Offsets -/

theorem sizeToCardMapIndex_eq (z : ℕ) : sizeToCardMapIndex z = z / CARD_SIZE :=
  shiftRight_eq_div_pow z CARD_SIZE_LOG2

theorem cardMapIndexToSize_eq (i : ℕ) : cardMapIndexToSize i = CARD_SIZE * i := by
  rw [cardMapIndexToSize, shiftLeft_eq, mul_comm]
  rfl

theorem getCrossMapCardStart_eq {b : ℕ} (hstart : CARD_SIZE ∣ s.start)
    (hb : s.start ≤ b) : getCrossMapCardStart s b = s.start + CARD_SIZE * cardOf s.start b := by
  have hcard : CARD_SIZE = 256 := rfl
  unfold getCrossMapCardStart cardOf
  rw [hcard] at hstart ⊢
  split_ifs <;> omega

/-- The offset of a boundary gives it back. -/
theorem offsetOf_spec {start b : ℕ} (hb : start ≤ b) (hdvd : 4 ∣ b - start) :
    offsetOf start b ≠ CROSS_MAP_EMPTY ∧
      start + CARD_SIZE * cardOf start b + (offsetOf start b).toNat * CROSS_MAP_OFFSET_SCALE =
        b := by
  have hcard : CARD_SIZE = 256 := rfl
  have hscale : CROSS_MAP_OFFSET_SCALE = 4 := rfl
  have hle : start + 256 * cardOf start b ≤ b ∧ b ≤ start + 256 * cardOf start b + 256 := by
    unfold cardOf
    rw [hcard]
    omega
  have hnat : (offsetOf start b).toNat = (b - (start + 256 * cardOf start b)) / 4 := by
    rw [offsetOf, hcard, hscale, UInt8.toNat_ofNat', mod_eq_of_lt (by omega)]
  constructor
  · intro he
    have : (offsetOf start b).toNat = 255 := by
      rw [he]
      rfl
    omega
  · rw [hcard, hscale, hnat]
    omega

/-! ### Maps that are right for a sequence of objects -/

/-- The map has the offset of the last boundary in card `i`, and is empty when there is none. -/
def MapAt (m : Model) (start front : ℕ) (cells : List Cell) (map : ℕ → UInt8) (i : ℕ) : Prop :=
  (map i = CROSS_MAP_EMPTY ∧ ∀ b, IsBoundary m front cells b → cardOf start b ≠ i) ∨
    ∃ b, IsBoundary m front cells b ∧ cardOf start b = i ∧
      (∀ b', IsBoundary m front cells b' → cardOf start b' = i → b' ≤ b) ∧ map i = offsetOf start b

section Maps

variable {m : Model} {start front i : ℕ} {cells : List Cell} {map map' : ℕ → UInt8}

theorem MapAt.congr (h : MapAt m start front cells map i) (heq : map' i = map i) :
    MapAt m start front cells map' i := by
  unfold MapAt
  rw [heq]
  exact h

theorem MapAt.unique (h : MapAt m start front cells map i)
    (h' : MapAt m start front cells map' i) : map i = map' i := by
  rcases h with ⟨hmap, hnone⟩ | ⟨b, hb, hcard, hlast, hmap⟩
  · rcases h' with ⟨hmap', -⟩ | ⟨b', hb', hcard', -, -⟩
    · rw [hmap, hmap']
    · exact absurd hcard' (hnone b' hb')
  · rcases h' with ⟨-, hnone⟩ | ⟨b', hb', hcard', hlast', hmap'⟩
    · exact absurd hcard (hnone b hb)
    · rw [hmap, hmap', le_antisymm (hlast' b hb hcard) (hlast b' hb' hcard')]

theorem MapAt.of_sizes {cells' : List Cell} (h : MapAt m start front cells map i)
    (hsize : cells.map (Cell.size m) = cells'.map (Cell.size m)) :
    MapAt m start front cells' map i := by
  rcases h with ⟨hmap, hnone⟩ | ⟨b, hb, hcard, hlast, hmap⟩
  · exact .inl ⟨hmap, fun b hb => hnone b (hb.congr hsize.symm)⟩
  · exact .inr ⟨b, hb.congr hsize, hcard, fun b' hb' => hlast b' (hb'.congr hsize.symm), hmap⟩

/-- An object that ends in another card changes nothing. -/
theorem MapAt.snoc (h : MapAt m start front cells map i)
    (hne : cardOf start (front + totalSize m (cells ++ [c])) ≠ i) :
    MapAt m start front (cells ++ [c]) map i := by
  have hold {b : ℕ} (hb : IsBoundary m front (cells ++ [c]) b) (hcard : cardOf start b = i) :
      IsBoundary m front cells b := by
    rcases isBoundary_snoc.1 hb with hb | rfl
    · exact hb
    · exact absurd hcard hne
  rcases h with ⟨hmap, hnone⟩ | ⟨b, hb, hcard, hlast, hmap⟩
  · exact .inl ⟨hmap, fun b hb hcard => hnone b (hold hb hcard) hcard⟩
  · exact .inr ⟨b, isBoundary_snoc.2 (.inl hb), hcard,
      fun b' hb' hcard' => hlast b' (hold hb' hcard') hcard', hmap⟩

/-- The end of the sequence is the last boundary in its card. -/
theorem mapAt_end (hmap : map (cardOf start (front + totalSize m cells)) =
    offsetOf start (front + totalSize m cells)) :
    MapAt m start front cells map (cardOf start (front + totalSize m cells)) :=
  .inr ⟨_, isBoundary_end m front cells, rfl, fun _ hb _ => hb.le, hmap⟩

/-- What `isCrossMapOk` does with an object. -/
theorem mapAt_update (h : ∀ i, MapAt m start front cells map i) (c : Cell) (i : ℕ) :
    MapAt m start front (cells ++ [c]) (update map
      (cardOf start (front + totalSize m (cells ++ [c])))
      (offsetOf start (front + totalSize m (cells ++ [c])))) i := by
  by_cases hi : i = cardOf start (front + totalSize m (cells ++ [c]))
  · subst hi
    exact mapAt_end (update_self ..)
  · exact ((h i).snoc (Ne.symm hi)).congr (update_of_ne hi ..)

end Maps

/-! ### The state between two calls -/

/-- The cross map is right for the part of the old generation that it has seen, except in the last
card of that part. -/
structure MapOk (m : Model) (s : GenState) : Prop where
  aligned : CARD_SIZE ∣ s.start
  wellFormed : ∀ c ∈ s.oldGen, c.shape.WellFormed m
  seen : ∃ done rest, s.oldGen = done ++ rest ∧
    s.crossMapValidSize = (if done = [] then 0 else s.first m + totalSize m done - s.start) ∧
    ∀ i, i ≠ cardOf s.start (s.first m + totalSize m done) →
      MapAt m s.start (s.first m) done s.crossMap i

theorem oldGenEnd_eq (hstart : CARD_SIZE ∣ s.start)
    (hne : s.oldGen ≠ []) : s.oldGenEnd m = s.first m + totalSize m s.oldGen := by
  have := le_first (m := m) hstart
  unfold GenState.oldGenEnd GenState.oldGenSize
  rw [if_neg hne]
  omega

variable {done rest : List Cell}

/-- An object follows a boundary exactly when it is before the end. -/
theorem lt_oldGenEnd_iff (hstart : CARD_SIZE ∣ s.start) (hold : s.oldGen = done ++ rest) :
    s.first m + totalSize m done < s.oldGenEnd m ↔ rest ≠ [] := by
  have hfirst := le_first (m := m) hstart
  cases rest with
  | nil =>
    rw [append_nil] at hold
    subst hold
    by_cases hne : s.oldGen = []
    · simp [GenState.oldGenEnd, GenState.oldGenSize, hne]
      omega
    · rw [oldGenEnd_eq hstart hne]
      simp
  | cons c rest =>
    have hpos := c.size_pos m
    rw [oldGenEnd_eq hstart (by simp [hold]), hold, totalSize_append, totalSize_cons]
    simp
    omega

theorem GenState.objectAt_boundary {done : List Cell}
    {rest : List Cell} (hold : s.oldGen = done ++ c :: rest) :
    s.objectAt m (s.first m + totalSize m done) = some c := by
  unfold GenState.objectAt
  rw [hold]
  exact GC.objectAt_boundary ..

theorem cardIndex_eq (start i : ℕ) : sizeToCardMapIndex (start + CARD_SIZE * i - start) = i := by
  rw [sizeToCardMapIndex_eq, Nat.add_sub_cancel_left, Nat.mul_div_cancel_left _ (by decide)]

theorem isCrossMapOkLoop_eq (hstart : CARD_SIZE ∣ s.start)
    {fuel : ℕ} {map : ℕ → UInt8} (hold : s.oldGen = done ++ rest) (hfuel : rest.length < fuel)
    (hmap : ∀ i, MapAt m s.start (s.first m) done (update map
      (cardOf s.start (s.first m + totalSize m done))
      (offsetOf s.start (s.first m + totalSize m done))) i) :
    ∃ map', isCrossMapOkLoop m s fuel (s.first m + totalSize m done) map =
        some (cardOf s.start (s.first m + totalSize m s.oldGen), map') ∧
      ∀ i, MapAt m s.start (s.first m) s.oldGen map' i := by
  induction rest generalizing fuel done map with
  | nil =>
    obtain ⟨fuel, rfl⟩ := exists_eq_succ_of_ne_zero (show fuel ≠ 0 by omega)
    have hfirst := le_first (m := m) hstart
    have hend : s.oldGen = done := by rw [hold, append_nil]
    have hlt : ¬ s.first m + totalSize m done < s.oldGenEnd m := by
      rw [lt_oldGenEnd_iff hstart hold]
      simp
    unfold isCrossMapOkLoop
    simp only [getCrossMapCardStart_eq hstart (show s.start ≤ s.first m + totalSize m done by omega),
      cardIndex_eq]
    rw [if_neg hlt]
    exact ⟨_, by rw [hend]; rfl, fun i => hend ▸ hmap i⟩
  | cons c rest ih =>
    obtain ⟨fuel, rfl⟩ := exists_eq_succ_of_ne_zero (show fuel ≠ 0 by omega)
    have hfirst := le_first (m := m) hstart
    have hlt : s.first m + totalSize m done < s.oldGenEnd m := by
      rw [lt_oldGenEnd_iff hstart hold]
      simp
    have hnext : s.first m + totalSize m done + c.size m =
        s.first m + totalSize m (done ++ [c]) := by
      rw [totalSize_append, totalSize_cons]
      simp [totalSize, add_assoc]
    unfold isCrossMapOkLoop
    simp only [getCrossMapCardStart_eq hstart (show s.start ≤ s.first m + totalSize m done by omega),
      cardIndex_eq]
    rw [if_pos hlt, GenState.objectAt_boundary hold, bind_some, hnext]
    exact ih (by simpa using hold) (by simpa using hfuel) (mapAt_update hmap c)

/-- The full recomputation agrees with a cross map that is right for the whole old generation. -/
theorem isCrossMapOk_eq (hstart : CARD_SIZE ∣ s.start)
    (hmap : ∀ i, i ≠ cardOf s.start (s.first m + totalSize m s.oldGen) →
      MapAt m s.start (s.first m) s.oldGen s.crossMap i) : isCrossMapOk m s = some true := by
  have hempty : ∀ i, MapAt m s.start (s.first m) [] (update (fun _ => CROSS_MAP_EMPTY)
      (cardOf s.start (s.first m + totalSize m [])) (offsetOf s.start (s.first m + totalSize m [])))
      i := by
    intro i
    by_cases hi : i = cardOf s.start (s.first m + totalSize m [])
    · subst hi
      exact mapAt_end (update_self ..)
    · refine .inl ⟨update_of_ne hi .., fun b hb hcard => hi ?_⟩
      rw [isBoundary_nil] at hb
      subst hb
      exact hcard.symm
  obtain ⟨map', hloop, hmap'⟩ := isCrossMapOkLoop_eq (m := m) hstart
    (show s.oldGen = [] ++ s.oldGen from rfl)
    (lt_succ_self s.oldGen.length) hempty
  have hloop' : isCrossMapOkLoop m s (s.oldGen.length + 1) (alignFrontier m s.start)
      (fun _ => CROSS_MAP_EMPTY) =
      some (cardOf s.start (s.first m + totalSize m s.oldGen), map') := hloop
  unfold isCrossMapOk
  rw [hloop', map_some]
  congr 1
  rw [List.all_eq_true]
  intro i hi
  rw [mem_range] at hi
  rw [beq_iff_eq]
  exact (hmap' i).unique (hmap i (by dsimp only at hi; omega))

/-- The loop of `updateCrossMap` from a boundary: `cardIndex` is the card of the boundary, and the
map is right in the other cards. -/
theorem updateCrossMapLoop_eq (hstart : CARD_SIZE ∣ s.start)
    {fuel : ℕ} {map : ℕ → UInt8} (hold : s.oldGen = done ++ rest)
    (hne : rest ≠ []) (hfuel : rest.length < fuel)
    (hmap : ∀ i, i ≠ cardOf s.start (s.first m + totalSize m done) →
      MapAt m s.start (s.first m) done map i) :
    ∃ map', updateCrossMapLoop m s fuel (cardOf s.start (s.first m + totalSize m done))
        (s.start + CARD_SIZE * cardOf s.start (s.first m + totalSize m done))
        (s.first m + totalSize m done) map = some map' ∧
      ∀ i, i ≠ cardOf s.start (s.first m + totalSize m s.oldGen) →
        MapAt m s.start (s.first m) s.oldGen map' i := by
  induction rest generalizing fuel done map with
  | nil => exact absurd rfl hne
  | cons c rest ih =>
    obtain ⟨fuel, rfl⟩ := exists_eq_succ_of_ne_zero (show fuel ≠ 0 by omega)
    have hcard : CARD_SIZE = 256 := rfl
    have hfirst := le_first (m := m) hstart
    have hpos := c.size_pos m
    have hnext : s.first m + totalSize m done + c.size m =
        s.first m + totalSize m (done ++ [c]) := by
      rw [totalSize_append, totalSize_cons]
      simp [totalSize, add_assoc]
    have hold' : s.oldGen = (done ++ [c]) ++ rest := by simpa using hold
    -- the card of the next boundary and the map when the loop gets there
    obtain ⟨map₁, hmap₁, hbody⟩ : ∃ map₁ : ℕ → UInt8,
        (∀ i, i ≠ cardOf s.start (s.first m + totalSize m (done ++ [c])) →
          MapAt m s.start (s.first m) (done ++ [c]) map₁ i) ∧
        updateCrossMapLoop m s (fuel + 1) (cardOf s.start (s.first m + totalSize m done))
          (s.start + CARD_SIZE * cardOf s.start (s.first m + totalSize m done))
          (s.first m + totalSize m done) map =
        if s.first m + totalSize m (done ++ [c]) < s.oldGenEnd m then
          updateCrossMapLoop m s fuel (cardOf s.start (s.first m + totalSize m (done ++ [c])))
            (s.start + CARD_SIZE * cardOf s.start (s.first m + totalSize m (done ++ [c])))
            (s.first m + totalSize m (done ++ [c])) map₁
        else some (update map₁ (cardOf s.start (s.first m + totalSize m (done ++ [c])))
          (UInt8.ofNat (s.oldGenEnd m -
            (s.start + CARD_SIZE * cardOf s.start (s.first m + totalSize m (done ++ [c])))) /
              UInt8.ofNat CROSS_MAP_OFFSET_SCALE)) := by
      have hcases : s.start + CARD_SIZE * cardOf s.start (s.first m + totalSize m done) ≤
          s.first m + totalSize m done := by
        unfold cardOf
        rw [hcard]
        omega
      rw [updateCrossMapLoop, GenState.objectAt_boundary hold, bind_some]
      dsimp only
      rw [hnext]
      by_cases hcross : s.first m + totalSize m (done ++ [c]) >
          s.start + CARD_SIZE * cardOf s.start (s.first m + totalSize m done) + CARD_SIZE
      · -- the next boundary is in a later card: this one is the last of its card
        have hidx : sizeToCardMapIndex (s.first m + totalSize m (done ++ [c]) - 1 - s.start) =
            cardOf s.start (s.first m + totalSize m (done ++ [c])) := sizeToCardMapIndex_eq _
        refine ⟨update map (cardOf s.start (s.first m + totalSize m done))
          (offsetOf s.start (s.first m + totalSize m done)), fun i hi => ?_, ?_⟩
        · refine MapAt.snoc ?_ (Ne.symm hi)
          by_cases hi' : i = cardOf s.start (s.first m + totalSize m done)
          · subst hi'
            exact mapAt_end (update_self ..)
          · exact (hmap i hi').congr (update_of_ne hi' ..)
        · simp only [if_pos hcross, hidx, cardMapIndexToSize_eq]
          rfl
      · have hsame : cardOf s.start (s.first m + totalSize m (done ++ [c])) =
            cardOf s.start (s.first m + totalSize m done) := by
          rw [← hnext] at hcross ⊢
          unfold cardOf at hcross hcases ⊢
          rw [hcard] at hcross hcases ⊢
          omega
        refine ⟨map, fun i hi => (hmap i (hsame ▸ hi)).snoc (Ne.symm hi), ?_⟩
        simp only [if_neg hcross, hsame]
    rw [hbody]
    by_cases hrest : rest = []
    · have hlt : ¬ s.first m + totalSize m (done ++ [c]) < s.oldGenEnd m := by
        rw [lt_oldGenEnd_iff hstart hold']
        simpa using hrest
      have hend : s.oldGen = done ++ [c] := by rw [hold', hrest, append_nil]
      rw [if_neg hlt, hend]
      exact ⟨_, rfl, fun i hi => (hmap₁ i hi).congr (update_of_ne hi ..)⟩
    · rw [if_pos ((lt_oldGenEnd_iff hstart hold').2 hrest)]
      exact ih hold' hrest (by simpa using hfuel) hmap₁

theorem totalSize_pos (h : cells ≠ []) : 0 < totalSize m cells := by
  obtain ⟨c, cells, rfl⟩ := exists_cons_of_ne_nil h
  have := c.size_pos m
  rw [totalSize_cons]
  omega

/-- `crossMapValidSize` is `oldGenSize` when there is nothing new. -/
theorem validSize_eq_iff (hstart : CARD_SIZE ∣ s.start) (hold : s.oldGen = done ++ rest)
    (hvalid : s.crossMapValidSize =
      if done = [] then 0 else s.first m + totalSize m done - s.start) :
    s.crossMapValidSize = s.oldGenSize m ↔ rest = [] := by
  have hfirst := le_first (m := m) hstart
  rw [hvalid, GenState.oldGenSize, hold, totalSize_append]
  by_cases hdone : done = []
  · subst hdone
    by_cases hrest : rest = []
    · simp [hrest]
    · have := totalSize_pos (m := m) hrest
      simp [hrest, totalSize] at this ⊢
      omega
  · by_cases hrest : rest = []
    · simp [hrest, hdone, totalSize]
    · have hd := totalSize_pos (m := m) hdone
      have hr := totalSize_pos (m := m) hrest
      simp [hrest, hdone]
      omega

/-- `updateCrossMap` returns and makes the cross map right for the whole old generation. -/
theorem updateCrossMap_mapOk (h : MapOk m s) : ∃ crossMap, updateCrossMap m s =
        some { s with crossMap := crossMap, crossMapValidSize := s.oldGenSize m } ∧
      ∀ i, i ≠ cardOf s.start (s.first m + totalSize m s.oldGen) →
        MapAt m s.start (s.first m) s.oldGen crossMap i := by
  obtain ⟨done, rest, hold, hvalid, hmap⟩ := h.seen
  have hfirst := le_first (m := m) h.aligned
  have hiff := validSize_eq_iff h.aligned hold hvalid
  by_cases hrest : rest = []
  · have hdone : s.oldGen = done := by rw [hold, hrest, append_nil]
    refine ⟨s.crossMap, ?_, hdone ▸ hmap⟩
    unfold updateCrossMap
    rw [if_pos (hiff.2 hrest), ← hiff.2 hrest]
  · have hlen : rest.length < s.oldGen.length + 1 := by
      rw [hold, length_append]
      omega
    obtain ⟨map', hloop, hmap'⟩ := updateCrossMapLoop_eq h.aligned hold hrest hlen hmap
    refine ⟨map', ?_, hmap'⟩
    unfold updateCrossMap
    rw [if_neg (mt hiff.1 hrest)]
    by_cases hdone : done = []
    · subst hdone
      have h0 : s.crossMapValidSize = 0 := by rw [hvalid, if_pos rfl]
      have hfront : s.first m + totalSize m [] = alignFrontier m s.start := rfl
      have hcard0 : cardOf s.start (alignFrontier m s.start) = 0 := cardOf_first h.aligned
      rw [hfront, hcard0] at hloop
      simp only [h0, add_zero, if_true, cardMapIndexToSize_eq, hloop, map_some]
    · have hpos := totalSize_pos (m := m) hdone
      have hv : s.start + s.crossMapValidSize = s.first m + totalSize m done := by
        rw [hvalid, if_neg hdone]
        omega
      have hne : ¬ s.first m + totalSize m done = s.start := by omega
      have hidx : sizeToCardMapIndex (s.first m + totalSize m done - 1 - s.start) =
          cardOf s.start (s.first m + totalSize m done) := sizeToCardMapIndex_eq _
      simp only [hv, if_neg hne, hidx, cardMapIndexToSize_eq, hloop, map_some]

theorem Grown.mapOk (h : Grown m s) : MapOk m s := by
  induction h with
  | clearCrossMap start hstart =>
    refine ⟨hstart, nofun, [], [], rfl, rfl, fun i hi => .inl ⟨rfl, fun b hb hcard => hi ?_⟩⟩
    rw [isBoundary_nil] at hb
    subst hb
    exact hcard.symm
  | grow _ run hne hrun ih =>
    obtain ⟨done, rest, hold, hvalid, hmap⟩ := ih.seen
    refine ⟨ih.aligned, fun c hc => ?_, done, rest ++ run, ?_, hvalid, hmap⟩
    · rcases mem_append.1 hc with hc | hc
      · exact ih.wellFormed c hc
      · exact hrun c hc
    · simp [hold]
  | @write s _ cells hcells hsize ih =>
    obtain ⟨done, rest, hold, hvalid, hmap⟩ := ih.seen
    rw [hold, map_append] at hsize
    obtain ⟨done', rest', rfl, hdone, -⟩ := map_eq_append_iff.1 hsize
    have htotal : totalSize m done' = totalSize m done := by rw [totalSize, totalSize, hdone]
    have hnil : done' = [] ↔ done = [] := by
      rw [← length_eq_zero_iff, ← length_eq_zero_iff, ← length_map (Cell.size m),
        hdone, length_map]
    refine ⟨ih.aligned, hcells, done', rest', rfl, ?_, fun i hi => (hmap i ?_).of_sizes hdone.symm⟩
    · show s.crossMapValidSize = _
      simp only [hvalid, hnil, htotal]
      rfl
    · rw [htotal] at hi
      exact hi
  | @updateCrossMap s s' _ hs' ih =>
    obtain ⟨crossMap, hupdate, hmap⟩ := updateCrossMap_mapOk ih
    cases hs'.symm.trans hupdate
    exact ⟨ih.aligned, ih.wellFormed, s.oldGen, [], (append_nil _).symm, rfl, hmap⟩

/-! ### The scan -/

/-- The pointer fields of what begins at `front`. -/
def Cell.slots (m : Model) (front : ℕ) : Cell → List ℕ
  | .object o => objptrSlots m false (front + headerBytes m o) o
  | .forwarded _ => []

/-- No boundary is inside an object. -/
theorem IsBoundary.le_or_ge (h : IsBoundary m front (done ++ c :: rest) b) :
    b ≤ front + totalSize m done ∨ front + totalSize m done + c.size m ≤ b := by
  obtain ⟨d, hd, rfl⟩ := h
  have hprefix : done ++ [c] <+: done ++ c :: rest := ⟨rest, by simp⟩
  have htotal : totalSize m (done ++ [c]) = totalSize m done + c.size m := by
    rw [totalSize_append, totalSize_cons]
    simp [totalSize]
  rcases prefix_or_prefix_of_prefix hd hprefix with hle | ⟨r, rfl⟩
  · rcases prefix_concat_iff.1 hle with rfl | ⟨r, rfl⟩
    · right
      rw [htotal]
      omega
    · left
      rw [totalSize_append]
      omega
  · right
    rw [totalSize_append, htotal]
    omega

theorem isBoundary_of_objectAt {p : ℕ}
    (h : s.objectAt m p = some c) : IsBoundary m (s.first m) s.oldGen p := by
  obtain ⟨done, rest, hold, rfl⟩ := objectAt_eq_some h
  exact ⟨done, ⟨c :: rest, hold.symm⟩, rfl⟩

/-- An object that begins before a boundary ends before it. -/
theorem end_le_boundary {p b : ℕ}
    (h : s.objectAt m p = some c) (hb : IsBoundary m (s.first m) s.oldGen b) (hlt : p < b) :
    p + c.size m ≤ b := by
  obtain ⟨done, rest, hold, rfl⟩ := objectAt_eq_some h
  rw [hold] at hb
  rcases hb.le_or_ge with hle | hge
  · omega
  · exact hge

/-- The slots that are visited from a boundary on, before `back`. -/
def scanned (m : Model) (back : ℕ) : ℕ → List Cell → List ℕ
  | _, [] => []
  | front, c :: cells =>
    if front < back then c.slots m front ++ scanned m back (front + c.size m) cells else []

/-- A scan from `front` visits `slots`, those of the objects that begin before `back`, and stops at
`b`, the first boundary that is not before `back`. -/
structure Scan (m : Model) (s : GenState) (front back b : ℕ) (slots : List ℕ) : Prop where
  boundary : IsBoundary m (s.first m) s.oldGen b
  front_le : front ≤ b
  back_le : back ≤ b
  lt_back : ∀ p c, s.objectAt m p = some c → front ≤ p → p < b → p < back
  visits : ∀ p c, s.objectAt m p = some c → front ≤ p → p < b → ∀ slot ∈ c.slots m p, slot ∈ slots
  only : ∀ slot ∈ slots, ∃ p c, s.objectAt m p = some c ∧ slot ∈ c.slots m p

theorem foreachObjptrInRange_eq (hok : MapOk m s) {back : ℕ}
    (hback : back ≤ s.oldGenEnd m) {fuel : ℕ}
    (hold : s.oldGen = done ++ rest) (hfuel : rest.length < fuel) :
    ∃ b, Scan m s (s.first m + totalSize m done) back b
        (scanned m back (s.first m + totalSize m done) rest) ∧
      ∀ (σ : Type u) (isObjptr : σ → ℕ → Bool) (f : σ → ℕ → σ) (x : σ),
        foreachObjptrInRange m s isObjptr f false back fuel (s.first m + totalSize m done) x =
          some ((scanned m back (s.first m + totalSize m done) rest).foldl
            (callIfIsObjptr isObjptr f) x, b) := by
  induction rest generalizing fuel done with
  | nil =>
    obtain ⟨fuel, rfl⟩ := exists_eq_succ_of_ne_zero (show fuel ≠ 0 by omega)
    have hend : ¬ s.first m + totalSize m done < s.oldGenEnd m := by
      rw [lt_oldGenEnd_iff hok.aligned hold]
      simp
    refine ⟨_, ⟨⟨done, ⟨[], hold.symm⟩, rfl⟩, le_rfl, by omega, ?_, ?_, nofun⟩,
      fun σ isObjptr f x => ?_⟩
    · intro p c _ hp hlt
      omega
    · intro p c _ hp hlt
      omega
    · rw [foreachObjptrInRange, if_neg (by omega)]
      rfl
  | cons c rest ih =>
    obtain ⟨fuel, rfl⟩ := exists_eq_succ_of_ne_zero (show fuel ≠ 0 by omega)
    have hpos := c.size_pos m
    have hobj := GenState.objectAt_boundary (m := m) hold
    have hnext : s.first m + totalSize m done + c.size m =
        s.first m + totalSize m (done ++ [c]) := by
      rw [totalSize_append, totalSize_cons]
      simp [totalSize, add_assoc]
    by_cases hlt : s.first m + totalSize m done < back
    · obtain ⟨b, hscan, hrun⟩ :=
        ih (show s.oldGen = (done ++ [c]) ++ rest by simpa using hold)
          (show rest.length < fuel by simpa using hfuel)
      rw [← hnext] at hscan hrun
      have hcons : scanned m back (s.first m + totalSize m done) (c :: rest) =
          c.slots m (s.first m + totalSize m done) ++
            scanned m back (s.first m + totalSize m done + c.size m) rest := if_pos hlt
      -- an object of the range is the first one or begins after it
      have hcase {p : ℕ} {c' : Cell} (hp : s.objectAt m p = some c')
          (hge : s.first m + totalSize m done ≤ p) :
          p = s.first m + totalSize m done ∧ c' = c ∨
            s.first m + totalSize m done + c.size m ≤ p := by
        rcases hge.eq_or_lt with rfl | hgt
        · exact .inl ⟨rfl, Option.some.inj (hp.symm.trans hobj)⟩
        · have hb := isBoundary_of_objectAt hp
          rw [hold] at hb
          rcases hb.le_or_ge with h | h
          · omega
          · exact .inr h
      have hle := hscan.front_le
      rw [hcons]
      refine ⟨b, ⟨hscan.boundary, by omega, hscan.back_le, fun p c' hp hge hb => ?_,
        fun p c' hp hge hb slot hslot => ?_, fun slot hslot => ?_⟩, fun σ isObjptr f x => ?_⟩
      · rcases hcase hp hge with ⟨rfl, -⟩ | hge'
        · exact hlt
        · exact hscan.lt_back p c' hp hge' hb
      · rcases hcase hp hge with ⟨rfl, rfl⟩ | hge'
        · exact mem_append_left _ hslot
        · exact mem_append_right _ (hscan.visits p c' hp hge' hb slot hslot)
      · rcases mem_append.1 hslot with hslot | hslot
        · exact ⟨_, c, hobj, hslot⟩
        · exact hscan.only slot hslot
      · rw [foreachObjptrInRange, if_pos hlt, hobj, foldl_append]
        cases c with
        | object o =>
          have hwf : o.WellFormed m := hok.wellFormed (.object o) (by simp [hold])
          have hfront : objectEnd m (s.first m + totalSize m done + headerBytes m o) o =
              s.first m + totalSize m done + Cell.size m (.object o) := by
            rw [objectEnd_eq hwf, add_assoc]
            rfl
          simp only [foreachObjptrInObject, hfront]
          exact hrun σ isObjptr f _
        | forwarded o =>
          have hfront : s.first m + totalSize m done + headerBytes m o + sizeofObjectNoHeader m o =
              s.first m + totalSize m done + Cell.size m (.forwarded o) := by
            rw [add_assoc]
            rfl
          simp only [hfront]
          exact hrun σ isObjptr f x
    · have hnil : scanned m back (s.first m + totalSize m done) (c :: rest) = [] := if_neg hlt
      rw [hnil]
      refine ⟨_, ⟨⟨done, ⟨c :: rest, hold.symm⟩, rfl⟩, le_rfl, by omega, ?_, ?_, nofun⟩,
        fun σ isObjptr f x => ?_⟩
      · intro p c _ hp hlt'
        omega
      · intro p c _ hp hlt'
        omega
      · rw [foreachObjptrInRange, if_neg hlt]
        rfl

/-- The object at `p` overlaps card `i`. -/
def Overlaps (m : Model) (s : GenState) (p : ℕ) (c : Cell) (i : ℕ) : Prop :=
  p < s.start + CARD_SIZE * (i + 1) ∧ s.start + CARD_SIZE * i < p + c.size m

/-- The fields of the objects that satisfy `P` are among `slots`. -/
def Visited (m : Model) (s : GenState) (P : ℕ → Cell → Prop) (slots : List ℕ) : Prop :=
  ∀ p c, s.objectAt m p = some c → P p c → ∀ slot ∈ c.slots m p, slot ∈ slots

/-- The state of the scan at card `cardIndex`: it stands at a boundary that is not after the card,
and the objects that begin before and reach into the card have been visited. -/
structure AtCard (m : Model) (s : GenState) (cardIndex objectStart : ℕ) (slots : List ℕ) :
    Prop where
  split : ∃ done rest, s.oldGen = done ++ rest ∧ objectStart = s.first m + totalSize m done
  before : objectStart < s.start + CARD_SIZE * (cardIndex + 1)
  visited : Visited m s (fun p c => p < objectStart ∧ s.start + CARD_SIZE * cardIndex < p + c.size m)
    slots

theorem IsBoundary.split (h : IsBoundary m front cells b) :
    ∃ done rest, cells = done ++ rest ∧ b = front + totalSize m done := by
  obtain ⟨done, ⟨rest, hrest⟩, hb⟩ := h
  exact ⟨done, rest, hrest.symm, hb⟩

theorem visited_zero (m : Model) (s : GenState) (cardMap : ℕ → UInt8) :
    Visited m s (fun p c => ∃ i < 0, cardMap i ≠ 0 ∧ Overlaps m s p c i) [] :=
  fun _ _ _ ⟨i, hi, _⟩ => absurd hi (not_lt_zero i)

theorem Visited.append {P : ℕ → Cell → Prop} {slots : List ℕ}
    (h : Visited m s P slots) (more : List ℕ) : Visited m s P (slots ++ more) :=
  fun p c hp hP slot hslot => mem_append_left _ (h p c hp hP slot hslot)

theorem end_le_oldGenEnd (hstart : CARD_SIZE ∣ s.start) {p : ℕ}
    (hp : s.objectAt m p = some c) : p + c.size m ≤ s.oldGenEnd m := by
  obtain ⟨done, rest, hold, -⟩ := objectAt_eq_some hp
  have hend := isBoundary_end m (s.first m) s.oldGen
  rw [← oldGenEnd_eq hstart (by simp [hold])] at hend
  refine end_le_boundary hp hend ?_
  obtain ⟨done, rest, hold, rfl⟩ := objectAt_eq_some hp
  exact (lt_oldGenEnd_iff hstart hold).2 (by simp)

/-- `crossMap` leads from an unmarked card to the next one. -/
theorem AtCard.next (hok : MapOk m s) {cardIndex objectStart : ℕ}
    {slots : List ℕ} (h : AtCard m s cardIndex objectStart slots)
    (hmap : MapAt m s.start (s.first m) s.oldGen s.crossMap cardIndex) : AtCard m s (cardIndex + 1)
      (if s.crossMap cardIndex = CROSS_MAP_EMPTY then objectStart
        else s.start + CARD_SIZE * cardIndex +
          (s.crossMap cardIndex).toNat * CROSS_MAP_OFFSET_SCALE) slots := by
  have hcard : CARD_SIZE = 256 := rfl
  have hbefore := h.before
  -- every boundary that is not after the next card will do
  have hat {b : ℕ} (hb : IsBoundary m (s.first m) s.oldGen b)
      (hle : b ≤ s.start + CARD_SIZE * (cardIndex + 1)) : AtCard m s (cardIndex + 1) b slots := by
    refine ⟨hb.split, by rw [hcard] at hle ⊢; omega, fun p c hp hP slot _ => ?_⟩
    have := end_le_boundary hp hb hP.1
    have := hP.2
    omega
  split_ifs with hempty
  · obtain ⟨done, rest, hold, hfront⟩ := h.split
    exact hat ⟨done, ⟨rest, hold.symm⟩, hfront⟩ (by omega)
  · rcases hmap with ⟨hmap, -⟩ | ⟨b, hb, hbcard, -, hmap⟩
    · exact absurd hmap hempty
    · have hge : s.start ≤ b := (le_first hok.aligned).trans hb.ge
      have hoff := (offsetOf_spec hge (dvd_boundary hok.aligned hok.wellFormed hb)).2
      rw [hbcard, ← hmap] at hoff
      rw [hoff]
      refine hat hb ?_
      unfold cardOf at hbcard
      rw [hcard] at hbcard ⊢
      omega

theorem checkCards_eq (hok : MapOk m s)
    (hmap : ∀ i, i ≠ cardOf s.start (s.first m + totalSize m s.oldGen) →
      MapAt m s.start (s.first m) s.oldGen s.crossMap i) (cardMap : ℕ → UInt8) {maxCardIndex : ℕ}
    (hmax : ∀ i, i < maxCardIndex ↔ s.start + CARD_SIZE * i < s.oldGenEnd m)
    {fuel : ℕ} (checkAll : Bool) {cardIndex objectStart : ℕ} {slots : List ℕ}
    (hle : cardIndex ≤ maxCardIndex) (hflag : cardIndex < maxCardIndex ∨ checkAll = true)
    (hfuel : maxCardIndex - cardIndex < fuel)
    (hat : cardIndex < maxCardIndex → AtCard m s cardIndex objectStart slots)
    (hseen : Visited m s (fun p c => ∃ i < cardIndex, cardMap i ≠ 0 ∧ Overlaps m s p c i) slots) :
    ∃ more, Visited m s (fun p c => ∃ i, cardMap i ≠ 0 ∧ Overlaps m s p c i) (slots ++ more) ∧
      (∀ slot ∈ more, ∃ p c, s.objectAt m p = some c ∧ slot ∈ c.slots m p) ∧
      ∀ (σ : Type u) (isObjptr : σ → ℕ → Bool) (f : σ → ℕ → σ) (x : σ),
        checkCards m s cardMap isObjptr f maxCardIndex fuel checkAll cardIndex
          (s.start + CARD_SIZE * cardIndex) objectStart x =
          some (more.foldl (callIfIsObjptr isObjptr f) x) := by
  have hcard : CARD_SIZE = 256 := rfl
  induction fuel generalizing checkAll cardIndex objectStart slots with
  | zero => omega
  | succ fuel ih =>
    rcases hle.eq_or_lt with rfl | hlt
    · -- all cards have been checked
      have hall : checkAll = true := hflag.resolve_left (lt_irrefl _)
      refine ⟨[], fun p c hp ⟨i, hi, hover⟩ => ?_, nofun, fun σ isObjptr f x => ?_⟩
      · have hend := end_le_oldGenEnd hok.aligned hp
        have hilt : i < cardIndex := (hmax i).2 (hover.2.trans_le hend)
        rw [append_nil]
        exact hseen p c hp ⟨i, hilt, hi, hover⟩
      · rw [checkCards, if_pos ⟨hall, rfl⟩]
        rfl
    · have hcur := hat hlt
      have hnotEnd : ¬ (checkAll = true ∧ cardIndex = maxCardIndex) := by
        rintro ⟨-, rfl⟩
        exact lt_irrefl _ hlt
      by_cases hmark : cardMap cardIndex ≠ 0
      · obtain ⟨done, rest, hold, hfront⟩ := hcur.split
        have hbefore := hcur.before
        have hcs := (hmax cardIndex).1 hlt
        -- the scan of the card
        obtain ⟨cardEnd, hcardEnd⟩ : ∃ e, (if s.oldGenEnd m < s.start + CARD_SIZE * cardIndex +
          CARD_SIZE then s.oldGenEnd m else s.start + CARD_SIZE * cardIndex + CARD_SIZE) = e :=
          ⟨_, rfl⟩
        have hback : cardEnd ≤ s.oldGenEnd m := by
          rw [← hcardEnd]
          split_ifs <;> omega
        have hlen : rest.length < s.oldGen.length + 1 := by
          rw [hold, length_append]
          omega
        obtain ⟨b, hscan, hforeach⟩ := foreachObjptrInRange_eq hok hback hold hlen
        rw [← hfront] at hscan hforeach
        -- what is visited after it
        have hvisit {p : ℕ} {c : Cell} (hp : s.objectAt m p = some c) (hb : p < b)
            (hpast : s.start + CARD_SIZE * cardIndex < p + c.size m) :
            ∀ slot ∈ c.slots m p, slot ∈ slots ++ scanned m cardEnd objectStart rest := by
          by_cases hlow : p < objectStart
          · exact hcur.visited.append _ p c hp ⟨hlow, hpast⟩
          · exact fun slot hslot =>
              mem_append_right _ (hscan.visits p c hp (by omega) hb slot hslot)
        by_cases hdone : b = s.oldGenEnd m
        · refine ⟨scanned m cardEnd objectStart rest, fun p c hp ⟨i, hi, hover⟩ => ?_, hscan.only,
            fun σ isObjptr f x => ?_⟩
          · have hend := end_le_oldGenEnd hok.aligned hp
            have hpos := c.size_pos m
            by_cases hold' : i < cardIndex
            · exact hseen.append _ p c hp ⟨i, hold', hi, hover⟩
            · refine hvisit hp (by omega) (lt_of_le_of_lt ?_ hover.2)
              have := mul_le_mul_left CARD_SIZE (show cardIndex ≤ i by omega)
              omega
          · rw [checkCards, if_neg hnotEnd, if_pos hmark]
            dsimp only
            rw [hcardEnd, hforeach σ isObjptr f x, bind_some, if_pos hdone]
        · have hblt : b < s.oldGenEnd m := by
            obtain ⟨done', rest', hold', rfl⟩ := hscan.boundary.split
            refine (lt_oldGenEnd_iff hok.aligned hold').2 fun hnil => hdone ?_
            have hne : s.oldGen ≠ [] := by
              intro hnil'
              simp [GenState.oldGenEnd, GenState.oldGenSize, hnil'] at hcs
            rw [oldGenEnd_eq hok.aligned hne, hold', hnil, append_nil]
          have hge := hscan.back_le
          have hcardEnd' : s.start + CARD_SIZE * (cardIndex + 1) ≤ b := by
            rw [mul_succ]
            split_ifs at hcardEnd <;> omega
          obtain ⟨next, hnext⟩ : ∃ i, sizeToCardMapIndex (b - s.start) = i := ⟨_, rfl⟩
          have hnextcard : s.start + CARD_SIZE * next ≤ b ∧
              b < s.start + CARD_SIZE * (next + 1) ∧ cardIndex < next := by
            rw [sizeToCardMapIndex_eq] at hnext
            rw [hcard] at hnext hcardEnd' ⊢
            omega
          have hnextlt : next < maxCardIndex := (hmax next).2 (by omega)
          have hat' : AtCard m s next b (slots ++ scanned m cardEnd objectStart rest) := by
            refine ⟨hscan.boundary.split, hnextcard.2.1, fun p c hp hP => ?_⟩
            refine hvisit hp hP.1 (lt_of_le_of_lt ?_ hP.2)
            have := mul_le_mul_left CARD_SIZE hnextcard.2.2.le
            omega
          have hseen' : Visited m s (fun p c => ∃ i < next, cardMap i ≠ 0 ∧ Overlaps m s p c i)
              (slots ++ scanned m cardEnd objectStart rest) := by
            rintro p c hp ⟨i, hi, hmarked, hover⟩
            by_cases hold' : i < cardIndex
            · exact hseen.append _ p c hp ⟨i, hold', hmarked, hover⟩
            · have hib := mul_le_mul_left CARD_SIZE (show i + 1 ≤ next by omega)
              have hci := mul_le_mul_left CARD_SIZE (show cardIndex ≤ i by omega)
              exact hvisit hp (by have := hover.1; omega) (lt_of_le_of_lt (by omega) hover.2)
          obtain ⟨more, hvisited, honly, hrun⟩ := ih false hnextlt.le (.inl hnextlt)
            (by omega) (fun _ => hat') hseen'
          refine ⟨scanned m cardEnd objectStart rest ++ more, ?_, fun slot hslot => ?_,
            fun σ isObjptr f x => ?_⟩
          · rw [← append_assoc]
            exact hvisited
          · rcases mem_append.1 hslot with hslot | hslot
            · exact hscan.only slot hslot
            · exact honly slot hslot
          · rw [checkCards, if_neg hnotEnd, if_pos hmark]
            dsimp only
            rw [hcardEnd, hforeach σ isObjptr f x, bind_some, if_neg hdone, hnext,
              cardMapIndexToSize_eq, hrun σ isObjptr f _, foldl_append]
      · -- the card is not marked
        have hnext : cardIndex + 1 < maxCardIndex →
            AtCard m s (cardIndex + 1)
              (if s.crossMap cardIndex = CROSS_MAP_EMPTY then objectStart
                else s.start + CARD_SIZE * cardIndex +
                  (s.crossMap cardIndex).toNat * CROSS_MAP_OFFSET_SCALE) slots := by
          intro hlt'
          refine hcur.next hok (hmap cardIndex ?_)
          have hend := (hmax _).1 hlt'
          have hne : s.oldGen ≠ [] := by
            intro hnil
            simp [GenState.oldGenEnd, GenState.oldGenSize, hnil] at hend
          rw [← oldGenEnd_eq hok.aligned hne]
          unfold cardOf
          rw [hcard] at hend ⊢
          omega
        obtain ⟨more, hvisited, honly, hrun⟩ := ih true (by omega) (.inr rfl)
          (by omega) hnext fun p c hp ⟨i, hi, hmarked, hover⟩ => by
            have hne : i ≠ cardIndex := by
              rintro rfl
              exact hmark hmarked
            exact hseen p c hp ⟨i, by omega, hmarked, hover⟩
        refine ⟨more, hvisited, honly, fun σ isObjptr f x => ?_⟩
        rw [checkCards, if_neg hnotEnd, if_neg hmark, ← hrun σ isObjptr f x, mul_succ,
          ← add_assoc]

theorem lt_maxCardIndex_iff (m : Model) (s : GenState) (i : ℕ) :
    i < sizeToCardMapIndex (align (s.oldGenSize m) CARD_SIZE) ↔
      s.start + CARD_SIZE * i < s.oldGenEnd m := by
  have hcard : CARD_SIZE = 256 := rfl
  rw [sizeToCardMapIndex_eq, GenState.oldGenEnd, align, hcard]
  omega

/-- However the old generation has grown and the cards are marked: `updateCrossMap` returns, after
it `isCrossMapOk` is true, and `forwardInterGenerationalObjptrs` returns and calls `f` on the
pointer fields of old objects, among them those of every object that overlaps a marked card. -/
theorem rememberedSet_complete {m : Model} {s : GenState} (h : Grown m s) :
    (∃ s', updateCrossMap m s = some s' ∧ isCrossMapOk m s' = some true) ∧
    ∀ cardMap : ℕ → UInt8, ∃ (s' : GenState) (slots : List ℕ),
      (∀ p o, s.objectAt m p = some (.object o) →
        (∃ i, cardMap i ≠ 0 ∧ Overlaps m s p (.object o) i) →
        ∀ slot ∈ objptrSlots m false (p + headerBytes m o) o, slot ∈ slots) ∧
      (∀ slot ∈ slots, ∃ p o, s.objectAt m p = some (.object o) ∧
        slot ∈ objptrSlots m false (p + headerBytes m o) o) ∧
      ∀ (σ : Type u) (isObjptr : σ → ℕ → Bool) (f : σ → ℕ → σ) (x : σ),
        forwardInterGenerationalObjptrs m s cardMap isObjptr f x =
          some (s', slots.foldl (callIfIsObjptr isObjptr f) x) := by
  have hok := h.mapOk
  obtain ⟨crossMap, hupdate, hmap⟩ := updateCrossMap_mapOk hok
  refine ⟨⟨_, hupdate, isCrossMapOk_eq hok.aligned hmap⟩, fun cardMap => ?_⟩
  have hok' := (h.updateCrossMap hupdate).mapOk
  have hfirst : AtCard m { s with crossMap := crossMap, crossMapValidSize := s.oldGenSize m } 0
      (alignFrontier m s.start) [] := by
    have hcard : CARD_SIZE = 256 := rfl
    refine ⟨⟨[], s.oldGen, rfl, rfl⟩, ?_, fun p c hp hP => ?_⟩
    · show alignFrontier m s.start < s.start + CARD_SIZE * (0 + 1)
      rw [hcard]
      rcases alignFrontier_eq m hok.aligned with he | he <;> omega
    · have := (isBoundary_of_objectAt hp).ge
      exact absurd hP.1 (Nat.not_lt.2 this)
  obtain ⟨slots, hvisited, honly, hrun⟩ := checkCards_eq.{u} hok' hmap cardMap
    (lt_maxCardIndex_iff m _) true (Nat.zero_le _) (.inr rfl) (Nat.lt_succ_self _) (fun _ => hfirst)
    (visited_zero m _ cardMap)
  refine ⟨{ s with crossMap := crossMap, crossMapValidSize := s.oldGenSize m }, slots, ?_, ?_, ?_⟩
  · intro p o hp hover slot hslot
    exact hvisited p (.object o) hp hover slot hslot
  · intro slot hslot
    obtain ⟨p, c, hp, hslot'⟩ := honly slot hslot
    cases c with
    | object o => exact ⟨p, o, hp, hslot'⟩
    | forwarded o => cases hslot'
  · intro σ isObjptr f x
    unfold forwardInterGenerationalObjptrs
    rw [hupdate, Option.bind_some]
    exact congrArg (Option.map _) (hrun σ isObjptr f x)

/-- The 64-bit model with 8-byte alignment. -/
def native64 : Model := ⟨8, 8, Model.eight_eq, Model.eight_eq⟩

/-- An array of a hundred pointers over three cards and the husk of a lifted pair. -/
theorem rememberedSet_complete_array : ∃ s',
    updateCrossMap native64 ⟨4096, [.object (.array 100 0 1), .forwarded (.normal 0 2)],
      fun _ => CROSS_MAP_EMPTY, 0⟩ = some s' ∧ isCrossMapOk native64 s' = some true :=
  (rememberedSet_complete.{0} (.grow (.clearCrossMap 4096 (by decide))
    [.object (.array 100 0 1), .forwarded (.normal 0 2)] (by decide)
    (by
      intro c hc
      simp only [List.mem_cons, List.not_mem_nil, or_false] at hc
      rcases hc with rfl | rfl
      · exact ⟨by decide, nofun⟩
      · exact ⟨by decide, nofun⟩))).1

end MultiMLton.GC
