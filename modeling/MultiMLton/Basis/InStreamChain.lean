import MultiMLton.Basis.InStream
import Mathlib.Data.List.GetD

/-!
# The chain of buffers

While no buffers are merged, the references of a stream make one chain, with a buffer for each
vector that has been read, and `tail` is its end. What a function returns on one chain it returns on
every other one, whatever has been read and with whatever more fuel: `Agree`.
-/

namespace MultiMLton.Basis.InStream

open List Nat

variable {α : Type}

/-! ### Vectors and items -/

/-- The vectors of the buffers: what the stream was made with, and what the reader reads. -/
def vectors (rd : Reader α) : Option (List α) → ℕ → List α
  | none, 0 => []
  | none, k + 1 => rd.chunk k
  | some v, 0 => v
  | some v, k + 1 => if v.length = 0 then (if k = 0 then [] else rd.chunk (k - 1)) else rd.chunk k

/-- The number of buffers that a stream is made with. -/
def made : Option (List α) → ℕ
  | none => 1
  | some v => if v.length = 0 then 2 else 1

section Items

variable (d : ℕ → List α)

def bufAt (k : ℕ) : Buf α := ⟨d k, k⟩

/-- The cell that leads to the buffer `k`. -/
def cellAt (k : ℕ) : Cell α := if (d k).length = 0 then .eos (bufAt d k) else .link (bufAt d k)

/-- The items of a buffer: elements, or one end of stream; none where there was nothing at first. -/
def items (k : ℕ) : List (Option α) :=
  if (d k).length = 0 ∧ 0 < k then [none] else (d k).map some

/-- The items of the buffers up to `k`. -/
def upTo (k : ℕ) : List (Option α) := (List.range (k + 1)).flatMap (items d)

/-- The items before an instream. -/
def before (is : Instream α) : List (Option α) :=
  (List.range is.buf.next).flatMap (items d) ++
    if is.buf.inp.length = 0 then items d is.buf.next else (is.buf.inp.take is.pos).map some

/-- The instream is in one of the buffers up to `n`. -/
structure Valid (is : Instream α) (n : ℕ) : Prop where
  buf : is.buf = bufAt d is.buf.next
  pos : is.pos ≤ is.buf.inp.length
  next : is.buf.next ≤ n

variable {d} {is : Instream α} {k n : ℕ}

theorem Valid.mono (h : Valid d is k) (hle : k ≤ n) : Valid d is n :=
  ⟨h.buf, h.pos, h.next.trans hle⟩

theorem valid_end (hle : k ≤ n) : Valid d (updateBufEnd (bufAt d k)) n := ⟨rfl, le_rfl, hle⟩

theorem valid_beg (hle : k ≤ n) : Valid d (updateBufBeg (bufAt d k)) n := ⟨rfl, zero_le _, hle⟩

theorem upTo_succ (k : ℕ) : upTo d (k + 1) = upTo d k ++ items d (k + 1) := by
  rw [upTo, range_succ, flatMap_append, flatMap_singleton]
  rfl

/-- At the end of a buffer. -/
theorem before_of_end (h : Valid d is n) (hend : ¬is.pos < is.buf.inp.length) :
    before d is = upTo d is.buf.next := by
  have hpos : is.pos = is.buf.inp.length := le_antisymm h.pos (not_lt.1 hend)
  have hinp : is.buf.inp = d is.buf.next := by rw [h.buf]; rfl
  rw [before, upTo, range_succ, flatMap_append, flatMap_singleton]
  split_ifs with hnil
  · rfl
  · rw [hpos, take_length, items, ← hinp, if_neg fun h => hnil h.1]

theorem before_end (k : ℕ) : before d (updateBufEnd (bufAt d k)) = upTo d k :=
  before_of_end (valid_end le_rfl) (lt_irrefl _)

/-- At the beginning of a buffer with elements. -/
theorem before_link (h : (d (k + 1)).length ≠ 0) {i : ℕ} :
    before d ⟨i, bufAt d (k + 1)⟩ = upTo d k ++ ((d (k + 1)).take i).map some := by
  show upTo d k ++ (if (d (k + 1)).length = 0 then items d (k + 1) else _) = _
  rw [if_neg h]
  rfl

/-- Behind an end of stream. -/
theorem before_eos (h : (d (k + 1)).length = 0) :
    before d (updateBufBeg (bufAt d (k + 1))) = upTo d k ++ [none] := by
  rw [before]
  show upTo d k ++ (if (d (k + 1)).length = 0 then items d (k + 1) else _) = _
  rw [if_pos h, items, if_pos ⟨h, succ_pos k⟩]

theorem items_link (h : (d (k + 1)).length ≠ 0) : items d (k + 1) = (d (k + 1)).map some :=
  if_neg fun h' => h h'.1

/-- Further on in the same buffer. -/
theorem before_updatePos {i : ℕ} (hlt : is.pos < is.buf.inp.length) :
    before d (is.updatePos (is.pos + i)) =
      before d is ++ ((is.buf.inp.drop is.pos).take i).map some := by
  have hnil : ¬is.buf.inp.length = 0 := by omega
  have htake : is.buf.inp.take (is.pos + i) =
      is.buf.inp.take is.pos ++ (is.buf.inp.drop is.pos).take i := take_add
  show _ ++ (if is.buf.inp.length = 0 then _ else (is.buf.inp.take (is.pos + i)).map some) = _
  rw [before, if_neg hnil, if_neg hnil, htake, map_append, append_assoc]
  rfl

/-- What is left of a buffer. -/
theorem before_drop (h : Valid d is n) :
    before d is ++ (is.buf.inp.drop is.pos).map some = upTo d is.buf.next := by
  by_cases hpos : is.pos < is.buf.inp.length
  · have hmove := before_updatePos (d := d) (i := is.buf.inp.length - is.pos) hpos
    rw [Nat.add_sub_cancel' hpos.le, List.take_of_length_le (by rw [List.length_drop])] at hmove
    rw [← hmove]
    exact before_of_end
      (show Valid d (is.updatePos is.buf.inp.length) n from ⟨h.buf, le_rfl, h.next⟩)
      (lt_irrefl _)
  · rw [before_of_end h hpos, drop_of_length_le (not_lt.1 hpos), map_nil, append_nil]

end Items

/-! ### Chains -/

section Chains

variable (rd : Reader α) (contents : Option (List α))

/-- The references make one chain up to the buffer `n`. -/
structure Chain (h : Heap α) (n : ℕ) : Prop where
  length : h.cells.length = n + 1
  tail : h.tail = n
  cell : ∀ k < n, h.get k = cellAt (vectors rd contents) (k + 1)
  last : h.get n = .end'
  reads : h.reads + made contents = n + 1

variable {rd contents} {h : Heap α} {n : ℕ}

theorem vectors_made (rd : Reader α) (contents : Option (List α)) (k : ℕ) :
    vectors rd contents (k + made contents) = rd.chunk k := by
  cases contents with
  | none => rfl
  | some v =>
    by_cases hv : v.length = 0
    · simp [made, vectors, hv]
    · simp [made, vectors, hv]

variable (rd contents) in
theorem chain_mk : Chain rd contents (mkInstream' contents).2 (made contents - 1) ∧
    Valid (vectors rd contents) (mkInstream' contents).1 (made contents - 1) := by
  cases contents with
  | none =>
    exact ⟨⟨rfl, rfl, fun k hk => absurd hk (not_lt_zero k), rfl, rfl⟩, ⟨rfl, le_rfl, le_rfl⟩⟩
  | some v =>
    by_cases hv : v.length = 0
    · obtain rfl := length_eq_zero_iff.1 hv
      refine ⟨⟨rfl, rfl, fun k hk => ?_, rfl, rfl⟩, ⟨rfl, le_rfl, zero_le _⟩⟩
      obtain rfl : k = 0 := by simpa [made] using hk
      rfl
    · have hmade : made (some v) = 1 := if_neg hv
      simp only [mkInstream', if_neg hv, hmade]
      exact ⟨⟨rfl, rfl, fun k hk => absurd hk (not_lt_zero k), rfl, by rw [hmade]⟩,
        ⟨rfl, zero_le _, le_rfl⟩⟩

/-- What is read is one more buffer. -/
theorem link_chain (hc : Chain rd contents h n) :
    (link rd h).1 = cellAt (vectors rd contents) (n + 1) ∧
      Chain rd contents (link rd h).2 (n + 1) := by
  have hchunk : rd.chunk h.reads = vectors rd contents (n + 1) := by
    rw [← hc.reads, vectors_made]
  have hbuf :
      (⟨rd.chunk h.reads, h.cells.length⟩ : Buf α) = bufAt (vectors rd contents) (n + 1) := by
    rw [hchunk, hc.length]
    rfl
  have hthis : (link rd h).1 = cellAt (vectors rd contents) (n + 1) := by
    rw [link, cellAt, ← hchunk]
    dsimp only
    rw [hbuf]
  have hget (k : ℕ) : (link rd h).2.get k =
      (h.cells.set n (link rd h).1 ++ [Cell.end']).getD k .closed := by
    rw [← hc.tail]
    rfl
  have hlen : (h.cells.set n (link rd h).1).length = n + 1 := by rw [length_set, hc.length]
  refine ⟨hthis, ⟨?_, hc.length, fun k hk => ?_, ?_, ?_⟩⟩
  · simp [link, hc.length]
  · rw [hget, getD_append _ _ _ _ (by omega)]
    by_cases hkn : k = n
    · subst hkn
      rw [List.getD_eq_getElem _ _ (by omega), getElem_set_self, hthis]
    · rw [← hc.cell k (by omega), List.getD_eq_getElem _ _ (by omega),
        List.getElem_set_ne (Ne.symm hkn), Heap.get, List.getD_eq_getElem]
  · rw [hget, List.getD_append_right _ _ _ _ (by omega), hlen, Nat.sub_self]
    rfl
  · have := hc.reads
    show h.reads + 1 + _ = _
    omega

/-- `!next`, or what is read at the end: the next buffer. -/
theorem force_chain (hblocking : rd.blocking = true) (hc : Chain rd contents h n) {k : ℕ}
    (hk : k ≤ n) (function : String) :
    ∃ h' n', force rd function k h = (.ok (cellAt (vectors rd contents) (k + 1)), h') ∧
      Chain rd contents h' n' ∧ n ≤ n' ∧ k + 1 ≤ n' := by
  rcases lt_or_eq_of_le hk with hlt | rfl
  · refine ⟨h, n, ?_, hc, le_rfl, hlt⟩
    have hne : cellAt (vectors rd contents) (k + 1) ≠ .end' := by
      unfold cellAt
      split_ifs <;> simp
    unfold force
    rw [hc.cell k hlt]
    split
    · exact absurd ‹_› hne
    · rfl
  · obtain ⟨hthis, hchain⟩ := link_chain hc
    refine ⟨_, k + 1, ?_, hchain, le_succ k, le_rfl⟩
    have hend : h.get h.tail = .end' := by rw [hc.tail, hc.last]
    simp only [force, hc.last, extendB, extend, hend, hblocking, if_true, hthis]

variable (rd contents) in
/-- A call returns `r` and leaves a chain that is no shorter. -/
def Ends {ρ : Type} (x : Option (Result α ρ)) (r : ρ) (n : ℕ) (rest : Option (Instream α)) : Prop :=
  ∃ h n', x = some (.ok r, h) ∧ Chain rd contents h n' ∧ n ≤ n' ∧
    ∀ is ∈ rest, Valid (vectors rd contents) is n'

variable (rd contents) in
/-- A call that returns on a chain with `n` buffers returns the same on one with `n₂`. -/
def Agree {ρ : Type} (x x₂ : Option (Result α ρ)) (n n₂ : ℕ) (rest : ρ → Option (Instream α))
    (P : ρ → Prop) : Prop :=
  x = none ∨ ∃ r, P r ∧ Ends rd contents x r n (rest r) ∧ Ends rd contents x₂ r n₂ (rest r)

theorem Agree.mono {ρ : Type} {x x₂ : Option (Result α ρ)} {n n₂ m m₂ : ℕ}
    {rest : ρ → Option (Instream α)} {P Q : ρ → Prop} (h : Agree rd contents x x₂ n n₂ rest P)
    (hn : m ≤ n) (hn₂ : m₂ ≤ n₂) (hPQ : ∀ r, P r → Q r) : Agree rd contents x x₂ m m₂ rest Q := by
  rcases h with h | ⟨r, hr, ⟨h, n', hx, hc, hle, hrest⟩, ⟨h₂, n₂', hx₂, hc₂, hle₂, hrest₂⟩⟩
  · exact .inl h
  · exact .inr ⟨r, hPQ r hr, ⟨h, n', hx, hc, hn.trans hle, hrest⟩,
      ⟨h₂, n₂', hx₂, hc₂, hn₂.trans hle₂, hrest₂⟩⟩

/-- Both calls return. -/
theorem Agree.done {ρ : Type} {r : ρ} {h h₂ : Heap α} {n n₂ m m₂ : ℕ} {rest : Option (Instream α)}
    {rests : ρ → Option (Instream α)} {P : ρ → Prop} (hr : P r) (hrest : rests r = rest)
    (hc : Chain rd contents h m) (hc₂ : Chain rd contents h₂ m₂) (hle : n ≤ m) (hle₂ : n₂ ≤ m₂)
    (hvalid : ∀ is ∈ rest, ∀ m', is.buf.next ≤ m' → Valid (vectors rd contents) is m')
    (hnext : ∀ is ∈ rest, is.buf.next ≤ m ∧ is.buf.next ≤ m₂) :
    Agree rd contents (some (.ok r, h)) (some (.ok r, h₂)) n n₂ rests P :=
  .inr ⟨r, hr,
    ⟨h, m, rfl, hc, hle, fun is his => hvalid is (hrest ▸ his) m (hnext is (hrest ▸ his)).1⟩,
    ⟨h₂, m₂, rfl, hc₂, hle₂, fun is his => hvalid is (hrest ▸ his) m₂ (hnext is (hrest ▸ his)).2⟩⟩

/-- Both calls return a place in the buffer `k`. -/
theorem Agree.place {ρ : Type} {r : ρ} {h h₂ : Heap α} {n n₂ m m₂ k i : ℕ}
    {rests : ρ → Option (Instream α)} {P : ρ → Prop} (hr : P r)
    (hrest : rests r = some ⟨i, bufAt (vectors rd contents) k⟩)
    (hc : Chain rd contents h m) (hc₂ : Chain rd contents h₂ m₂) (hle : n ≤ m) (hle₂ : n₂ ≤ m₂)
    (hi : i ≤ (vectors rd contents k).length) (hk : k ≤ m) (hk₂ : k ≤ m₂) :
    Agree rd contents (some (.ok r, h)) (some (.ok r, h₂)) n n₂ rests P := by
  refine .done hr hrest hc hc₂ hle hle₂ ?_ ?_
  · rintro _ ⟨⟩ m' hm'
    exact ⟨rfl, hi, hm'⟩
  · rintro _ ⟨⟩
    exact ⟨hk, hk₂⟩

/-- The end of stream that a function passes. -/
def mark (p : Prop) [Decidable p] : List (Option α) := if p then [none] else []

end Chains

/-! ### Functions on chains -/

section Functions

variable {rd : Reader α} (hblocking : rd.blocking = true) {contents : Option (List α)}
  {h h₂ : Heap α} {n n₂ : ℕ} (hc : Chain rd contents h n) (hc₂ : Chain rd contents h₂ n₂)
  {fuel fuel₂ : ℕ} (hfuel : fuel ≤ fuel₂)

include hblocking hc hc₂ hfuel

/-- `loop` of `inputN` reads up to `m` elements, or up to an end of stream. -/
theorem inputNLoop_agree {k m : ℕ} (hk : k ≤ n) (hk₂ : k ≤ n₂) (hm : 0 < m) (inps : List (List α)) :
    Agree rd contents
      (inputNLoop rd fuel (bufAt (vectors rd contents) k) inps m h)
      (inputNLoop rd fuel₂ (bufAt (vectors rd contents) k) inps m h₂) n n₂ (fun r => some r.2)
      fun r => ∃ es, r.1 = inps.reverse.flatten ++ es ∧ before (vectors rd contents) r.2 =
        upTo (vectors rd contents) k ++ es.map some ++ mark (es.length < m) := by
  induction fuel generalizing fuel₂ k m inps h h₂ n n₂ with
  | zero => exact .inl rfl
  | succ fuel ih =>
    obtain ⟨fuel₂, rfl⟩ := Nat.exists_eq_add_of_le' (Nat.le_trans (Nat.le_add_left 1 fuel) hfuel)
    obtain ⟨h', n', hforce, hc', hle, hk'⟩ := force_chain hblocking hc hk "inputN"
    obtain ⟨h₂', n₂', hforce₂, hc₂', hle₂, hk₂'⟩ := force_chain hblocking hc₂ hk₂ "inputN"
    simp only [inputNLoop, bufAt] at hforce hforce₂ ⊢
    rw [hforce, hforce₂]
    by_cases hnil : (vectors rd contents (k + 1)).length = 0
    · simp only [cellAt, if_pos hnil, if_pos hm]
      refine .place ⟨[], ?_, ?_⟩ rfl hc' hc₂' hle hle₂ (zero_le _) hk' hk₂'
      · simp [finish]
      · exact (before_eos hnil).trans (by simp [mark, hm])
    · simp only [cellAt, if_neg hnil]
      by_cases hmle : m ≤ (bufAt (vectors rd contents) (k + 1)).inp.length
      · rw [if_pos hmle, if_pos hmle]
        refine .place ⟨(vectors rd contents (k + 1)).take m, ?_, ?_⟩ rfl hc' hc₂' hle hle₂ hmle hk'
          hk₂'
        · simp [finish, bufAt]
        · have hlen : ((vectors rd contents (k + 1)).take m).length = m :=
            length_take_of_le hmle
          refine (before_link hnil).trans ?_
          simp [mark, hlen]
      · rw [if_neg hmle, if_neg hmle]
        refine (ih hc' hc₂' (le_of_succ_le_succ hfuel) hk' hk₂' (by omega) _).mono hle hle₂ ?_
        rintro r ⟨es, hes, hbefore⟩
        refine ⟨vectors rd contents (k + 1) ++ es, ?_, ?_⟩
        · rw [hes]
          simp [bufAt]
        · have hiff : es.length < m - (bufAt (vectors rd contents) (k + 1)).inp.length ↔
              (vectors rd contents (k + 1) ++ es).length < m := by
            rw [length_append]
            show es.length < m - (vectors rd contents (k + 1)).length ↔ _
            omega
          rw [hbefore, upTo_succ, items_link hnil]
          simp only [mark, hiff, map_append, append_assoc]

variable {is : Instream α} (his : Valid (vectors rd contents) is n)
  (his₂ : Valid (vectors rd contents) is n₂)

include his his₂

omit hfuel in
theorem input_agree :
    Agree rd contents (input rd is h) (input rd is h₂) n n₂ (fun r => some r.2) fun r =>
      before (vectors rd contents) r.2 =
        before (vectors rd contents) is ++ r.1.map some ++ mark (r.1.length = 0) := by
  unfold input
  by_cases hpos : is.pos < is.buf.inp.length
  · rw [if_pos hpos, if_pos hpos]
    have hbefore : before (vectors rd contents) (updateBufEnd is.buf) =
        before (vectors rd contents) is ++ (is.buf.inp.drop is.pos).map some ++
          mark ((is.buf.inp.drop is.pos).length = 0) := by
      have hdrop : (is.buf.inp.drop is.pos).length ≠ 0 := by
        rw [List.length_drop]
        omega
      rw [mark, if_neg hdrop, append_nil, before_drop his]
      exact before_of_end (show Valid _ (updateBufEnd is.buf) n from ⟨his.buf, le_rfl, his.next⟩)
        (lt_irrefl _)
    have hrest : updateBufEnd is.buf =
        ⟨is.buf.inp.length, bufAt (vectors rd contents) is.buf.next⟩ := by
      rw [← his.buf]
      rfl
    refine .place hbefore (congrArg some hrest) hc hc₂ le_rfl le_rfl ?_ his.next his₂.next
    rw [his.buf]
    exact le_rfl
  · rw [if_neg hpos, if_neg hpos, before_of_end his hpos]
    obtain ⟨h', n', hforce, hc', hle, hk⟩ := force_chain hblocking hc his.next "input"
    obtain ⟨h₂', n₂', hforce₂, hc₂', hle₂, hk₂⟩ := force_chain hblocking hc₂ his₂.next "input"
    rw [hforce, hforce₂]
    by_cases hnil : (vectors rd contents (is.buf.next + 1)).length = 0
    · simp only [cellAt, if_pos hnil]
      refine .place ?_ rfl hc' hc₂' hle hle₂ (zero_le _) hk hk₂
      exact (before_eos hnil).trans (by simp [mark])
    · simp only [cellAt, if_neg hnil]
      refine .place ?_ rfl hc' hc₂' hle hle₂ le_rfl hk hk₂
      have hmark : (mark ((vectors rd contents (is.buf.next + 1)).length = 0) : List (Option α)) =
          [] := if_neg hnil
      show before _ (updateBufEnd (bufAt _ _)) = _ ++ (vectors rd contents _).map some ++
        mark ((vectors rd contents (is.buf.next + 1)).length = 0)
      rw [before_end, upTo_succ, items_link hnil, hmark, append_nil]

omit hblocking hfuel in
/-- A place further on in the same buffer. -/
theorem Agree.updatePos {ρ : Type} {r : ρ} {i : ℕ} {rests : ρ → Option (Instream α)}
    {P : ρ → Prop} (hr : P r) (hrest : rests r = some (is.updatePos i))
    (hi : i ≤ is.buf.inp.length) :
    Agree rd contents (some (.ok r, h)) (some (.ok r, h₂)) n n₂ rests P := by
  have hplace : is.updatePos i = ⟨i, bufAt (vectors rd contents) is.buf.next⟩ := by
    rw [← his.buf]
    rfl
  refine .place hr (hrest.trans (congrArg some hplace)) hc hc₂ le_rfl le_rfl ?_ his.next his₂.next
  rw [his.buf] at hi
  exact hi

/-- `inputN` reads up to `m` elements, or up to an end of stream. -/
theorem inputN_agree {z : Sizes} {m : ℕ} (hlen : m ≤ z.maxLen) (hadd : is.pos + m ≤ z.maxInt) :
    Agree rd contents (inputN z rd fuel is m h) (inputN z rd fuel₂ is m h₂) n n₂
      (fun r => some r.2) fun r => before (vectors rd contents) r.2 =
        before (vectors rd contents) is ++ r.1.map some ++ mark (r.1.length < m) := by
  have hsize : ¬((m : ℤ) < 0 ∨ (m : ℤ) > z.maxLen) := by omega
  simp only [inputN, if_neg hsize, Int.toNat_natCast, Sizes.add, if_pos hadd]
  by_cases hin : is.pos + m ≤ is.buf.inp.length
  · rw [if_pos hin, if_pos hin]
    refine .updatePos hc hc₂ his his₂ ?_ rfl hin
    have htake : ((is.buf.inp.drop is.pos).take m).length = m := by
      rw [length_take, List.length_drop]
      omega
    have hmark : (mark (((is.buf.inp.drop is.pos).take m).length < m) : List (Option α)) = [] :=
      if_neg (by omega)
    rcases Nat.eq_zero_or_pos m with rfl | hm
    · simp [mark, Instream.updatePos]
    · show before _ (is.updatePos _) = _ ++ _ ++ mark (((is.buf.inp.drop is.pos).take m).length < m)
      rw [hmark, append_nil, before_updatePos (by omega)]
  · rw [if_neg hin, if_neg hin]
    have hpos := his.pos
    have hloop := inputNLoop_agree hblocking hc hc₂ hfuel his.next his₂.next
      (m := m - (is.buf.inp.length - is.pos)) (by omega) [is.buf.inp.drop is.pos]
    rw [← his.buf] at hloop
    refine hloop.mono le_rfl le_rfl ?_
    rintro r ⟨es, hes, hbefore⟩
    have hr : r.1 = is.buf.inp.drop is.pos ++ es := by simpa using hes
    have hiff : es.length < m - (is.buf.inp.length - is.pos) ↔ r.1.length < m := by
      rw [hr, length_append, List.length_drop]
      omega
    rw [hbefore, ← before_drop his]
    simp only [mark, hiff, hr, map_append, append_assoc]

theorem input1'_agree :
    Agree rd contents (input1' rd fuel is h) (input1' rd fuel₂ is h₂) n n₂ (fun r => some r.2)
      fun r => before (vectors rd contents) r.2 = before (vectors rd contents) is ++ [r.1] := by
  induction fuel generalizing fuel₂ is h h₂ n n₂ with
  | zero => exact .inl rfl
  | succ fuel ih =>
    obtain ⟨fuel₂, rfl⟩ := Nat.exists_eq_add_of_le' (Nat.le_trans (Nat.le_add_left 1 fuel) hfuel)
    simp only [input1']
    cases helem : is.buf.inp[is.pos]? with
    | some e =>
      obtain ⟨hlt, he⟩ := List.getElem?_eq_some_iff.1 helem
      refine .updatePos hc hc₂ his his₂ ?_ rfl hlt
      refine (before_updatePos hlt).trans ?_
      rw [take_one, head?_drop, helem]
      rfl
    | none =>
      have hpos : ¬is.pos < is.buf.inp.length := not_lt.2 (getElem?_eq_none_iff.1 helem)
      rw [before_of_end his hpos]
      obtain ⟨h', n', hforce, hc', hle, hk'⟩ := force_chain hblocking hc his.next "input1"
      obtain ⟨h₂', n₂', hforce₂, hc₂', hle₂, hk₂'⟩ := force_chain hblocking hc₂ his₂.next "input1"
      simp only [hforce, hforce₂]
      by_cases hnil : (vectors rd contents (is.buf.next + 1)).length = 0
      · simp only [cellAt, if_pos hnil]
        exact .place (before_eos hnil) rfl hc' hc₂' hle hle₂ (zero_le _) hk' hk₂'
      · simp only [cellAt, if_neg hnil]
        refine (ih hc' hc₂' (le_of_succ_le_succ hfuel) (valid_beg hk') (valid_beg hk₂')).mono
          hle hle₂ fun r hr => hr.trans ?_
        rw [updateBufBeg, before_link hnil, take_zero, map_nil, append_nil]

/-- `inputAll` reads up to an end of stream, and passes it. -/
theorem inputAllLoop_agree (ac : List (List α)) :
    Agree rd contents (inputAllLoop rd fuel is ac h) (inputAllLoop rd fuel₂ is ac h₂) n n₂
      (fun r => some r.2) fun r => ∃ es, r.1 = ac.reverse.flatten ++ es ∧
        before (vectors rd contents) r.2 =
          before (vectors rd contents) is ++ es.map some ++ [none] := by
  induction fuel generalizing fuel₂ is h h₂ n n₂ ac with
  | zero => exact .inl rfl
  | succ fuel ih =>
    obtain ⟨fuel₂, rfl⟩ := Nat.exists_eq_add_of_le' (Nat.le_trans (Nat.le_add_left 1 fuel) hfuel)
    rcases input_agree hblocking hc hc₂ his his₂ with
      hnone | ⟨⟨inp, is'⟩, hr, ⟨h', n', hx, hc', hle, hvalid⟩, ⟨h₂', n₂', hx₂, hc₂', hle₂, hvalid₂⟩⟩
    · exact .inl (by rw [inputAllLoop, hnone])
    · simp only [inputAllLoop, hx, hx₂]
      have his' := hvalid is' rfl
      have his₂' := hvalid₂ is' rfl
      by_cases hnil : inp.length = 0
      · rw [if_pos hnil, if_pos hnil]
        refine .inr ⟨_, ⟨[], by simp, ?_⟩, ⟨h', n', rfl, hc', hle, hvalid⟩,
          ⟨h₂', n₂', rfl, hc₂', hle₂, hvalid₂⟩⟩
        refine hr.trans ?_
        obtain rfl := length_eq_zero_iff.1 hnil
        simp [mark]
      · rw [if_neg hnil, if_neg hnil]
        refine (ih hc' hc₂' (le_of_succ_le_succ hfuel) his' his₂' (inp :: ac)).mono hle hle₂ ?_
        rintro r ⟨es, hes, hbefore⟩
        refine ⟨inp ++ es, by simpa using hes, ?_⟩
        have hmark : (mark (inp.length = 0) : List (Option α)) = [] := if_neg hnil
        dsimp only at hr
        rw [hbefore, hr, hmark]
        simp

omit hfuel in
theorem endOfStream_agree :
    Agree rd contents (endOfStream rd is h) (endOfStream rd is h₂) n n₂ (fun _ => none)
      fun _ => True := by
  rcases input_agree hblocking hc hc₂ his his₂ with
    hnone | ⟨⟨inp, is'⟩, -, ⟨h', n', hx, hc', hle, -⟩, ⟨h₂', n₂', hx₂, hc₂', hle₂, -⟩⟩
  · exact .inl (by rw [endOfStream, hnone])
  · simp only [endOfStream, hx, hx₂]
    exact .done trivial rfl hc' hc₂' hle hle₂ (fun _ h => by cases h) fun _ h => by cases h

end Functions

/-! ### Lines -/

theorem findLineLoop_bounds {isLine : α → Bool} {v : List α} {i j : ℕ}
    (h : findLineLoop isLine v i = some j) : i < j ∧ j ≤ i + v.length := by
  induction v generalizing i with
  | nil => cases h
  | cons c cs ih =>
    rw [findLineLoop] at h
    split_ifs at h
    · cases h
      rw [length_cons]
      omega
    · have := ih h
      rw [length_cons]
      omega

theorem findLine_bounds {isLine : α → Bool} {v : List α} {i j : ℕ} (hi : i ≤ v.length)
    (h : findLine isLine v i = some j) : i < j ∧ j ≤ v.length := by
  have := findLineLoop_bounds h
  rw [List.length_drop] at this
  omega

section Lines

variable {rd : Reader α} (hblocking : rd.blocking = true) {contents : Option (List α)}
  {h h₂ : Heap α} {n n₂ : ℕ} (hc : Chain rd contents h n) (hc₂ : Chain rd contents h₂ n₂)
  {fuel fuel₂ : ℕ} (hfuel : fuel ≤ fuel₂) (isLine : α → Bool) (lineElem : α)

include hblocking hc hc₂ hfuel

/-- `loop` of `inputLine` reads up to the end of a line, or up to an end of stream and then adds the
end of a line. -/
theorem lineLoop_agree {k : ℕ} (hk : k ≤ n) (hk₂ : k ≤ n₂) (inps : List (List α)) :
    Agree rd contents
      (lineLoop rd isLine lineElem fuel (bufAt (vectors rd contents) k) inps h)
      (lineLoop rd isLine lineElem fuel₂ (bufAt (vectors rd contents) k) inps h₂) n n₂
      (fun r => r.map Prod.snd) fun r => ∃ es is' tail,
        r = some (inps.reverse.flatten ++ es ++ tail, is') ∧
        (tail = [] ∨ tail = [lineElem] ∧ (vectors rd contents (is'.buf.next + 1)).length = 0) ∧
        before (vectors rd contents) is' = upTo (vectors rd contents) k ++ es.map some := by
  induction fuel generalizing fuel₂ k inps h h₂ n n₂ with
  | zero => exact .inl rfl
  | succ fuel ih =>
    obtain ⟨fuel₂, rfl⟩ := Nat.exists_eq_add_of_le' (Nat.le_trans (Nat.le_add_left 1 fuel) hfuel)
    obtain ⟨h', n', hforce, hc', hle, hk'⟩ := force_chain hblocking hc hk "inputLine"
    obtain ⟨h₂', n₂', hforce₂, hc₂', hle₂, hk₂'⟩ := force_chain hblocking hc₂ hk₂ "inputLine"
    simp only [lineLoop, bufAt] at hforce hforce₂ ⊢
    rw [hforce, hforce₂]
    by_cases hnil : (vectors rd contents (k + 1)).length = 0
    · simp only [cellAt, if_pos hnil]
      refine .place (k := k) ⟨[], updateBufEnd (bufAt (vectors rd contents) k), [lineElem], ?_,
        .inr ⟨rfl, hnil⟩, ?_⟩ rfl hc' hc₂' hle hle₂ le_rfl (by omega) (by omega)
      · simp [finishLine, bufAt]
      · exact (before_end k).trans (by simp)
    · simp only [cellAt, if_neg hnil]
      cases hfind : findLine isLine (bufAt (vectors rd contents) (k + 1)).inp 0 with
      | some i =>
        obtain ⟨-, hi⟩ := findLine_bounds (zero_le _) hfind
        refine .place ⟨(vectors rd contents (k + 1)).take i,
          ⟨i, bufAt (vectors rd contents) (k + 1)⟩, [], ?_, .inl rfl, ?_⟩ rfl hc' hc₂' hle hle₂ hi
          hk' hk₂'
        · simp [finishLine, bufAt]
        · exact before_link hnil
      | none =>
        refine (ih hc' hc₂' (le_of_succ_le_succ hfuel) hk' hk₂' _).mono hle hle₂ ?_
        rintro r ⟨es, is', tail, hr, htail, hbefore⟩
        refine ⟨vectors rd contents (k + 1) ++ es, is', tail, ?_, htail, ?_⟩
        · rw [hr]
          simp [bufAt]
        · rw [hbefore, upTo_succ, items_link hnil]
          simp

theorem lineFirst_agree {is : Instream α} (his : Valid (vectors rd contents) is n)
    (his₂ : Valid (vectors rd contents) is n₂) :
    Agree rd contents (lineFirst rd isLine lineElem fuel is h)
      (lineFirst rd isLine lineElem fuel₂ is h₂) n n₂ (fun r => r.map Prod.snd) fun r =>
      ∀ es is', r = some (es, is') → ∃ es' tail, es = es' ++ tail ∧
        (tail = [] ∨ tail = [lineElem] ∧ (vectors rd contents (is'.buf.next + 1)).length = 0) ∧
        before (vectors rd contents) is' = before (vectors rd contents) is ++ es'.map some := by
  induction fuel generalizing fuel₂ is h h₂ n n₂ with
  | zero => exact .inl rfl
  | succ fuel ih =>
    obtain ⟨fuel₂, rfl⟩ := Nat.exists_eq_add_of_le' (Nat.le_trans (Nat.le_add_left 1 fuel) hfuel)
    simp only [lineFirst]
    cases hfind : findLine isLine is.buf.inp is.pos with
    | some i =>
      obtain ⟨hlt, hi⟩ := findLine_bounds his.pos hfind
      refine .updatePos hc hc₂ his his₂ ?_ rfl hi
      rintro es is' ⟨⟩
      refine ⟨_, [], (append_nil _).symm, .inl rfl, ?_⟩
      have hmove := before_updatePos (d := vectors rd contents) (i := i - is.pos)
        (by omega : is.pos < is.buf.inp.length)
      rwa [Nat.add_sub_cancel' hlt.le] at hmove
    | none =>
      dsimp only
      by_cases hpos : is.pos < is.buf.inp.length
      · rw [if_pos hpos, if_pos hpos]
        have hloop := lineLoop_agree hblocking hc hc₂ (le_of_succ_le_succ hfuel) isLine lineElem
          his.next his₂.next [is.buf.inp.drop is.pos]
        rw [← his.buf] at hloop
        refine hloop.mono le_rfl le_rfl ?_
        rintro r ⟨es, is', tail, rfl, htail, hbefore⟩ _ _ ⟨⟩
        refine ⟨is.buf.inp.drop is.pos ++ es, tail, by simp, htail, ?_⟩
        rw [hbefore, ← before_drop his]
        simp
      · rw [if_neg hpos, if_neg hpos, before_of_end his hpos]
        obtain ⟨h', n', hforce, hc', hle, hk'⟩ := force_chain hblocking hc his.next "inputLine"
        obtain ⟨h₂', n₂', hforce₂, hc₂', hle₂, hk₂'⟩ :=
          force_chain hblocking hc₂ his₂.next "inputLine"
        rw [hforce, hforce₂]
        by_cases hnil : (vectors rd contents (is.buf.next + 1)).length = 0
        · simp only [cellAt, if_pos hnil]
          refine .done ?_ rfl hc' hc₂' hle hle₂ (fun _ h => by cases h) fun _ h => by cases h
          rintro _ _ ⟨⟩
        · simp only [cellAt, if_neg hnil]
          refine (ih hc' hc₂' (le_of_succ_le_succ hfuel) (valid_beg hk') (valid_beg hk₂')).mono
            hle hle₂ ?_
          intro r hr es is' heq
          obtain ⟨es', tail, hes, htail, hbefore⟩ := hr es is' heq
          refine ⟨es', tail, hes, htail, hbefore.trans ?_⟩
          rw [updateBufBeg, before_link hnil, take_zero, map_nil, append_nil]

end Lines

end MultiMLton.Basis.InStream
