import MultiMLton.Basis.InStreamChain

/-!
# Input streams are functional

Runs of functions on the instreams of one stream, in any order. Where no call of `canInput` finds a
vector behind the last buffer, and no `inputN` adds beyond the largest `Int`:

* what a function returns depends on the instream alone (`reads_functional`);
* the items before the instream that is left are those before the old one and those returned.
-/

namespace MultiMLton.Basis.InStream

open List Nat

variable {α : Type}

inductive Op
  | input
  | inputN (n : ℤ)
  | input1'
  | inputAll
  | inputLine
  | endOfStream
  | canInput (n : ℤ)
  deriving DecidableEq

inductive Answer (α : Type)
  | elems (es : List α) (rest : Instream α)
  | elem (e : Option α) (rest : Instream α)
  | line (r : Option (List α × Instream α))
  | atEnd (b : Bool)
  | count (k : Option ℕ)

/-- The instream that is left. -/
def Answer.rest : Answer α → Option (Instream α)
  | elems _ is | elem _ is => some is
  | line r => r.map Prod.snd
  | atEnd _ | count _ => none

/-- An answer in place of what a function returns. -/
def answer {ρ : Type} (k : ρ → Answer α) (x : Option (Result α ρ)) :
    Option (Result α (Answer α)) :=
  x.map fun r => (r.1.map k, r.2)

section Runs

variable (z : Sizes) (rd : Reader α) (line : Option ((α → Bool) × α))

def Op.exec (fuel : ℕ) (is : Instream α) (h : Heap α) : Op → Option (Result α (Answer α))
  | input => answer (fun r => .elems r.1 r.2) (InStream.input rd is h)
  | inputN n => answer (fun r => .elems r.1 r.2) (InStream.inputN z rd fuel is n h)
  | input1' => answer (fun r => .elem r.1 r.2) (InStream.input1' rd fuel is h)
  | inputAll => answer (fun r => .elems r.1 r.2) (InStream.inputAll rd fuel is h)
  | inputLine => answer .line (InStream.inputLine rd line fuel is h)
  | endOfStream => answer .atEnd (InStream.endOfStream rd is h)
  | canInput n => answer .count (InStream.canInput z rd fuel is n h)

/-- The calls after which the stream is not functional: a `canInput` behind the last buffer that
finds a vector with elements; and an `inputN` that adds beyond the largest `Int`. -/
def Breaks (is : Instream α) (h : Heap α) : Op → Prop
  | .canInput n => 0 < n ∧ n ≤ z.maxLen ∧ ¬is.pos < is.buf.inp.length ∧
      is.buf.next = h.tail ∧ rd.nonblocking = true ∧ rd.ready h.polls = true ∧
      (rd.chunk h.reads).length ≠ 0
  | .inputN n => 0 ≤ n ∧ n ≤ z.maxLen ∧ z.maxInt < is.pos + n
  | _ => False

/-- A call that has returned. -/
structure Event (α : Type) where
  op : Op
  is : Instream α
  result : Except Exn (Answer α)

/-- The instream that is left by a call. -/
def Event.rest (e : Event α) : List (Instream α) :=
  match e.result with
  | .ok a => a.rest.toList
  | .error _ => []

/-- Runs from a new stream in which no call breaks it: the heap, the instreams that there are, and
the calls so far. -/
inductive Run (contents : Option (List α)) : Heap α → List (Instream α) → List (Event α) → Prop
  | start : Run contents (mkInstream' contents).2 [(mkInstream' contents).1] []
  | call {h h' : Heap α} {iss : List (Instream α)} {es : List (Event α)} {fuel : ℕ} {e : Event α}
      (before : Run contents h iss es) (mem : e.is ∈ iss) (keeps : ¬Breaks z rd e.is h e.op)
      (returns : e.op.exec z rd line fuel e.is h = some (e.result, h')) :
      Run contents h' (e.rest ++ iss) (e :: es)

/-- What a function other than `canInput` reads. -/
def Exact (contents : Option (List α)) (op : Op) (is : Instream α) : Answer α → Prop
  | .elems es rest =>
    before (vectors rd contents) rest = before (vectors rd contents) is ++ es.map some ++
      match op with
      | .inputN n => mark (es.length < n)
      | .inputAll => [none]
      | _ => mark (es.length = 0)
  | .elem e rest => before (vectors rd contents) rest = before (vectors rd contents) is ++ [e]
  | .line (some (es, rest)) =>
    match line with
    | none => before (vectors rd contents) rest =
        before (vectors rd contents) is ++ es.map some ++ mark (es.length = 0)
    | some (_, lineElem) => ∃ es' tail, es = es' ++ tail ∧
        (tail = [] ∨ tail = [lineElem] ∧ (vectors rd contents (rest.buf.next + 1)).length = 0) ∧
        before (vectors rd contents) rest = before (vectors rd contents) is ++ es'.map some
  | _ => True

end Runs

section Proofs

variable {z : Sizes} {rd : Reader α} {line : Option ((α → Bool) × α)}
  {contents : Option (List α)} {h h₂ : Heap α} {n n₂ : ℕ} {is : Instream α}

theorem Agree.answer {ρ : Type} {k : ρ → Answer α} {x x₂ : Option (Result α ρ)}
    {rest : ρ → Option (Instream α)} {P : ρ → Prop} {Q : Answer α → Prop}
    (h : Agree rd contents x x₂ n n₂ rest P) (hrest : ∀ r, (k r).rest = rest r)
    (hPQ : ∀ r, P r → Q (k r)) :
    Agree rd contents (InStream.answer k x) (InStream.answer k x₂) n n₂ Answer.rest Q := by
  rcases h with h | ⟨r, hr, ⟨h, n', hx, hc, hle, hvalid⟩, ⟨h₂, n₂', hx₂, hc₂, hle₂, hvalid₂⟩⟩
  · exact .inl (by rw [h]; rfl)
  · exact .inr ⟨k r, hPQ r hr,
      ⟨h, n', by rw [hx]; rfl, hc, hle, fun is his => hvalid is (hrest r ▸ his)⟩,
      ⟨h₂, n₂', by rw [hx₂]; rfl, hc₂, hle₂, fun is his => hvalid₂ is (hrest r ▸ his)⟩⟩

theorem answer_map {ρ τ : Type} (k : τ → Answer α) (k' : ρ → τ) (x : Option (Result α ρ)) :
    InStream.answer k (x.map fun r => (r.1.map k', r.2)) =
      InStream.answer (fun r => k (k' r)) x := by
  rcases x with _ | ⟨_ | _, h⟩ <;> rfl

theorem answer_returns {ρ : Type} {k : ρ → Answer α} {x : Option (Result α ρ)}
    (h : ∃ r, x = some r) : ∃ r, InStream.answer k x = some r := by
  obtain ⟨r, rfl⟩ := h
  exact ⟨_, rfl⟩

/-- The calls that read. -/
def Op.Reads (z : Sizes) (is : Instream α) : Op → Prop
  | inputN n => 0 ≤ n ∧ n ≤ z.maxLen ∧ is.pos + n ≤ z.maxInt
  | canInput _ => False
  | _ => True

theorem exec_agree (hblocking : rd.blocking = true) (hc : Chain rd contents h n)
    (hc₂ : Chain rd contents h₂ n₂) (his : Valid (vectors rd contents) is n)
    (his₂ : Valid (vectors rd contents) is n₂) {fuel fuel₂ : ℕ} (hfuel : fuel ≤ fuel₂) {op : Op}
    (hop : op.Reads z is) :
    Agree rd contents (op.exec z rd line fuel is h) (op.exec z rd line fuel₂ is h₂) n n₂ Answer.rest
      (Exact rd line contents op is) := by
  cases op with
  | input => exact (input_agree hblocking hc hc₂ his his₂).answer (fun _ => rfl) fun _ h => h
  | inputN m =>
    obtain ⟨hm, hlen, hadd⟩ := hop
    obtain ⟨m, rfl⟩ := Int.eq_ofNat_of_zero_le hm
    refine (inputN_agree hblocking hc hc₂ hfuel his his₂ (z := z) (m := m) (by omega)
      (by omega)).answer (fun _ => rfl) fun r hr => ?_
    refine hr.trans ?_
    simp [mark]
  | input1' =>
    exact (input1'_agree hblocking hc hc₂ hfuel his his₂).answer (fun _ => rfl) fun _ h => h
  | inputAll =>
    refine (inputAllLoop_agree hblocking hc hc₂ hfuel his his₂ []).answer (fun _ => rfl) ?_
    rintro ⟨_, is'⟩ ⟨es, rfl, hbefore⟩
    exact hbefore
  | inputLine =>
    cases line with
    | none =>
      simp only [Op.exec, InStream.inputLine, answer_map]
      exact (input_agree hblocking hc hc₂ his his₂).answer (fun _ => rfl) fun _ h => h
    | some l =>
      refine (lineFirst_agree hblocking hc hc₂ hfuel l.1 l.2 his his₂).answer (fun _ => rfl) ?_
      rintro (_ | ⟨es, is'⟩) hr
      · trivial
      · exact hr es is' rfl
  | endOfStream =>
    exact (endOfStream_agree hblocking hc hc₂ his his₂).answer (fun _ => rfl) fun _ _ => trivial
  | canInput m => exact hop.elim

/-- A `canInput` that breaks nothing leaves a chain. -/
theorem canInput_chain (hc : Chain rd contents h n) (his : Valid (vectors rd contents) is n)
    {m : ℤ} (hkeeps : ¬Breaks z rd is h (.canInput m)) (fuel : ℕ) :
    ∃ x h' n', InStream.canInput z rd fuel is m h = some (x, h') ∧ Chain rd contents h' n' ∧
      n ≤ n' := by
  unfold InStream.canInput
  split_ifs with hsize hzero hpos
  · exact ⟨_, h, n, rfl, hc, le_rfl⟩
  · exact ⟨_, h, n, rfl, hc, le_rfl⟩
  · exact ⟨_, h, n, rfl, hc, le_rfl⟩
  rcases lt_or_eq_of_le his.next with hlt | heq
  · rw [hc.cell _ hlt]
    unfold cellAt
    split_ifs <;> exact ⟨_, h, n, rfl, hc, le_rfl⟩
  · have hend : h.get h.tail = .end' := by rw [hc.tail, hc.last]
    simp only [heq, hc.last, extendNB, extend, hend, Bool.false_eq_true, if_false]
    have hasked : Chain rd contents { h with polls := h.polls + 1 } n :=
      ⟨hc.length, hc.tail, hc.cell, hc.last, hc.reads⟩
    by_cases hnb : rd.nonblocking = true
    · by_cases hready : rd.ready h.polls = true
      · obtain ⟨hthis, hchain⟩ := link_chain hasked
        have hchunk : (vectors rd contents (n + 1)).length = 0 := by
          by_contra hne
          refine hkeeps ⟨by omega, by omega, hpos, by rw [heq, hc.tail], hnb, hready, ?_⟩
          rwa [← vectors_made rd contents, hc.reads]
        simp only [hnb, hready, if_true, hthis, cellAt, if_pos hchunk]
        exact ⟨_, _, n + 1, rfl, hchain, le_succ n⟩
      · simp only [hnb, hready, if_true]
        exact ⟨_, _, n, rfl, hasked, le_rfl⟩
    · simp only [hnb]
      exact ⟨_, h, n, rfl, hc, le_rfl⟩

variable (line) in
/-- Every call that does not break the stream reads, or is a `canInput`, or raises `Size`. -/
theorem exec_cases {op : Op} (hkeeps : ¬Breaks z rd is h op) :
    op.Reads z is ∨ (∃ m, op = .canInput m) ∨
      ∃ m, op = .inputN m ∧ (m < 0 ∨ m > z.maxLen) ∧ ∀ (fuel : ℕ) (h : Heap α),
        op.exec z rd line fuel is h = some (.error .size, h) := by
  cases op with
  | canInput m => exact .inr (.inl ⟨m, rfl⟩)
  | inputN m =>
    by_cases hsize : m < 0 ∨ m > z.maxLen
    · refine .inr (.inr ⟨m, rfl, hsize, fun fuel h => ?_⟩)
      simp only [Op.exec, InStream.inputN, if_pos hsize]
      rfl
    · refine .inl ⟨by omega, by omega, ?_⟩
      by_contra hadd
      exact hkeeps ⟨by omega, by omega, by omega⟩
  | _ => exact .inl trivial

/-- The heap of a run is a chain with all its instreams. -/
theorem Run.chain (hblocking : rd.blocking = true) {iss : List (Instream α)} {es : List (Event α)}
    (hrun : Run z rd line contents h iss es) :
    ∃ n, Chain rd contents h n ∧ ∀ is ∈ iss, Valid (vectors rd contents) is n := by
  induction hrun with
  | start =>
    obtain ⟨hc, his⟩ := chain_mk rd contents
    exact ⟨_, hc, fun is h => mem_singleton.1 h ▸ his⟩
  | @call h h' iss es fuel e before mem keeps returns ih =>
    obtain ⟨n, hc, hvalid⟩ := ih
    have hold {n' : ℕ} (hle : n ≤ n') : ∀ is ∈ iss, Valid (vectors rd contents) is n' :=
      fun is his => (hvalid is his).mono hle
    rcases exec_cases line keeps with hreads | ⟨m, hm⟩ | ⟨m, -, -, hsize⟩
    · rcases exec_agree hblocking hc hc (hvalid _ mem) (hvalid _ mem) (le_refl fuel) hreads with
        hnone | ⟨a, -, ⟨h₁, n', hx, hc', hle, hrest⟩, -⟩
      · rw [hnone] at returns
        cases returns
      · rw [hx] at returns
        obtain ⟨hresult, rfl⟩ := Prod.mk.inj (Option.some.inj returns)
        refine ⟨n', hc', fun is his => ?_⟩
        rcases mem_append.1 his with his | his
        · rw [Event.rest, ← hresult] at his
          exact hrest is (Option.mem_toList.1 his)
        · exact hold hle is his
    · obtain ⟨x, h₁, n', hx, hc', hle⟩ :=
        canInput_chain hc (hvalid _ mem) (m := m) (by rwa [← hm]) fuel
      rw [hm, Op.exec, hx] at returns
      obtain ⟨hresult, rfl⟩ := Prod.mk.inj (Option.some.inj returns)
      refine ⟨n', hc', fun is his => ?_⟩
      rcases mem_append.1 his with his | his
      · rw [Event.rest, ← hresult] at his
        cases x <;> simp [Except.map, Answer.rest] at his
      · exact hold hle is his
    · rw [hsize] at returns
      obtain ⟨hresult, rfl⟩ := Prod.mk.inj (Option.some.inj returns)
      refine ⟨n, hc, fun is his => ?_⟩
      rw [Event.rest, ← hresult] at his
      exact hold le_rfl is his

variable (z rd line contents) in
/-- A function on an instream of a chain returns or raises `x`. -/
def Gives (op : Op) (is : Instream α) (x : Except Exn (Answer α)) : Prop :=
  ∃ fuel n h h', Chain rd contents h n ∧ Valid (vectors rd contents) is n ∧
    op.exec z rd line fuel is h = some (x, h')

/-- What a function gives is one answer, and exact. -/
theorem Gives.unique (hblocking : rd.blocking = true) {op : Op} (hop : op.Reads z is)
    {x x₂ : Except Exn (Answer α)} (hx : Gives z rd line contents op is x)
    (hx₂ : Gives z rd line contents op is x₂) :
    x = x₂ ∧ ∃ a, x = .ok a ∧ Exact rd line contents op is a := by
  obtain ⟨fuel, n, h, h', hc, his, hexec⟩ := hx
  obtain ⟨fuel₂, n₂, h₂, h₂', hc₂, his₂, hexec₂⟩ := hx₂
  wlog hle : fuel ≤ fuel₂ generalizing x x₂ fuel fuel₂ n n₂ h h₂ h' h₂'
  · obtain ⟨rfl, hexact⟩ := this fuel₂ n₂ h₂ h₂' hc₂ his₂ hexec₂ fuel n h h' hc his hexec (by omega)
    exact ⟨rfl, hexact⟩
  rcases exec_agree hblocking hc hc₂ his his₂ hle hop with
    hnone | ⟨a, ha, ⟨_, _, heq, -⟩, ⟨_, _, heq₂, -⟩⟩
  · rw [hnone] at hexec
    cases hexec
  · rw [hexec] at heq
    rw [hexec₂] at heq₂
    cases heq
    cases heq₂
    exact ⟨rfl, a, rfl, ha⟩

/-! ### Functions return -/

section Returns

variable (hblocking : rd.blocking = true)

include hblocking

theorem inputNLoop_returns {fuel k m : ℕ} (hc : Chain rd contents h n) (hk : k ≤ n) (hm : m < fuel)
    (inps : List (List α)) :
    ∃ x, inputNLoop rd fuel (bufAt (vectors rd contents) k) inps m h = some x := by
  induction fuel generalizing k m inps h n with
  | zero => omega
  | succ fuel ih =>
    obtain ⟨h', n', hforce, hc', hle, hk'⟩ := force_chain hblocking hc hk "inputN"
    simp only [inputNLoop, bufAt] at hforce ⊢
    rw [hforce]
    by_cases hnil : (vectors rd contents (k + 1)).length = 0
    · simp only [cellAt, if_pos hnil]
      exact ⟨_, rfl⟩
    · simp only [cellAt, if_neg hnil]
      split_ifs with hmle
      · exact ⟨_, rfl⟩
      · refine ih hc' hk' ?_ _
        have : (bufAt (vectors rd contents) (k + 1)).inp.length ≠ 0 := hnil
        omega

/-- From the end of a buffer `inputAll` reads up to the next end of stream. -/
theorem inputAllLoop_returns {fuel k last : ℕ} (hc : Chain rd contents h n) (hk : k ≤ n)
    (hlast : (vectors rd contents last).length = 0) (hlt : k < last) (hfuel : last - k ≤ fuel)
    (ac : List (List α)) :
    ∃ x, inputAllLoop rd fuel (updateBufEnd (bufAt (vectors rd contents) k)) ac h = some x := by
  induction fuel generalizing k ac h n with
  | zero => omega
  | succ fuel ih =>
    obtain ⟨h', n', hforce, hc', hle, hk'⟩ := force_chain hblocking hc hk "input"
    have hend : ¬(updateBufEnd (bufAt (vectors rd contents) k)).pos <
        (updateBufEnd (bufAt (vectors rd contents) k)).buf.inp.length := lt_irrefl _
    have hnext : (updateBufEnd (bufAt (vectors rd contents) k)).buf.next = k := rfl
    rw [inputAllLoop, InStream.input, if_neg hend, hnext, hforce]
    by_cases hnil : (vectors rd contents (k + 1)).length = 0
    · simp only [cellAt, if_pos hnil]
      exact ⟨_, rfl⟩
    · simp only [cellAt, if_neg hnil]
      have hne : ¬(bufAt (vectors rd contents) (k + 1)).inp.length = 0 := hnil
      rw [if_neg hne]
      have hne' : k + 1 ≠ last := fun heq => hnil (heq ▸ hlast)
      exact ih hc' hk' (by omega) (by omega) _

theorem lineLoop_returns (isLine : α → Bool) (lineElem : α) {fuel k last : ℕ}
    (hc : Chain rd contents h n) (hk : k ≤ n) (hlast : (vectors rd contents last).length = 0)
    (hlt : k < last) (hfuel : last - k ≤ fuel) (inps : List (List α)) :
    ∃ x, lineLoop rd isLine lineElem fuel (bufAt (vectors rd contents) k) inps h = some x := by
  induction fuel generalizing k inps h n with
  | zero => omega
  | succ fuel ih =>
    obtain ⟨h', n', hforce, hc', hle, hk'⟩ := force_chain hblocking hc hk "inputLine"
    simp only [lineLoop, bufAt] at hforce ⊢
    rw [hforce]
    by_cases hnil : (vectors rd contents (k + 1)).length = 0
    · simp only [cellAt, if_pos hnil]
      exact ⟨_, rfl⟩
    · simp only [cellAt, if_neg hnil]
      cases findLine isLine (bufAt (vectors rd contents) (k + 1)).inp 0 with
      | some i => exact ⟨_, rfl⟩
      | none =>
        have hne : k + 1 ≠ last := fun heq => hnil (heq ▸ hlast)
        exact ih hc' hk' (by omega) (by omega) _

theorem input1'_returns (hc : Chain rd contents h n) (his : Valid (vectors rd contents) is n) :
    ∃ x, InStream.input1' rd 2 is h = some x := by
  obtain ⟨h', n', hforce, hc', hle, hk'⟩ := force_chain hblocking hc his.next "input1"
  rw [InStream.input1']
  cases is.buf.inp[is.pos]? with
  | some e => exact ⟨_, rfl⟩
  | none =>
    simp only [hforce]
    by_cases hnil : (vectors rd contents (is.buf.next + 1)).length = 0
    · simp only [cellAt, if_pos hnil]
      exact ⟨_, rfl⟩
    · have hfirst := getElem?_eq_getElem (pos_of_ne_zero hnil)
      simp only [cellAt, if_neg hnil, InStream.input1', updateBufBeg, bufAt, hfirst]
      exact ⟨_, rfl⟩

theorem inputAll_returns {last : ℕ} (hc : Chain rd contents h n)
    (his : Valid (vectors rd contents) is n) (hlast : (vectors rd contents last).length = 0)
    (hlt : is.buf.next < last) :
    ∃ x, InStream.inputAll rd (last - is.buf.next + 1) is h = some x := by
  by_cases hpos : is.pos < is.buf.inp.length
  · have hdrop : (is.buf.inp.drop is.pos).length ≠ 0 := by
      rw [length_drop]
      omega
    simp only [InStream.inputAll, inputAllLoop, InStream.input, if_pos hpos, if_neg hdrop]
    rw [his.buf]
    exact inputAllLoop_returns hblocking hc his.next hlast hlt le_rfl _
  · have hend : is = updateBufEnd (bufAt (vectors rd contents) is.buf.next) := by
      rw [← his.buf, updateBufEnd, ← le_antisymm his.pos (not_lt.1 hpos)]
    rw [InStream.inputAll, hend]
    exact inputAllLoop_returns hblocking hc his.next hlast hlt (le_succ _) _

theorem lineFirst_returns (isLine : α → Bool) (lineElem : α) {last : ℕ}
    (hc : Chain rd contents h n) (his : Valid (vectors rd contents) is n)
    (hlast : (vectors rd contents last).length = 0) (hlt : is.buf.next < last) :
    ∃ x, lineFirst rd isLine lineElem (last - is.buf.next + 1) is h = some x := by
  rw [lineFirst]
  cases findLine isLine is.buf.inp is.pos with
  | some i => exact ⟨_, rfl⟩
  | none =>
    dsimp only
    split_ifs with hpos
    · rw [his.buf]
      exact lineLoop_returns hblocking isLine lineElem hc his.next hlast hlt le_rfl _
    · obtain ⟨h', n', hforce, hc', hle, hk'⟩ := force_chain hblocking hc his.next "inputLine"
      rw [hforce]
      by_cases hnil : (vectors rd contents (is.buf.next + 1)).length = 0
      · simp only [cellAt, if_pos hnil]
        exact ⟨_, rfl⟩
      · have hne : is.buf.next + 1 ≠ last := fun heq => hnil (heq ▸ hlast)
        obtain ⟨fuel, hfuel⟩ : ∃ fuel, last - is.buf.next = fuel + 1 :=
          ⟨last - is.buf.next - 1, by omega⟩
        have hbeg : (updateBufBeg (bufAt (vectors rd contents) (is.buf.next + 1))).pos <
            (updateBufBeg (bufAt (vectors rd contents) (is.buf.next + 1))).buf.inp.length :=
          pos_of_ne_zero hnil
        simp only [cellAt, if_neg hnil, hfuel, lineFirst, if_pos hbeg]
        split
        · exact ⟨_, rfl⟩
        · exact lineLoop_returns hblocking isLine lineElem hc' hk' hlast (by omega) (by omega) _

/-- Where an end of stream comes later, every call that reads returns. -/
theorem exec_returns (hc : Chain rd contents h n) (his : Valid (vectors rd contents) is n) {op : Op}
    (hop : op.Reads z is)
    (hlast : op = .inputAll ∨ op = .inputLine → ∃ last, is.buf.next < last ∧
      (vectors rd contents last).length = 0) :
    ∃ fuel x, op.exec z rd line fuel is h = some x := by
  obtain ⟨h', n', hforce, hc', hle, hk'⟩ := force_chain hblocking hc his.next "input"
  have hinput : ∃ x, InStream.input rd is h = some x := by
    unfold InStream.input
    split_ifs
    · exact ⟨_, rfl⟩
    · rw [hforce, cellAt]
      split_ifs <;> exact ⟨_, rfl⟩
  have hpos := his.pos
  cases op with
  | input => exact ⟨0, answer_returns hinput⟩
  | inputN m =>
    obtain ⟨hm, hlen, hadd⟩ := hop
    obtain ⟨m, rfl⟩ := Int.eq_ofNat_of_zero_le hm
    have hsize : ¬((m : ℤ) < 0 ∨ (m : ℤ) > z.maxLen) := by omega
    have hfits : is.pos + m ≤ z.maxInt := by omega
    refine ⟨m + 1, answer_returns ?_⟩
    simp only [InStream.inputN, if_neg hsize, Int.toNat_natCast, Sizes.add, if_pos hfits]
    split_ifs
    · exact ⟨_, rfl⟩
    · rw [his.buf]
      exact inputNLoop_returns hblocking hc his.next (by omega) _
  | input1' => exact ⟨2, answer_returns (input1'_returns hblocking hc his)⟩
  | inputAll =>
    obtain ⟨last, hlt, hlast⟩ := hlast (.inl rfl)
    exact ⟨_, answer_returns (inputAll_returns hblocking hc his hlast hlt)⟩
  | inputLine =>
    obtain ⟨last, hlt, hlast⟩ := hlast (.inr rfl)
    cases line with
    | none =>
      obtain ⟨x, hx⟩ := hinput
      refine ⟨0, answer_returns ⟨(x.1.map some, x.2), ?_⟩⟩
      rw [InStream.inputLine, hx]
      rfl
    | some l =>
      refine ⟨last - is.buf.next + 1, answer_returns ?_⟩
      exact lineFirst_returns hblocking l.1 l.2 hc his hlast hlt
  | endOfStream =>
    obtain ⟨⟨x, h₁⟩, hx⟩ := hinput
    refine ⟨0, answer_returns ⟨(x.map fun r => decide (r.1.length = 0), h₁), ?_⟩⟩
    rw [InStream.endOfStream, hx]
    cases x <;> rfl
  | canInput m => exact hop.elim

end Returns

/-- What is before an instream is the beginning of what the reader reads. -/
theorem Valid.begins {d : ℕ → List α} (his : Valid d is n) :
    before d is <+: upTo d is.buf.next :=
  ⟨_, before_drop his⟩

/-- While no call breaks it, a stream is functional. What a function other than `canInput` returns
depends on the instream alone, not on the calls before; the items before the instream that is left
are those before the old one and those returned; and every function returns, `inputAll` and
`inputLine` where an end of stream comes later. -/
theorem reads_functional (z : Sizes) (rd : Reader α) (line : Option ((α → Bool) × α))
    (contents : Option (List α)) (hblocking : rd.blocking = true) :
    ∃ f : Op → Instream α → Except Exn (Answer α), ∀ h iss es, Run z rd line contents h iss es →
      (∀ e ∈ es, (∀ m, e.op ≠ .canInput m) → e.result = f e.op e.is ∧
        ((∃ a, e.result = .ok a ∧ Exact rd line contents e.op e.is a) ∨
          ∃ m, e.op = .inputN m ∧ (m < 0 ∨ m > z.maxLen) ∧ e.result = .error .size)) ∧
      ∀ is ∈ iss, before (vectors rd contents) is <+: upTo (vectors rd contents) is.buf.next ∧
        ∀ op : Op, op.Reads z is →
          (op = .inputAll ∨ op = .inputLine → ∃ last, is.buf.next < last ∧
            (vectors rd contents last).length = 0) →
          ∃ fuel x, op.exec z rd line fuel is h = some x := by
  classical
  let f (op : Op) (is : Instream α) : Except Exn (Answer α) :=
    if h : ∃ x, Gives z rd line contents op is x then h.choose else .error .size
  refine ⟨f, fun h iss es hrun => ⟨?_, fun is his => ?_⟩⟩
  · induction hrun with
    | start => exact fun e he => (List.not_mem_nil he).elim
    | @call h h' iss es fuel e before mem keeps returns ih =>
      rintro e' he' hop
      rcases List.mem_cons.1 he' with rfl | he'
      · obtain ⟨n, hc, hvalid⟩ := before.chain hblocking
        have hgives : Gives z rd line contents e'.op e'.is e'.result :=
          ⟨fuel, n, h, h', hc, hvalid _ mem, returns⟩
        have hf : Gives z rd line contents e'.op e'.is (f e'.op e'.is) := by
          have hex : ∃ x, Gives z rd line contents e'.op e'.is x := ⟨_, hgives⟩
          simp only [f, dif_pos hex]
          exact hex.choose_spec
        rcases exec_cases line keeps with hreads | ⟨m, hm⟩ | ⟨m, hm, hbad, hsize⟩
        · obtain ⟨heq, hexact⟩ := hgives.unique hblocking hreads hf
          exact ⟨heq, .inl hexact⟩
        · exact (hop m hm).elim
        · have hraises {x : Except Exn (Answer α)} (hx : Gives z rd line contents e'.op e'.is x) :
              x = .error .size := by
            obtain ⟨fuel, n, h, h', -, -, hexec⟩ := hx
            rw [hsize] at hexec
            cases hexec
            rfl
          exact ⟨(hraises hgives).trans (hraises hf).symm, .inr ⟨m, hm, hbad, hraises hgives⟩⟩
      · exact ih e' he' hop
  · obtain ⟨n, hc, hvalid⟩ := hrun.chain hblocking
    exact ⟨(hvalid is his).begins, fun op hop hlast =>
      exec_returns hblocking hc (hvalid is his) hop hlast⟩

/-- A reader of three elements in two vectors, and of one after them. -/
def twoVectors : Reader ℕ where
  name := "two"
  blocking := true
  nonblocking := true
  chunk k := [[1, 2], [3], [4]].getD k []
  ready _ := true

theorem reads_functional_twoVectors :
    ∃ f : Op → Instream ℕ → Except Exn (Answer ℕ), ∀ h iss es,
      Run ⟨9, 9⟩ twoVectors none none h iss es → ∀ e ∈ es, (∀ m, e.op ≠ .canInput m) →
        e.result = f e.op e.is :=
  have ⟨f, hf⟩ := reads_functional ⟨9, 9⟩ twoVectors none none rfl
  ⟨f, fun h iss es hrun e he hop => ((hf h iss es hrun).1 e he hop).1⟩

/-- Behind the first buffer `canInput` makes a buffer that ends nowhere: what comes after it is
another vector each time. And an `inputN` of five elements behind the first raises `Overflow`. -/
theorem not_functional_canInput :
    (∃ is h₁ h₂ h₃ h₄,
      canInput ⟨9, 9⟩ twoVectors 1 (mkInstream' none).1 1 (mkInstream' none).2 =
        some (.ok (some 1), h₁) ∧
      input twoVectors (mkInstream' none).1 h₁ = some (.ok ([1, 2], is), h₂) ∧
      (input twoVectors is h₂).map (fun r => (r.1.map Prod.fst, r.2)) = some (.ok [3], h₃) ∧
      (input twoVectors is h₃).map (fun r => (r.1.map Prod.fst, r.2)) = some (.ok [4], h₄)) ∧
    (inputN ⟨5, 5⟩ twoVectors 9 ⟨1, [1], 0⟩ 5 (mkInstream' (some [1])).2).map Prod.fst =
      some (.error .overflow) :=
  ⟨⟨_, _, _, _, _, rfl, rfl, rfl, rfl⟩, rfl⟩

end Proofs

end MultiMLton.Basis.InStream
