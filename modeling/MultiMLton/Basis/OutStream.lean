import Mathlib.Data.List.Infix
import Mathlib.Tactic

/-!
# Output streams

The outstreams of `io/stream-io.fun`. Sizes are natural numbers, and the references of a stream are
the fields of one state, beside the writer's own state and the elements that it has taken.

* `Kept`: what a step of a stream should keep;
* `Loses`: the steps that lose elements, or take them after the end;
* `kept_run`: the other ones lose nothing.
-/

namespace MultiMLton.Basis.OutStream

open List Option Nat

variable {α ω : Type}

inductive Exn
  | closedStream
  | subscript
  | fail (message : String)
  | io (name function : String) (cause : Exn)
  deriving DecidableEq

/-- `writer`; a write says how many elements it has taken. -/
structure Writer (α ω : Type) where
  name : String
  chunkSize : ℕ
  writeVec : ω → List α → ℕ × ω
  writeArr : ω → List α → ℕ × ω
  close : ω → ω

/-- A write takes at least one element, and no more than there are. -/
def Takes (write : ω → List α → ℕ × ω) : Prop :=
  ∀ dev v, v ≠ [] → 0 < (write dev v).1 ∧ (write dev v).1 ≤ v.length

structure Buf (α : Type) where
  array : List α
  size : ℕ

inductive BufferMode (α : Type)
  | noBuf
  | lineBuf (buf : Buf α)
  | blockBuf (buf : Buf α)

/-- `IO.buffer_mode` -/
inductive Mode
  | noBuf
  | lineBuf
  | blockBuf
  deriving DecidableEq

inductive State
  | active
  | terminated
  | closed
  deriving DecidableEq

structure Outstream (α ω : Type) where
  state : State
  bufferMode : BufferMode α
  /-- the state of the writer -/
  dev : ω
  /-- the elements that the writer has taken -/
  handed : List α

/-- What a function returns or raises, and the stream then. -/
abbrev Result (α ω ρ : Type) := Except Exn ρ × Outstream α ω

namespace Result

def ok (os : Outstream α ω) : Result α ω Unit := (.ok (), os)

def andThen {ρ : Type} (r : Result α ω Unit) (k : Outstream α ω → Result α ω ρ) : Result α ω ρ :=
  match r with
  | (.ok (), os) => k os
  | (.error e, os) => (.error e, os)

/-- Without what is returned. -/
def discard {ρ : Type} (r : Result α ω ρ) : Result α ω Unit := (r.1.map fun _ => (), r.2)

/-- `handle exn => liftExn name function exn` -/
def lift {ρ : Type} (name function : String) (r : Result α ω ρ) : Result α ω ρ :=
  (r.1.mapError (.io name function), r.2)

end Result

/-! ### The buffer -/

section Code

variable (w : Writer α ω) (line : Option (α → Bool)) (someElem : α)

/-- One call of `write`: it takes a part of `v`. -/
def writeOnce (write : ω → List α → ℕ × ω) (v : List α) (os : Outstream α ω) :
    ℕ × Outstream α ω :=
  let (j, dev) := write os.dev v
  (j, { os with dev := dev, handed := os.handed ++ v.take j })

/-- `loop` of `flushGen` -/
def flushGen (write : ω → List α → ℕ × ω) (v : List α) (os : Outstream α ω) : Result α ω Unit :=
  if _ : v.length = 0 then .ok os
  else if _ : (writeOnce write v os).1 = 0 then
    (.error (.fail "partial write"), (writeOnce write v os).2)
  else flushGen write (v.drop (writeOnce write v os).1) (writeOnce write v os).2
termination_by v.length
decreasing_by
  rw [List.length_drop]
  omega

/-- The buffer of the mode, with other contents. -/
def BufferMode.set (buf : Buf α) : BufferMode α → BufferMode α
  | noBuf => noBuf
  | lineBuf _ => lineBuf buf
  | blockBuf _ => blockBuf buf

def Outstream.set (os : Outstream α ω) (buf : Buf α) : Outstream α ω :=
  { os with bufferMode := os.bufferMode.set buf }

def flushBuf (buf : Buf α) (os : Outstream α ω) : Result α ω Unit :=
  flushGen w.writeArr (buf.array.take buf.size) (os.set { buf with size := 0 })

/-! ### Output -/

/-- `A.copyVec`, where there is room -/
def copyVec (src dst : List α) (di : ℕ) : List α := dst.take di ++ src ++ dst.drop (di + src.length)

/-- `doit` of `output` and `outputSlice` -/
def outputBuf (v : List α) (maybe : Bool) (buf : Buf α) (os : Outstream α ω) : Result α ω Unit :=
  let newSize := buf.size + v.length
  if newSize ≥ buf.array.length ∨ maybe then (flushBuf w buf os).andThen (flushGen w.writeVec v)
  else .ok (os.set ⟨copyVec v buf.array buf.size, newSize⟩)

/-- Is there an end of line? -/
def hasLine (v : List α) : Bool :=
  match line with
  | none => false
  | some isLine => v.any isLine

def output (v : List α) (os : Outstream α ω) : Result α ω Unit :=
  if os.state ≠ .active then (.error (.io w.name "output" .closedStream), os)
  else
    Result.lift w.name "output" <|
      match os.bufferMode with
      | .noBuf => flushGen w.writeVec v os
      | .lineBuf buf => outputBuf w v (hasLine line v) buf os
      | .blockBuf buf => outputBuf w v false buf os

/-- `outputSlice`; a slice is the elements in it. -/
def outputSlice (v : List α) (os : Outstream α ω) : Result α ω Unit := output w line v os

/-- `output1` into a buffer: where it is full, `A.update` raises `Subscript`. -/
def output1Buf (c : α) (buf : Buf α) (os : Outstream α ω) : Result α ω Unit :=
  if buf.size < buf.array.length then .ok (os.set ⟨buf.array.set buf.size c, buf.size + 1⟩)
  else if os.state ≠ .active then (.error (.io w.name "output" .closedStream), os)
  else
    (Result.lift w.name "output1" (flushBuf w buf os)).andThen fun os =>
      if 0 < buf.array.length then .ok (os.set ⟨buf.array.set 0 c, 1⟩)
      else (.error .subscript, os)

def output1 (c : α) (os : Outstream α ω) : Result α ω Unit :=
  match os.bufferMode with
  | .blockBuf buf => output1Buf w c buf os
  | .lineBuf buf =>
    (output1Buf w c buf os).andThen fun os =>
      match os.bufferMode with
      | .lineBuf buf =>
        if hasLine line [c] then Result.lift w.name "output1" (flushBuf w buf os) else .ok os
      | _ => .ok os
  | .noBuf =>
    if os.state ≠ .active then (.error (.io w.name "output" .closedStream), os)
    else flushGen w.writeArr [c] os

def flushOut (os : Outstream α ω) : Result α ω Unit :=
  if os.state ≠ .active then .ok os
  else
    match os.bufferMode with
    | .noBuf => .ok os
    | .lineBuf buf => flushBuf w buf os
    | .blockBuf buf => Result.lift w.name "flushOut" (flushBuf w buf os)

/-! ### The end of a stream and its mode -/

def makeTerminated (os : Outstream α ω) : Outstream α ω :=
  match os.bufferMode with
  | .noBuf => os
  | .lineBuf buf | .blockBuf buf => os.set { buf with size := buf.array.length }

def closeOut (os : Outstream α ω) : Result α ω Unit :=
  if os.state = .closed then .ok os
  else
    Result.lift w.name "closeOut" <| (flushOut w os).andThen fun os =>
      let os := if os.state ≠ .active then os else { os with dev := w.close os.dev }
      .ok (makeTerminated { os with state := .closed })

/-- A new buffer. -/
def newBuf (bufSize : ℕ) : Buf α := ⟨List.replicate bufSize someElem, 0⟩

def setBufferMode (mode : Mode) (os : Outstream α ω) : Result α ω Unit :=
  match mode, os.bufferMode with
  | .noBuf, _ => (flushOut w os).andThen fun os => .ok { os with bufferMode := .noBuf }
  | .lineBuf, .lineBuf _ => .ok os
  | .lineBuf, _ => .ok { os with bufferMode := .lineBuf (newBuf someElem w.chunkSize) }
  | .blockBuf, .blockBuf _ => .ok os
  | .blockBuf, _ => .ok { os with bufferMode := .blockBuf (newBuf someElem w.chunkSize) }

def mkOutstream (mode : Mode) (dev : ω) : Outstream α ω where
  state := .active
  bufferMode :=
    match mode with
    | .noBuf => .noBuf
    | .lineBuf => .lineBuf (newBuf someElem w.chunkSize)
    | .blockBuf => .blockBuf (newBuf someElem w.chunkSize)
  dev := dev
  handed := []

def getBufferMode (os : Outstream α ω) : Mode :=
  match os.bufferMode with
  | .noBuf => .noBuf
  | .lineBuf _ => .lineBuf
  | .blockBuf _ => .blockBuf

/-- `getWriter`, without the writer -/
def getWriter (os : Outstream α ω) : Result α ω Mode :=
  if os.state = .closed then (.error (.io w.name "getWriter" .closedStream), os)
  else
    (flushOut w os).andThen fun os =>
      let os := makeTerminated { os with state := .terminated }
      (.ok (getBufferMode os), os)

end Code

/-! ### Runs -/

inductive Op (α : Type)
  | output (v : List α)
  | output1 (c : α)
  | outputSlice (v : List α)
  | flushOut
  | setBufferMode (mode : Mode)
  | getWriter
  | closeOut

namespace Op

/-- The elements that are output. -/
def elems : Op α → Option (List α)
  | output v => some v
  | output1 c => some [c]
  | outputSlice v => some v
  | _ => none

/-- The operations that write everything. -/
def Flushes : Op α → Prop
  | flushOut | getWriter | closeOut => True
  | _ => False

/-- The operations that end the stream. -/
def ends : Op α → Bool
  | getWriter | closeOut => true
  | _ => false

variable (w : Writer α ω) (line : Option (α → Bool)) (someElem : α)

def exec : Op α → Outstream α ω → Result α ω Unit
  | output v, os => OutStream.output w line v os
  | output1 c, os => OutStream.output1 w line c os
  | outputSlice v, os => OutStream.outputSlice w line v os
  | flushOut, os => OutStream.flushOut w os
  | setBufferMode mode, os => OutStream.setBufferMode w someElem mode os
  | getWriter, os => Result.discard (OutStream.getWriter w os)
  | closeOut, os => OutStream.closeOut w os

end Op

/-- A stream, the elements output so far, and whether it has been closed or given up. -/
structure Sys (α ω : Type) where
  out : Outstream α ω
  accepted : List α
  ended : Bool

/-- The elements of an output count if it returns. -/
def accepts (op : Op α) (r : Except Exn Unit) : List α :=
  match r with
  | .ok () => op.elems.getD []
  | .error _ => []

section Runs

variable (w : Writer α ω) (line : Option (α → Bool)) (someElem : α)

def step (op : Op α) (s : Sys α ω) : Except Exn Unit × Sys α ω :=
  let (r, out) := op.exec w line someElem s.out
  (r, ⟨out, s.accepted ++ accepts op r, s.ended || op.ends⟩)

def init (mode : Mode) (dev : ω) : Sys α ω := ⟨mkOutstream w someElem mode dev, [], false⟩

/-- What a step from `s` to `s'` keeps. -/
structure Kept (op : Op α) (s : Sys α ω) (r : Except Exn Unit) (s' : Sys α ω) : Prop where
  written : s'.out.handed <+: s'.accepted
  whole : op.Flushes ∨ getBufferMode s.out = .noBuf ∨ getBufferMode s'.out = .noBuf →
    s'.out.handed = s'.accepted
  ended : s.ended = true → op.elems.isSome →
    (∃ e, r = .error e) ∧ s'.out.handed = s.out.handed ∧ s'.accepted = s.accepted

/-- The steps that lose elements: another kind of buffer, where there are elements in the old one;
and those that take an element after the end, where the buffer is a new one. -/
def Loses (os : Outstream α ω) : Op α → Prop
  | .setBufferMode mode =>
    os.state = .active ∧
      match mode, os.bufferMode with
      | .lineBuf, .blockBuf buf | .blockBuf, .lineBuf buf => 0 < buf.size
      | _, _ => False
  | .output1 _ =>
    os.state ≠ .active ∧
      match os.bufferMode with
      | .noBuf => False
      | .lineBuf buf | .blockBuf buf => buf.size < buf.array.length
  | _ => False

/-- No step loses elements. -/
def LosesNone : List (Op α) → Sys α ω → Prop
  | [], _ => True
  | op :: ops, s => ¬Loses s.out op ∧ LosesNone ops (step w line someElem op s).2

/-- Every step keeps what it should. -/
def KeptRun : List (Op α) → Sys α ω → Prop
  | [], _ => True
  | op :: ops, s =>
    let (r, s') := step w line someElem op s
    Kept op s r s' ∧ KeptRun ops s'

end Runs

/-! ### The buffer holds what is not yet written -/

namespace BufferMode

/-- The elements in the buffer. -/
def pending : BufferMode α → List α
  | noBuf => []
  | lineBuf buf | blockBuf buf => buf.array.take buf.size

/-- The size is in bounds. -/
def Ok : BufferMode α → Prop
  | noBuf => True
  | lineBuf buf | blockBuf buf => buf.size ≤ buf.array.length

/-- The buffer of the mode. -/
def Has (buf : Buf α) (mode : BufferMode α) : Prop := mode = lineBuf buf ∨ mode = blockBuf buf

variable {mode : BufferMode α} {buf buf' : Buf α}

theorem Has.set (h : mode.Has buf) (buf' : Buf α) : (mode.set buf').Has buf' := by
  rcases h with rfl | rfl
  · exact .inl rfl
  · exact .inr rfl

theorem Has.pending (h : mode.Has buf) : mode.pending = buf.array.take buf.size := by
  rcases h with rfl | rfl <;> rfl

theorem Has.ok_iff (h : mode.Has buf) : mode.Ok ↔ buf.size ≤ buf.array.length := by
  rcases h with rfl | rfl <;> rfl

end BufferMode

/-- What has been output is what the writer has and what is in the buffer. -/
structure Holds (os : Outstream α ω) (accepted : List α) : Prop where
  ok : os.bufferMode.Ok
  eq : os.handed ++ os.bufferMode.pending = accepted

section Proofs

variable {w : Writer α ω} {line : Option (α → Bool)} {someElem : α} {os : Outstream α ω}
  {buf : Buf α} {v accepted : List α} {c : α}

theorem flushGen_eq {write : ω → List α → ℕ × ω} (h : Takes write) (v : List α)
    (os : Outstream α ω) :
    ∃ dev, flushGen write v os = .ok { os with dev := dev, handed := os.handed ++ v } := by
  induction hn : v.length using Nat.strong_induction_on generalizing v os with
  | _ n ih =>
    subst hn
    unfold flushGen
    by_cases hv : v.length = 0
    · obtain rfl := length_eq_zero_iff.1 hv
      exact ⟨os.dev, by simp⟩
    · obtain ⟨hpos, hle⟩ := h os.dev v fun hnil => hv (by simp [hnil])
      rw [dif_neg hv, dif_neg (show ¬(writeOnce write v os).1 = 0 from hpos.ne')]
      have hlt : (v.drop (writeOnce write v os).1).length < v.length := by
        rw [length_drop]
        have : 0 < (writeOnce write v os).1 := hpos
        omega
      obtain ⟨dev, hrest⟩ := ih _ hlt (v.drop (writeOnce write v os).1) (writeOnce write v os).2 rfl
      refine ⟨dev, hrest.trans ?_⟩
      simp only [writeOnce, append_assoc, take_append_drop]

theorem flushBuf_eq (h : Takes w.writeArr) (buf : Buf α) (os : Outstream α ω) :
    ∃ dev, flushBuf w buf os = .ok { os.set { buf with size := 0 } with
      dev := dev, handed := os.handed ++ buf.array.take buf.size } :=
  flushGen_eq h _ _

@[simp] theorem getBufferMode_set (os : Outstream α ω) (buf : Buf α) :
    getBufferMode (os.set buf) = getBufferMode os := by
  unfold getBufferMode Outstream.set
  cases os.bufferMode <;> rfl

/-- What a flush leaves. -/
structure Flushed (os os' : Outstream α ω) (accepted : List α) : Prop where
  state : os'.state = os.state
  mode : getBufferMode os' = getBufferMode os
  holds : Holds os' accepted
  pending : os'.bufferMode.pending = []
  handed : os'.handed = accepted

theorem flushBuf_flushed (hArr : Takes w.writeArr) (h : Holds os accepted)
    (hbuf : os.bufferMode.Has buf) :
    ∃ os', flushBuf w buf os = .ok os' ∧ Flushed os os' accepted ∧
      os'.bufferMode.Has { buf with size := 0 } := by
  obtain ⟨dev, hflush⟩ := flushBuf_eq hArr buf os
  have hset := hbuf.set { buf with size := 0 }
  have heq := h.eq
  rw [hbuf.pending] at heq
  have hpending : (os.bufferMode.set { buf with size := 0 }).pending = [] := by
    rw [hset.pending, List.take_zero]
  refine ⟨_, hflush, ⟨rfl, getBufferMode_set os _, ⟨hset.ok_iff.2 (zero_le _), ?_⟩, hpending,
    heq⟩, hset⟩
  show (os.handed ++ buf.array.take buf.size) ++ (os.bufferMode.set _).pending = accepted
  rw [hpending, heq, List.append_nil]

/-- Elements behind those in the buffer. -/
theorem Holds.append (h : Holds os accepted) (hbuf : os.bufferMode.Has buf) {array : List α}
    (hlen : buf.size + v.length ≤ array.length)
    (harray : array.take (buf.size + v.length) = buf.array.take buf.size ++ v) :
    Holds (os.set ⟨array, buf.size + v.length⟩) (accepted ++ v) := by
  have hset := hbuf.set ⟨array, buf.size + v.length⟩
  have heq := h.eq
  rw [hbuf.pending] at heq
  refine ⟨hset.ok_iff.2 hlen, ?_⟩
  show os.handed ++ (os.bufferMode.set _).pending = accepted ++ v
  rw [hset.pending, harray, ← append_assoc, heq]

/-- What an output does to an active stream: its elements are there if it returns. -/
structure Outputs (os : Outstream α ω) (accepted v : List α) (r : Result α ω Unit) : Prop where
  state : r.2.state = os.state
  mode : getBufferMode r.2 = getBufferMode os
  holds : Holds r.2 (accepted ++ match r.1 with | .ok () => v | .error _ => [])

theorem Outputs.lift {r : Result α ω Unit} (h : Outputs os accepted v r) (name function : String) :
    Outputs os accepted v (r.lift name function) := by
  obtain ⟨r, os'⟩ := r
  refine ⟨h.state, h.mode, ?_⟩
  have hholds := h.holds
  cases r <;> exact hholds

theorem Outputs.write {write : ω → List α → ℕ × ω} (hwrite : Takes write) (h : Holds os accepted)
    (hpending : os.bufferMode.pending = []) : Outputs os accepted v (flushGen write v os) := by
  obtain ⟨dev, hput⟩ := flushGen_eq hwrite v os
  have heq := h.eq
  rw [hpending, List.append_nil] at heq
  rw [hput]
  refine ⟨rfl, rfl, h.ok, ?_⟩
  show (os.handed ++ v) ++ os.bufferMode.pending = accepted ++ v
  rw [hpending, List.append_nil, heq]

theorem outputBuf_outputs (hVec : Takes w.writeVec) (hArr : Takes w.writeArr)
    (h : Holds os accepted) (hbuf : os.bufferMode.Has buf) (maybe : Bool) :
    Outputs os accepted v (outputBuf w v maybe buf os) := by
  unfold outputBuf
  dsimp only
  split_ifs with hfull
  · obtain ⟨os₁, hflush, hflushed, -⟩ := flushBuf_flushed hArr h hbuf
    have hput : Outputs os₁ accepted v _ := .write hVec hflushed.holds hflushed.pending
    rw [hflush]
    exact ⟨hput.state.trans hflushed.state, hput.mode.trans hflushed.mode, hput.holds⟩
  · have hle := hbuf.ok_iff.1 h.ok
    refine ⟨rfl, getBufferMode_set os _, h.append hbuf ?_ ?_⟩
    · simp only [copyVec, length_append, length_take, length_drop]
      omega
    · have hlen : (buf.array.take buf.size ++ v).length = buf.size + v.length := by
        rw [length_append, length_take, min_eq_left hle]
      rw [copyVec, ← hlen, take_left]

theorem output_outputs (hVec : Takes w.writeVec) (hArr : Takes w.writeArr)
    (h : Holds os accepted) (hactive : os.state = .active) :
    Outputs os accepted v (output w line v os) := by
  unfold output
  rw [if_neg (by simp [hactive])]
  apply Outputs.lift
  cases hmode : os.bufferMode with
  | noBuf => exact .write hVec h (by rw [hmode]; rfl)
  | lineBuf buf => exact outputBuf_outputs hVec hArr h (.inl hmode) _
  | blockBuf buf => exact outputBuf_outputs hVec hArr h (.inr hmode) _

section

variable (hArr : Takes w.writeArr) (h : Holds os accepted) (hactive : os.state = .active)

include hArr h hactive

theorem output1Buf_outputs (hbuf : os.bufferMode.Has buf) :
    Outputs os accepted [c] (output1Buf w c buf os) := by
  unfold output1Buf
  split_ifs with hroom hstate hpos
  · refine ⟨rfl, getBufferMode_set os _, h.append hbuf (v := [c]) (by simpa using hroom) ?_⟩
    have hlen : buf.size < (buf.array.set buf.size c).length := by simpa using hroom
    rw [length_singleton, take_succ_eq_append_getElem hlen, getElem_set_self,
      take_set_of_le le_rfl]
  · exact (hstate hactive).elim
  all_goals
    obtain ⟨os₁, hflush, hflushed, hbuf₁⟩ := flushBuf_flushed hArr h hbuf
    rw [hflush]
  · refine ⟨hflushed.state, (getBufferMode_set os₁ _).trans hflushed.mode,
      hflushed.holds.append hbuf₁ (v := [c]) ?_ ?_⟩
    · rw [length_set]
      exact succ_le_of_lt hpos
    · cases harray : buf.array with
      | nil => simp [harray] at hpos
      | cons a as => simp
  · refine ⟨hflushed.state, hflushed.mode, ?_⟩
    show Holds os₁ (accepted ++ [])
    rw [List.append_nil]
    exact hflushed.holds

theorem output1_outputs : Outputs os accepted [c] (output1 w line c os) := by
  unfold output1
  cases hmode : os.bufferMode with
  | noBuf =>
    dsimp only
    rw [if_neg (by simp [hactive])]
    exact .write hArr h (by rw [hmode]; rfl)
  | blockBuf buf => exact output1Buf_outputs hArr h hactive (.inr hmode)
  | lineBuf buf =>
    have hout : Outputs os accepted [c] _ := output1Buf_outputs hArr h hactive (.inl hmode)
    dsimp only
    rcases hr : output1Buf w c buf os with ⟨_ | _, os₁⟩
    · rw [hr] at hout
      exact hout
    · rw [hr] at hout
      show Outputs os accepted [c] (match os₁.bufferMode with | .lineBuf buf => _ | _ => _)
      cases hmode₁ : os₁.bufferMode with
      | lineBuf buf₁ =>
        dsimp only
        split_ifs
        · obtain ⟨os₂, hflush, hflushed, -⟩ := flushBuf_flushed hArr hout.holds (.inl hmode₁)
          rw [hflush]
          exact ⟨hflushed.state.trans hout.state, hflushed.mode.trans hout.mode, hflushed.holds⟩
        · exact hout
      | noBuf | blockBuf => exact hout

theorem flushOut_flushed : ∃ os', flushOut w os = .ok os' ∧ Flushed os os' accepted := by
  unfold flushOut
  rw [if_neg (by simp [hactive])]
  cases hmode : os.bufferMode with
  | noBuf =>
    have hpending : os.bufferMode.pending = [] := by rw [hmode]; rfl
    have heq := h.eq
    rw [hpending, List.append_nil] at heq
    exact ⟨os, rfl, rfl, rfl, h, hpending, heq⟩
  | lineBuf buf =>
    obtain ⟨os', hflush, hflushed, -⟩ := flushBuf_flushed hArr h (.inl hmode)
    exact ⟨os', hflush, hflushed⟩
  | blockBuf buf =>
    obtain ⟨os', hflush, hflushed, -⟩ := flushBuf_flushed hArr h (.inr hmode)
    exact ⟨os', by dsimp only; rw [hflush]; rfl, hflushed⟩

end

theorem flushOut_of_ended (h : os.state ≠ .active) : flushOut w os = .ok os := if_pos h

@[simp] theorem makeTerminated_state (os : Outstream α ω) :
    (makeTerminated os).state = os.state := by
  unfold makeTerminated
  split <;> rfl

@[simp] theorem makeTerminated_handed (os : Outstream α ω) :
    (makeTerminated os).handed = os.handed := by
  unfold makeTerminated
  split <;> rfl

/-- The operations that flush an active stream leave everything with the writer. -/
theorem closeOut_ended (hArr : Takes w.writeArr) (h : os.state = .active → Holds os accepted)
    (h' : os.state ≠ .active → os.handed = accepted) :
    (closeOut w os).2.state = .closed ∧ (closeOut w os).2.handed = accepted := by
  unfold closeOut
  split_ifs with hclosed
  · exact ⟨hclosed, h' (by simp [hclosed])⟩
  · by_cases hactive : os.state = .active
    · obtain ⟨os₁, hflush, hflushed⟩ := flushOut_flushed hArr (h hactive) hactive
      rw [hflush]
      refine ⟨by simp [Result.lift, Result.andThen, Result.ok], ?_⟩
      simp only [Result.lift, Result.andThen, Result.ok, makeTerminated_handed]
      split_ifs <;> exact hflushed.handed
    · rw [flushOut_of_ended hactive]
      simp [Result.lift, Result.andThen, Result.ok, hactive, h']

theorem getWriter_ended (hArr : Takes w.writeArr) (h : os.state = .active → Holds os accepted)
    (h' : os.state ≠ .active → os.handed = accepted) :
    (getWriter w os).2.state ≠ .active ∧ (getWriter w os).2.handed = accepted := by
  unfold getWriter
  split_ifs with hclosed
  · exact ⟨by simp [hclosed], h' (by simp [hclosed])⟩
  · by_cases hactive : os.state = .active
    · obtain ⟨os₁, hflush, hflushed⟩ := flushOut_flushed hArr (h hactive) hactive
      rw [hflush]
      simp [Result.andThen, Result.ok, hflushed.handed]
    · rw [flushOut_of_ended hactive]
      simp [Result.andThen, Result.ok, hactive, h']

/-- With nothing in the old buffer, another one may take its place. -/
theorem Holds.replace (h : Holds os accepted) (hpending : os.bufferMode.pending = [])
    {mode : BufferMode α} (hmode : mode.pending = []) (hok : mode.Ok) :
    Holds { os with bufferMode := mode } accepted := by
  have heq := h.eq
  rw [hpending] at heq
  exact ⟨hok, by rw [← heq]; exact congrArg (os.handed ++ ·) hmode⟩

variable (someElem) in
theorem setBufferMode_holds (hArr : Takes w.writeArr) (h : Holds os accepted)
    (hactive : os.state = .active) {mode : Mode} (hkeeps : ¬Loses os (.setBufferMode mode)) :
    (setBufferMode w someElem mode os).2.state = .active ∧
      Holds (setBufferMode w someElem mode os).2 accepted := by
  have hzero (size : ℕ) (h : ¬0 < size) (array : List α) : array.take size = [] := by
    rw [Nat.eq_zero_of_not_pos h, List.take_zero]
  unfold setBufferMode
  cases mode with
  | noBuf =>
    obtain ⟨os₁, hflush, hflushed⟩ := flushOut_flushed hArr h hactive
    dsimp only
    rw [hflush]
    exact ⟨hflushed.state.trans hactive, hflushed.holds.replace hflushed.pending rfl trivial⟩
  | lineBuf =>
    cases hmode : os.bufferMode with
    | noBuf => exact ⟨hactive, h.replace (by rw [hmode]; rfl) rfl (zero_le _)⟩
    | lineBuf buf => exact ⟨hactive, h⟩
    | blockBuf buf =>
      have hsize : ¬0 < buf.size := fun hpos => hkeeps ⟨hactive, by rw [hmode]; exact hpos⟩
      refine ⟨hactive, h.replace ?_ rfl (zero_le _)⟩
      rw [hmode]
      exact hzero _ hsize _
  | blockBuf =>
    cases hmode : os.bufferMode with
    | noBuf => exact ⟨hactive, h.replace (by rw [hmode]; rfl) rfl (zero_le _)⟩
    | blockBuf buf => exact ⟨hactive, h⟩
    | lineBuf buf =>
      have hsize : ¬0 < buf.size := fun hpos => hkeeps ⟨hactive, by rw [hmode]; exact hpos⟩
      refine ⟨hactive, h.replace ?_ rfl (zero_le _)⟩
      rw [hmode]
      exact hzero _ hsize _

/-- Without a buffer nothing is written. -/
theorem setBufferMode_handed (hmode : getBufferMode os = .noBuf) (mode : Mode) :
    (setBufferMode w someElem mode os).2.handed = os.handed := by
  unfold getBufferMode at hmode
  unfold setBufferMode
  cases hbuf : os.bufferMode with
  | noBuf =>
    cases mode with
    | noBuf =>
      have hflush : flushOut w os = .ok os := by
        simp only [flushOut, hbuf, ite_self]
      dsimp only
      rw [hflush]
      rfl
    | lineBuf | blockBuf => rfl
  | lineBuf | blockBuf => rw [hbuf] at hmode; cases hmode

variable (w someElem) in
theorem setBufferMode_ended (hended : os.state ≠ .active) (mode : Mode) :
    (setBufferMode w someElem mode os).2.state = os.state ∧
      (setBufferMode w someElem mode os).2.handed = os.handed := by
  unfold setBufferMode
  cases mode with
  | noBuf =>
    dsimp only
    rw [flushOut_of_ended hended]
    exact ⟨rfl, rfl⟩
  | lineBuf | blockBuf => cases os.bufferMode <;> exact ⟨rfl, rfl⟩

/-- After the end an output raises, and nothing happens. -/
theorem output_ended (hended : os.state ≠ .active) :
    output w line v os = (.error (.io w.name "output" .closedStream), os) := if_pos hended

theorem output1_ended (hended : os.state ≠ .active) (hkeeps : ¬Loses os (.output1 c)) :
    output1 w line c os = (.error (.io w.name "output" .closedStream), os) := by
  unfold output1
  cases hmode : os.bufferMode with
  | noBuf => exact if_pos hended
  | lineBuf buf | blockBuf buf =>
    have hfull : ¬buf.size < buf.array.length := fun hroom =>
      hkeeps ⟨hended, by rw [hmode]; exact hroom⟩
    simp only [output1Buf, if_neg hfull, if_pos hended, Result.andThen]

/-! ### Steps and runs -/

/-- What holds between two steps. -/
structure Inv (s : Sys α ω) : Prop where
  active : s.out.state = .active → s.ended = false ∧ Holds s.out s.accepted
  stopped : s.out.state ≠ .active → s.ended = true ∧ s.out.handed = s.accepted

theorem Holds.written (h : Holds os accepted) : os.handed <+: accepted := ⟨_, h.eq⟩

theorem Holds.whole (h : Holds os accepted) (hmode : getBufferMode os = .noBuf) :
    os.handed = accepted := by
  have heq := h.eq
  unfold getBufferMode at hmode
  cases hbuf : os.bufferMode with
  | noBuf =>
    rw [hbuf, BufferMode.pending, List.append_nil] at heq
    exact heq
  | lineBuf | blockBuf => rw [hbuf] at hmode; cases hmode

theorem init_inv (mode : Mode) (dev : ω) : Inv (init w someElem mode dev) where
  active _ := ⟨rfl, by cases mode <;> simp [init, mkOutstream, BufferMode.Ok, newBuf],
    by cases mode <;> simp [init, mkOutstream, BufferMode.pending, newBuf]⟩
  stopped h := (h rfl).elim

variable {s : Sys α ω}

/-- An output to an active stream keeps all. -/
theorem Outputs.kept {op : Op α} (hactive : s.out.state = .active)
    (hended : s.ended = false) (helems : op.elems = some v) (hflushes : ¬op.Flushes)
    (hends : op.ends = false) (h : Outputs s.out s.accepted v (op.exec w line someElem s.out)) :
    Kept op s (step w line someElem op s).1 (step w line someElem op s).2 ∧
      Inv (step w line someElem op s).2 := by
  obtain ⟨hstate, hmode, hholds⟩ := h
  have haccepted : (step w line someElem op s).2.accepted = s.accepted ++
      match (op.exec w line someElem s.out).1 with | .ok () => v | .error _ => [] := by
    simp only [step, accepts, helems, getD_some]
  have hholds' : Holds (step w line someElem op s).2.out
      (step w line someElem op s).2.accepted := by
    rw [haccepted]
    exact hholds
  refine ⟨⟨hholds'.written, ?_, ?_⟩, ⟨fun _ => ⟨?_, hholds'⟩, fun h => (h ?_).elim⟩⟩
  · rintro (h | h | h)
    · exact (hflushes h).elim
    · exact hholds'.whole (hmode.trans h)
    · exact hholds'.whole h
  · rw [hended]
    intro h
    cases h
  · simp only [step, hended, hends, Bool.or_self]
  · exact hstate.trans hactive

/-- A step that ends with everything written, and no longer active or as it was. -/
theorem kept_of_handed {op : Op α} (helems : op.elems = none)
    (hhanded : (op.exec w line someElem s.out).2.handed = s.accepted)
    (hactive : (op.exec w line someElem s.out).2.state = .active →
      s.ended = false ∧ op.ends = false ∧ Holds (op.exec w line someElem s.out).2 s.accepted)
    (hstopped : (op.exec w line someElem s.out).2.state ≠ .active →
      s.ended = true ∨ op.ends = true) :
    Kept op s (step w line someElem op s).1 (step w line someElem op s).2 ∧
      Inv (step w line someElem op s).2 := by
  have haccepted : (step w line someElem op s).2.accepted = s.accepted := by
    simp only [step, accepts, helems, getD_none]
    split <;> simp
  have hwhole : (step w line someElem op s).2.out.handed =
      (step w line someElem op s).2.accepted := hhanded.trans haccepted.symm
  refine ⟨⟨by rw [hwhole], fun _ => hwhole, ?_⟩, ⟨fun h => ?_, fun h => ⟨?_, hwhole⟩⟩⟩
  · rw [helems]
    intro _ h
    cases h
  · obtain ⟨hended, hends, hholds⟩ := hactive h
    refine ⟨by simp only [step, hended, hends, Bool.or_self], ?_⟩
    rw [haccepted]
    exact hholds
  · rcases hstopped h with hended | hends
    · simp only [step, hended, Bool.true_or]
    · simp only [step, hends, Bool.or_true]

/-- A step that ends the stream with everything written. -/
theorem kept_of_ends {op : Op α} (helems : op.elems = none) (hends : op.ends = true)
    (h : (op.exec w line someElem s.out).2.state ≠ .active ∧
      (op.exec w line someElem s.out).2.handed = s.accepted) :
    Kept op s (step w line someElem op s).1 (step w line someElem op s).2 ∧
      Inv (step w line someElem op s).2 :=
  kept_of_handed helems h.2 (fun hactive => (h.1 hactive).elim) fun _ => .inr hends

/-- An output that raises after the end keeps all. -/
theorem kept_of_raises {op : Op α} (hinv : Inv s) (hstate : s.out.state ≠ .active)
    {e : Exn} (hraises : op.exec w line someElem s.out = (.error e, s.out))
    (hends : op.ends = false) :
    Kept op s (step w line someElem op s).1 (step w line someElem op s).2 ∧
      Inv (step w line someElem op s).2 := by
  have hstep : step w line someElem op s = (.error e, s) := by
    simp only [step, hraises, hends, accepts, List.append_nil, Bool.or_false]
  obtain ⟨hended, hhanded⟩ := hinv.stopped hstate
  rw [hstep]
  exact ⟨⟨by rw [hhanded], fun _ => hhanded, fun _ _ => ⟨⟨e, rfl⟩, rfl, rfl⟩⟩, hinv⟩

/-- A step that loses nothing keeps what it should, and what holds between steps. -/
theorem step_keeps (hVec : Takes w.writeVec) (hArr : Takes w.writeArr) (hinv : Inv s)
    {op : Op α} (hkeeps : ¬Loses s.out op) :
    Kept op s (step w line someElem op s).1 (step w line someElem op s).2 ∧
      Inv (step w line someElem op s).2 := by
  have hholds (h : s.out.state = .active) : Holds s.out s.accepted := (hinv.active h).2
  have hhanded (h : s.out.state ≠ .active) : s.out.handed = s.accepted := (hinv.stopped h).2
  by_cases hstate : s.out.state = .active
  · obtain ⟨hended, h⟩ := hinv.active hstate
    cases op with
    | output v | outputSlice v =>
      exact (output_outputs hVec hArr h hstate).kept hstate hended rfl id rfl
    | output1 c => exact (output1_outputs hArr h hstate).kept hstate hended rfl id rfl
    | flushOut =>
      obtain ⟨os, hflush, hflushed⟩ := flushOut_flushed hArr h hstate
      have hexec : Op.flushOut.exec w line someElem s.out = .ok os := hflush
      refine kept_of_handed rfl ?_ ?_ ?_
      · rw [hexec]
        exact hflushed.handed
      · rw [hexec]
        exact fun _ => ⟨hended, rfl, hflushed.holds⟩
      · rw [hexec]
        exact fun h => (h (hflushed.state.trans hstate)).elim
    | setBufferMode mode =>
      obtain ⟨hstate', hholds'⟩ :=
        setBufferMode_holds someElem hArr h hstate hkeeps
      have haccepted : (step w line someElem (.setBufferMode mode) s).2.accepted = s.accepted := by
        simp only [step, accepts, Op.elems, getD_none]
        split <;> simp
      have hholds₁ : Holds (step w line someElem (.setBufferMode mode) s).2.out
          (step w line someElem (.setBufferMode mode) s).2.accepted := by
        rw [haccepted]
        exact hholds'
      refine ⟨⟨hholds₁.written, ?_, ?_⟩, ⟨fun _ => ⟨?_, hholds₁⟩, fun h => (h hstate').elim⟩⟩
      · rintro (h₁ | h₁ | h₁)
        · exact h₁.elim
        · rw [haccepted, ← h.whole h₁]
          exact setBufferMode_handed h₁ mode
        · exact hholds₁.whole h₁
      · intro _ h₁
        cases h₁
      · simp only [step, hended, Op.ends, Bool.or_self]
    | getWriter => exact kept_of_ends rfl rfl (getWriter_ended hArr hholds hhanded)
    | closeOut =>
      exact kept_of_ends rfl rfl ((closeOut_ended hArr hholds hhanded).imp_left (·.trans_ne nofun))
  · obtain ⟨hended, h⟩ := hinv.stopped hstate
    cases op with
    | output v | outputSlice v => exact kept_of_raises hinv hstate (output_ended hstate) rfl
    | output1 c => exact kept_of_raises hinv hstate (output1_ended hstate hkeeps) rfl
    | flushOut =>
      have hexec : Op.flushOut.exec w line someElem s.out = .ok s.out := flushOut_of_ended hstate
      refine kept_of_handed rfl ?_ ?_ fun _ => .inl hended
      · rw [hexec]
        exact h
      · rw [hexec]
        exact fun h => (hstate h).elim
    | setBufferMode mode =>
      obtain ⟨hstate', hhanded'⟩ := setBufferMode_ended w someElem hstate mode
      exact kept_of_handed rfl (hhanded'.trans h) (fun h => (hstate (hstate'.symm.trans h)).elim)
        fun _ => .inl hended
    | getWriter => exact kept_of_ends rfl rfl (getWriter_ended hArr hholds hhanded)
    | closeOut =>
      exact kept_of_ends rfl rfl ((closeOut_ended hArr hholds hhanded).imp_left (·.trans_ne nofun))

theorem keptRun_of_inv (hVec : Takes w.writeVec) (hArr : Takes w.writeArr)
    (hinv : Inv s) {ops : List (Op α)} (h : LosesNone w line someElem ops s) :
    KeptRun w line someElem ops s := by
  induction ops generalizing s with
  | nil => trivial
  | cons op ops ih =>
    obtain ⟨hkept, hinv'⟩ := step_keeps hVec hArr hinv h.1
    exact ⟨hkept, ih hinv' h.2⟩

end Proofs

/-- Where no step loses elements, every step of a run keeps what it should. -/
theorem kept_run (w : Writer α ω) (hVec : Takes w.writeVec) (hArr : Takes w.writeArr)
    (line : Option (α → Bool)) (someElem : α) (mode : Mode) (dev : ω) (ops : List (Op α))
    (h : LosesNone w line someElem ops (init w someElem mode dev)) :
    KeptRun w line someElem ops (init w someElem mode dev) :=
  keptRun_of_inv hVec hArr (init_inv mode dev) h

/-! ### Three runs -/

/-- A writer that takes all. -/
def takeAll (chunkSize : ℕ) : Writer Char Unit where
  name := "out"
  chunkSize := chunkSize
  writeVec _ v := (v.length, ())
  writeArr _ v := (v.length, ())
  close := id

theorem takeAll_takes : Takes fun (_ : Unit) (v : List Char) => (v.length, ()) :=
  fun _ _ hv => ⟨length_pos_iff.2 hv, le_rfl⟩

/-- A change of the mode of an empty buffer, and outputs before and after the end. -/
theorem kept_run_close :
    KeptRun (takeAll 2) (some (· = '\n')) '\x00'
      [.output1 'a', .flushOut, .setBufferMode .blockBuf, .closeOut, .output ['b'], .output1 'c']
      (init (takeAll 2) '\x00' .lineBuf ()) := by
  refine kept_run (takeAll 2) takeAll_takes takeAll_takes _ _ .lineBuf () _ ?_
  simp [LosesNone, Loses, step, init, mkOutstream, newBuf, takeAll, Op.exec, output1, output1Buf,
    Outstream.set, BufferMode.set, Result.ok, Result.andThen, Result.lift, hasLine, flushOut,
    flushBuf, flushGen, writeOnce, setBufferMode, closeOut, makeTerminated, output, Except.mapError]

/-- Another mode loses what is in the buffer. -/
theorem not_kept_setBufferMode :
    ¬KeptRun (takeAll 4) (some (· = '\n')) '\x00'
      [.output1 'a', .setBufferMode .lineBuf, .flushOut]
      (init (takeAll 4) '\x00' .blockBuf ()) := by
  rintro ⟨-, -, hkept, -⟩
  have hwhole := hkept.whole (.inl trivial)
  simp [init, mkOutstream, newBuf, takeAll, Op.elems, Outstream.set, BufferMode.set, Result.ok,
    flushGen, accepts] at hwhole

end MultiMLton.Basis.OutStream
