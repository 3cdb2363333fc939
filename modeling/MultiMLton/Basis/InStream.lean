import MultiMLton.Lib.Fuel

/-!
# Input streams

The instreams of `io/stream-io.fun`. A reference is a natural number, and the heap has a cell for
each. A vector is the list of its elements; `base` of a buffer, which only positions use, is left
out. A loop has as many turns as it has fuel.
-/

namespace MultiMLton.Basis.InStream

variable {α : Type}

inductive Exn
  | blockingNotSupported
  | nonblockingNotSupported
  | match
  | option
  | overflow
  | size
  | fail (message : String)
  | io (name function : String) (cause : Exn)
  deriving DecidableEq

/-- The largest `Int`, and the length of the longest vector. -/
structure Sizes where
  maxInt : ℕ
  maxLen : ℕ

/-- `Int.+` of natural numbers -/
def Sizes.add (z : Sizes) (i j : ℕ) : Except Exn ℕ :=
  if i + j ≤ z.maxInt then .ok (i + j) else .error .overflow

/-- `reader`: the vectors it reads one after the other, and whether one is there each time it is
asked without blocking. -/
structure Reader (α : Type) where
  name : String
  blocking : Bool
  nonblocking : Bool
  chunk : ℕ → List α
  ready : ℕ → Bool

/-- `buf`; `next` is a reference. -/
structure Buf (α : Type) where
  inp : List α
  next : ℕ
  deriving DecidableEq

/-- `state` -/
inductive Cell (α : Type)
  | link (buf : Buf α)
  | eos (buf : Buf α)
  | end'
  | truncated
  | closed

structure Instream (α : Type) where
  pos : ℕ
  buf : Buf α
  deriving DecidableEq

/-- The references, the one that `tail` refers to, and how often the reader has read and has been
asked without blocking. -/
structure Heap (α : Type) where
  cells : List (Cell α)
  tail : ℕ
  reads : ℕ
  polls : ℕ

def Heap.get (h : Heap α) (r : ℕ) : Cell α := h.cells.getD r .closed

def Instream.updatePos (is : Instream α) (pos : ℕ) : Instream α := { is with pos := pos }

def updateBufBeg (buf : Buf α) : Instream α := ⟨0, buf⟩

def updateBufEnd (buf : Buf α) : Instream α := ⟨buf.inp.length, buf⟩

/-- What a function returns or raises, and the heap then. -/
abbrev Result (α ρ : Type) := Except Exn ρ × Heap α

section Code

variable (z : Sizes) (rd : Reader α) (line : Option ((α → Bool) × α))

/-! ### Reading -/

/-- `link` of `extend`, with the next vector of the reader -/
def link (h : Heap α) : Cell α × Heap α :=
  let inp := rd.chunk h.reads
  let next := h.cells.length
  let buf : Buf α := ⟨inp, next⟩
  let this := if inp.length = 0 then .eos buf else .link buf
  (this, { h with cells := h.cells.set h.tail this ++ [.end'], tail := next, reads := h.reads + 1 })

def extend (function : String) (blocking : Bool) (h : Heap α) : Result α (Option (Cell α)) :=
  match h.get h.tail with
  | .end' =>
    if blocking then
      if rd.blocking then (.ok (some (link rd h).1), (link rd h).2)
      else (.error (.io rd.name function .blockingNotSupported), h)
    else if rd.nonblocking then
      let asked := { h with polls := h.polls + 1 }
      if rd.ready h.polls then (.ok (some (link rd asked).1), (link rd asked).2)
      else (.ok none, asked)
    else (.error (.io rd.name function .nonblockingNotSupported), h)
  | _ => (.error (.io rd.name function .match), h)

def extendB (function : String) (h : Heap α) : Result α (Cell α) :=
  match extend rd function true h with
  | (.ok (some this), h) => (.ok this, h)
  | (.ok none, h) => (.error .option, h)
  | (.error e, h) => (.error e, h)

def extendNB (function : String) (h : Heap α) : Result α (Option (Cell α)) :=
  extend rd function false h

/-- `!next`, or at the end what `extendB` returns, which `doit` looks at then. -/
def force (function : String) (next : ℕ) (h : Heap α) : Result α (Cell α) :=
  match h.get next with
  | .end' => extendB rd function h
  | this => (.ok this, h)

/-! ### `input`, `inputN`, `input1'` and `inputAll` -/

def input (is : Instream α) (h : Heap α) : Option (Result α (List α × Instream α)) :=
  if is.pos < is.buf.inp.length then
    some (.ok (is.buf.inp.drop is.pos, updateBufEnd is.buf), h)
  else
    match force rd "input" is.buf.next h with
    | (.ok (.link buf), h) => some (.ok (buf.inp, updateBufEnd buf), h)
    | (.ok (.eos buf), h) => some (.ok ([], updateBufBeg buf), h)
    | (.ok .end', _) => none
    | (.ok _, h) => some (.ok ([], is), h)
    | (.error e, h) => some (.error e, h)

/-- `finish` of `inputN` -/
def finish (inps : List (List α)) (is : Instream α) : List α × Instream α :=
  (inps.reverse.flatten, is)

/-- `loop` of `inputN` -/
def inputNLoop : ℕ → Buf α → List (List α) → ℕ → Heap α → Option (Result α (List α × Instream α))
  | 0, _, _, _, _ => none
  | fuel + 1, buf', inps, n, h =>
    match force rd "inputN" buf'.next h with
    | (.ok (.link buf), h) =>
      if n ≤ buf.inp.length then some (.ok (finish (buf.inp.take n :: inps) ⟨n, buf⟩), h)
      else inputNLoop fuel buf (buf.inp :: inps) (n - buf.inp.length) h
    | (.ok (.eos buf), h) =>
      some (.ok (finish inps (if n > 0 then updateBufBeg buf else updateBufEnd buf')), h)
    | (.ok .end', _) => none
    | (.ok _, h) => some (.ok (finish inps (updateBufEnd buf')), h)
    | (.error e, h) => some (.error e, h)

def inputN (fuel : ℕ) (is : Instream α) (n : ℤ) (h : Heap α) :
    Option (Result α (List α × Instream α)) :=
  if n < 0 ∨ n > z.maxLen then some (.error .size, h)
  else
    let n := n.toNat
    match z.add is.pos n with
    | .error e => some (.error e, h)
    | .ok i =>
      if i ≤ is.buf.inp.length then
        some (.ok ((is.buf.inp.drop is.pos).take n, is.updatePos i), h)
      else
        inputNLoop rd fuel is.buf [is.buf.inp.drop is.pos] (n - (is.buf.inp.length - is.pos)) h

def input1' : ℕ → Instream α → Heap α → Option (Result α (Option α × Instream α))
  | 0, _, _ => none
  | fuel + 1, is, h =>
    match is.buf.inp[is.pos]? with
    | some e => some (.ok (some e, is.updatePos (is.pos + 1)), h)
    | none =>
      match force rd "input1" is.buf.next h with
      | (.ok (.link buf), h) => input1' fuel (updateBufBeg buf) h
      | (.ok (.eos buf), h) => some (.ok (none, updateBufBeg buf), h)
      | (.ok .end', _) => none
      | (.ok _, h) => some (.ok (none, is), h)
      | (.error e, h) => some (.error e, h)

/-- `loop` of `inputAll` -/
def inputAllLoop : ℕ → Instream α → List (List α) → Heap α →
    Option (Result α (List α × Instream α))
  | 0, _, _, _ => none
  | fuel + 1, is, ac, h =>
    match input rd is h with
    | some (.ok (inp, is'), h) =>
      if inp.length = 0 then some (.ok (ac.reverse.flatten, is'), h)
      else inputAllLoop fuel is' (inp :: ac) h
    | some (.error e, h) => some (.error e, h)
    | none => none

def inputAll (fuel : ℕ) (is : Instream α) (h : Heap α) : Option (Result α (List α × Instream α)) :=
  inputAllLoop rd fuel is [] h

def endOfStream (is : Instream α) (h : Heap α) : Option (Result α Bool) :=
  match input rd is h with
  | some (.ok (inp, _), h) => some (.ok (decide (inp.length = 0)), h)
  | some (.error e, h) => some (.error e, h)
  | none => none

/-! ### `inputLine` -/

/-- `loop` of `findLine`, with the elements from `i` on -/
def findLineLoop (isLine : α → Bool) : List α → ℕ → Option ℕ
  | [], _ => none
  | c :: cs, i => if isLine c then some (i + 1) else findLineLoop isLine cs (i + 1)

def findLine (isLine : α → Bool) (v : List α) (i : ℕ) : Option ℕ :=
  findLineLoop isLine (v.drop i) i

/-- `finish` of `inputLine` -/
def finishLine (lineElem : α) (inps : List (List α)) (is : Instream α) (trail : Bool) :
    Option (List α × Instream α) :=
  let inps := if trail then [lineElem] :: inps else inps
  some (inps.reverse.flatten, is)

/-- `loop` of `inputLine` -/
def lineLoop (isLine : α → Bool) (lineElem : α) :
    ℕ → Buf α → List (List α) → Heap α → Option (Result α (Option (List α × Instream α)))
  | 0, _, _, _ => none
  | fuel + 1, buf', inps, h =>
    match force rd "inputLine" buf'.next h with
    | (.ok (.link buf), h) =>
      match findLine isLine buf.inp 0 with
      | some i => some (.ok (finishLine lineElem (buf.inp.take i :: inps) ⟨i, buf⟩ false), h)
      | none => lineLoop isLine lineElem fuel buf (buf.inp :: inps) h
    | (.ok .end', _) => none
    | (.ok _, h) => some (.ok (finishLine lineElem inps (updateBufEnd buf') true), h)
    | (.error e, h) => some (.error e, h)

/-- `first` of `inputLine` -/
def lineFirst (isLine : α → Bool) (lineElem : α) :
    ℕ → Instream α → Heap α → Option (Result α (Option (List α × Instream α)))
  | 0, _, _ => none
  | fuel + 1, is, h =>
    match findLine isLine is.buf.inp is.pos with
    | some i =>
      some (.ok (some ((is.buf.inp.drop is.pos).take (i - is.pos), is.updatePos i)), h)
    | none =>
      if is.pos < is.buf.inp.length then
        lineLoop rd isLine lineElem fuel is.buf [is.buf.inp.drop is.pos] h
      else
        match force rd "inputLine" is.buf.next h with
        | (.ok (.link buf), h) => lineFirst isLine lineElem fuel (updateBufBeg buf) h
        | (.ok .end', _) => none
        | (.ok _, h) => some (.ok none, h)
        | (.error e, h) => some (.error e, h)

def inputLine (fuel : ℕ) (is : Instream α) (h : Heap α) :
    Option (Result α (Option (List α × Instream α))) :=
  match line with
  | none => (input rd is h).map fun r => (r.1.map some, r.2)
  | some (isLine, lineElem) => lineFirst rd isLine lineElem fuel is h

/-! ### `canInput` -/

/-- `add` of `canInput`, with `loop` -/
def add (n : ℕ) : ℕ → List (List α) → List α → ℕ → Heap α → Option (Result α (List α × ℕ))
  | 0, _, _, _, _ => none
  | fuel + 1, inps, inp, k, h =>
    let inps := inp :: inps
    match z.add k inp.length with
    | .error e => some (.error e, h)
    | .ok k' =>
      if k' > n then some (.ok (inps.reverse.flatten, n), h)
      else
        match extendNB rd "canInput" h with
        | (.ok none, h) => some (.ok (inps.reverse.flatten, k'), h)
        | (.ok (some (.link buf)), h) => add n fuel inps buf.inp k' h
        | (.ok (some (.eos _)), h) => some (.ok (inps.reverse.flatten, k'), h)
        | (.ok _, h) => some (.error (.fail "extendNB bug"), h)
        | (.error e, h) => some (.error e, h)

/-- `next := Link {buf = buf}`, with a new reference for the end -/
def merge (next : ℕ) (inp : List α) (h : Heap α) : Heap α :=
  { h with cells := h.cells.set next (.link ⟨inp, h.cells.length⟩) ++ [.end'] }

def canInput (fuel : ℕ) (is : Instream α) (n : ℤ) (h : Heap α) : Option (Result α (Option ℕ)) :=
  if n < 0 ∨ n > z.maxLen then some (.error .size, h)
  else if n = 0 then some (.ok (some 0), h)
  else
    let n := n.toNat
    if is.pos < is.buf.inp.length then some (.ok (some (min (is.buf.inp.length - is.pos) n)), h)
    else
      match h.get is.buf.next with
      | .end' =>
        match extendNB rd "canInput" h with
        | (.ok none, h) => some (.ok none, h)
        | (.ok (some (.link buf)), h) =>
          match add z rd n fuel [] buf.inp 0 h with
          | some (.ok (inp, k), h) => some (.ok (some k), merge is.buf.next inp h)
          | some (.error e, h) => some (.error e, h)
          | none => none
        | (.ok (some (.eos _)), h) => some (.ok (some 0), h)
        | (.ok _, h) => some (.error (.fail "extendNB bug"), h)
        | (.error e, h) => some (.error e, h)
      | _ => some (.ok (some 0), h)

end Code

/-- `mkInstream'` of a reader that is not closed: the stream and the heap. -/
def mkInstream' (bufferContents : Option (List α)) : Instream α × Heap α :=
  match bufferContents with
  | none => (⟨0, [], 0⟩, ⟨[.end'], 0, 0, 0⟩)
  | some v =>
    if v.length = 0 then (⟨0, [], 0⟩, ⟨[.eos ⟨[], 1⟩, .end'], 1, 0, 0⟩)
    else (⟨0, v, 0⟩, ⟨[.end'], 0, 0, 0⟩)

end MultiMLton.Basis.InStream
