import Mathlib
import MultiMLton.Atoms.Prim

/-!
# The register-transfer language RSSA

The programs of `backend/rssa.fun` that chunkification and the insertion of limit checks work on.
Types, profiling expressions and the parts of operands that no pass looks at are left out.

Function names, labels and variables are of types `F`, `L` and `V`; `ν` names the primitives that the
folder of `Prim.apply` does not know.
-/

namespace MultiMLton.Backend

open MultiMLton.Atoms List

namespace Rssa

/-- `Runtime.GCField.t`, as far as heap and stack limits are concerned. -/
inductive GCField
  | frontier
  | limit
  | limitPlusSlop
  | stackLimit
  | stackTop
  | other (name : String)
  deriving DecidableEq

/-- `Operand.t` -/
inductive Operand (V : Type)
  | arrayOffset (base index : Operand V) (offset scale : ℕ)
  | cast (z : Operand V)
  | const (c : Const)
  | ensuresBytesFree
  | file
  | gcState
  | line
  | objptrTycon (index : ℕ)
  | offset (base : Operand V) (offset : ℤ)
  | runtime (field : GCField)
  | var (x : V)
  deriving DecidableEq

/-- `CFunction.t`: which argument is the number of bytes it needs, and whether it takes the number
of bytes to leave free. -/
structure CFunction where
  bytesNeeded : Option ℕ
  ensuresBytesFree : Bool
  mayGC : Bool
  maySwitchThreads : Bool
  target : String
  deriving DecidableEq

/-- `Statement.t` -/
inductive Statement (V L ν : Type)
  | bind (dst : V) (isMutable : Bool) (src : Operand V)
  | move (dst src : Operand V)
  | object (dst : V) (size : ℕ)
  | primApp (args : List (Operand V)) (dst : Option V) (prim : Prim ν)
  | profile
  | profileLabel
  | setExnStackLocal
  | setExnStackSlot
  | setHandler (l : L)
  | setSlotExnStack

/-- `Handler.t` -/
inductive Handler (L : Type)
  | caller
  | dead
  | handle (l : L)

/-- `Return.t` -/
inductive Return (L : Type)
  | dead
  | nonTail (cont : L) (handler : Handler L)
  | tail

/-- `Switch.t` -/
structure Switch (V L : Type) where
  cases : List (WordX × L)
  default : Option L
  size : WordSize
  test : Operand V

/-- `Switch.foreachLabel` -/
def Switch.labels {V L : Type} (s : Switch V L) : List L :=
  s.default.toList ++ s.cases.map Prod.snd

/-- `Transfer.t` -/
inductive Transfer (F L V ν : Type)
  | arith (args : List (Operand V)) (dst : V) (overflow : L) (prim : Prim ν) (success : L)
  | ccall (args : List (Operand V)) (func : CFunction) (ret : Option L)
  | call (args : List (Operand V)) (func : F) (ret : Return L)
  | goto (args : List (Operand V)) (dst : L)
  | raise (args : List (Operand V))
  | ret (args : List (Operand V))
  | switch (s : Switch V L)

variable {F L V ν : Type}

/-- The labels a transfer continues at, apart from calls of RSSA functions. -/
def Transfer.jumps : Transfer F L V ν → List L
  | .arith _ _ overflow _ success => [overflow, success]
  | .ccall _ _ r => r.toList
  | .goto _ dst => [dst]
  | .switch s => s.labels
  | .call _ _ _ | .raise _ | .ret _ => []

/-- `Return.foldLabel` -/
def Return.labels : Return L → List L
  | .nonTail cont (.handle h) => [cont, h]
  | .nonTail cont _ => [cont]
  | .dead | .tail => []

/-- `Transfer.foreachLabel` -/
def Transfer.labels : Transfer F L V ν → List L
  | .call _ _ r => r.labels
  | t => t.jumps

theorem Transfer.mem_labels_of_mem_jumps {t : Transfer F L V ν} {l : L} (h : l ∈ t.jumps) :
    l ∈ t.labels := by
  cases t with
  | call args func r => cases h
  | _ => exact h

/-- `Kind.t` -/
inductive Kind (L : Type)
  | cont (handler : Handler L)
  | creturn (func : CFunction)
  | handler
  | jump

/-- `Block.t` -/
structure Block (F L V ν : Type) where
  args : List V
  kind : Kind L
  label : L
  statements : List (Statement V L ν)
  transfer : Transfer F L V ν

/-- `Function.t` -/
structure Function (F L V ν : Type) where
  args : List V
  blocks : List (Block F L V ν)
  name : F
  start : L

def Function.labels (f : Function F L V ν) : List L := f.blocks.map Block.label

/-- `Program.t` -/
structure Program (F L V ν : Type) where
  functions : List (Function F L V ν)
  main : Function F L V ν

/-- All functions of a program, the main function first. -/
def Program.all (p : Program F L V ν) : List (Function F L V ν) := p.main :: p.functions

def Program.names (p : Program F L V ν) : List F := p.all.map Function.name

def Program.labels (p : Program F L V ν) : List L := p.all.flatMap Function.labels

/-- What `Program.checkScopes` and the type checker require of names and labels. -/
structure Program.WellFormed (p : Program F L V ν) : Prop where
  names_nodup : p.names.Nodup
  labels_nodup : p.labels.Nodup
  start_mem : ∀ f ∈ p.all, f.start ∈ f.labels
  jumps_mem : ∀ f ∈ p.all, ∀ b ∈ f.blocks, ∀ l ∈ b.transfer.labels, l ∈ f.labels
  func_mem : ∀ f ∈ p.all, ∀ b ∈ f.blocks, ∀ args g ret,
    b.transfer = .call args g ret → g ∈ p.names

/-! ### Looking up functions and blocks -/

section

variable [DecidableEq F]

def func? (p : Program F L V ν) (name : F) : Option (Function F L V ν) :=
  p.all.find? fun f => decide (f.name = name)

variable {p : Program F L V ν} {f : Function F L V ν} {name : F}

theorem func?_spec (h : func? p name = some f) : f ∈ p.all ∧ f.name = name :=
  ⟨mem_of_find?_eq_some h, by simpa using find?_some h⟩

theorem func?_of_mem (hnodup : p.names.Nodup) (hf : f ∈ p.all) : func? p f.name = some f := by
  cases h : func? p f.name with
  | none => simpa using find?_eq_none.mp h f hf
  | some g =>
    obtain ⟨hg, hname⟩ := func?_spec h
    rw [inj_on_of_nodup_map hnodup hg hf hname]

end

section

variable [DecidableEq L]

def block? (f : Function F L V ν) (label : L) : Option (Block F L V ν) :=
  f.blocks.find? fun b => decide (b.label = label)

variable {f : Function F L V ν} {b : Block F L V ν} {label : L}

theorem block?_spec (h : block? f label = some b) : b ∈ f.blocks ∧ b.label = label :=
  ⟨mem_of_find?_eq_some h, by simpa using find?_some h⟩

theorem exists_block? {l : L} (h : l ∈ f.labels) : ∃ b, block? f l = some b := by
  obtain ⟨b, hb, rfl⟩ := mem_map.mp h
  cases hfind : block? f b.label with
  | none => simpa using find?_eq_none.mp hfind b hb
  | some b' => exact ⟨b', rfl⟩

end

end Rssa

end MultiMLton.Backend
