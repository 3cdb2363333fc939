import MultiMLton.Atoms.Prim

/-!
# The intermediate language SSA

The programs of `ssa/ssa-tree.fun`. Variables, labels, functions and type constructors are numbers.
Profiling expressions keep no data, and of primitives that `Prim.apply` does not name only the kind
is kept, apart from the few that a pass asks for.

* `Transfer.labels`, `Exp.vars`, `Transfer.vars`: the labels and variables a pass goes through;
* `Exp.replaceVar`, `Transfer.replaceVar`: replacing the variables that are used.
-/

namespace MultiMLton.Ssa

open MultiMLton.Atoms

abbrev Var := ℕ
abbrev Label := ℕ
abbrev Func := ℕ
abbrev Tycon := ℕ
abbrev Con := Atoms.Con ℕ

/-- `Kind.t` of `atoms/prim.fun` -/
inductive Kind
  | dependsOnState
  | functional
  | moveable
  | sideEffect
  deriving DecidableEq

/-- The primitives that `Prim.apply` does not name. -/
inductive OtherPrim
  | arrayArray
  | arrayLength
  | arrayToVector
  | mltonBogus
  | refAssign
  | refDeref
  | refRef
  | named (name : String) (kind : Kind)
  deriving DecidableEq

deriving instance DecidableEq for Atoms.Prim

abbrev Prim := Atoms.Prim OtherPrim

namespace Prim

/-- `Prim.kind` -/
def kind : Prim → Kind
  | .wordAddCheck _ _ | .wordMulCheck _ _ | .wordNegCheck _ | .wordSubCheck _ _ => .sideEffect
  | .other .arrayArray | .other .refRef => .moveable
  | .other .arrayLength | .other .mltonBogus => .functional
  | .other .arrayToVector | .other .refDeref => .dependsOnState
  | .other .refAssign => .sideEffect
  -- These depend on the rounding mode.
  | .realArith _ _ | .realMath _ _ | .wordRndToReal _ _ _ => .dependsOnState
  | .other (.named _ k) => k
  | _ => .functional

/-- `Prim.isFunctional` -/
def isFunctional (p : Prim) : Bool := decide (kind p = .functional)

end Prim

/-- `Type.t` -/
inductive Ty
  | array (t : Ty)
  | cpointer
  | datatype (tycon : Tycon)
  | intInf
  | real (bits : ℕ)
  | ref (t : Ty)
  | thread
  | tuple (ts : List Ty)
  | vector (t : Ty)
  | weak (t : Ty)
  | word (s : WordSize)

namespace Ty

mutual

/-- `same`, by which types that are the same tree become one. -/
def same : Ty → Ty → Bool
  | array t1, array t2 => same t1 t2
  | cpointer, cpointer => true
  | datatype t1, datatype t2 => decide (t1 = t2)
  | intInf, intInf => true
  | real s1, real s2 => decide (s1 = s2)
  | ref t1, ref t2 => same t1 t2
  | thread, thread => true
  | tuple ts1, tuple ts2 => sames ts1 ts2
  | vector t1, vector t2 => same t1 t2
  | weak t1, weak t2 => same t1 t2
  | word s1, word s2 => decide (s1 = s2)
  | _, _ => false

def sames : List Ty → List Ty → Bool
  | [], [] => true
  | t1 :: ts1, t2 :: ts2 => same t1 t2 && sames ts1 ts2
  | _, _ => false

end

mutual

theorem same_iff (t t' : Ty) : same t t' = true ↔ t = t' := by
  cases t with
  | array t | ref t | vector t | weak t => cases t' <;> simp [same, same_iff t]
  | tuple ts => cases t' <;> simp [same, sames_iff ts]
  | _ => cases t' <;> simp [same]

theorem sames_iff (ts ts' : List Ty) : sames ts ts' = true ↔ ts = ts' := by
  cases ts with
  | nil => cases ts' <;> simp [sames]
  | cons t ts => cases ts' <;> simp [sames, same_iff t, sames_iff ts]

end

instance : DecidableEq Ty := fun t t' => decidable_of_iff _ (same_iff t t')

/-- `Type.bool` -/
def bool : Ty := datatype 0

def unit : Ty := tuple []

end Ty

/-- `Exp.t` -/
inductive Exp
  | conApp (con : Con) (args : List Var)
  | const (c : Const)
  | primApp (prim : Prim) (targs : List Ty) (args : List Var)
  | profile
  | select (offset : ℕ) (tuple : Var)
  | tuple (xs : List Var)
  | var (x : Var)
  deriving DecidableEq

namespace Exp

/-- `Exp.foreachVar` -/
def vars : Exp → List Var
  | conApp _ args | primApp _ _ args => args
  | const _ | profile => []
  | select _ x | var x => [x]
  | tuple xs => xs

/-- `Exp.replaceVar` -/
def replaceVar (f : Var → Var) : Exp → Exp
  | conApp c args => conApp c (args.map f)
  | const c => const c
  | primApp p ts args => primApp p ts (args.map f)
  | profile => profile
  | select i x => select i (f x)
  | tuple xs => tuple (xs.map f)
  | var x => var (f x)

end Exp

/-- `Statement.t` -/
structure Statement where
  var : Option Var
  ty : Ty
  exp : Exp
  deriving DecidableEq

/-- `Cases.t` -/
inductive Cases
  | con (cs : List (Con × Label))
  | word (s : WordSize) (cs : List (WordX × Label))
  deriving DecidableEq

/-- `Cases.foreach` -/
def Cases.labels : Cases → List Label
  | con cs => cs.map Prod.snd
  | word _ cs => cs.map Prod.snd

/-- `Handler.t` -/
inductive Handler
  | caller
  | dead
  | handle (l : Label)
  deriving DecidableEq

/-- `Handler.foreachLabel` -/
def Handler.labels : Handler → List Label
  | caller | dead => []
  | handle l => [l]

/-- `Return.t` -/
inductive Return
  | dead
  | nonTail (cont : Label) (handler : Handler)
  | tail
  deriving DecidableEq

/-- `Return.foreachLabel` -/
def Return.labels : Return → List Label
  | dead | tail => []
  | nonTail cont handler => cont :: handler.labels

/-- `Transfer.t` -/
inductive Transfer
  | arith (prim : Prim) (args : List Var) (overflow success : Label) (ty : Ty)
  | bug
  | call (func : Func) (args : List Var) (ret : Return)
  | case (test : Var) (cases : Cases) (default : Option Label)
  | goto (dst : Label) (args : List Var)
  | raise (xs : List Var)
  | ret (xs : List Var)
  | runtime (prim : Prim) (args : List Var) (ret : Label)
  deriving DecidableEq

namespace Transfer

/-- `Transfer.foreachLabel` -/
def labels : Transfer → List Label
  | arith _ _ overflow success _ => [overflow, success]
  | bug | raise _ | ret _ => []
  | call _ _ r => r.labels
  | case _ cases default => cases.labels ++ default.toList
  | goto dst _ => [dst]
  | runtime _ _ l => [l]

/-- `Transfer.foreachVar` -/
def vars : Transfer → List Var
  | arith _ args _ _ _ | call _ args _ | goto _ args | runtime _ args _ => args
  | bug => []
  | case test _ _ => [test]
  | raise xs | ret xs => xs

/-- `Transfer.replaceVar` -/
def replaceVar (f : Var → Var) : Transfer → Transfer
  | arith p args overflow success ty => arith p (args.map f) overflow success ty
  | bug => bug
  | call func args r => call func (args.map f) r
  | case test cases default => case (f test) cases default
  | goto dst args => goto dst (args.map f)
  | raise xs => raise (xs.map f)
  | ret xs => ret (xs.map f)
  | runtime p args l => runtime p (args.map f) l

end Transfer

/-- `Block.t` -/
structure Block where
  args : List (Var × Ty)
  label : Label
  statements : List Statement
  transfer : Transfer
  deriving DecidableEq

/-- `Function.t` -/
structure Function where
  args : List (Var × Ty)
  blocks : List Block
  mayInline : Bool
  name : Func
  raises : Option (List Ty)
  returns : Option (List Ty)
  start : Label
  deriving DecidableEq

/-- `Datatype.t` -/
structure Datatype where
  tycon : Tycon
  cons : List (Con × List Ty)
  deriving DecidableEq

/-- `Program.t` -/
structure Program where
  datatypes : List Datatype
  globals : List Statement
  functions : List Function
  main : Func
  deriving DecidableEq

namespace Program

/-- The function with a name. -/
def func? (P : Program) (f : Func) : Option Function := P.functions.find? (·.name = f)

/-- The blocks of all functions; labels are not shared between functions. -/
def blocks (P : Program) : List Block := P.functions.flatMap Function.blocks

/-- The block with a label. -/
def block? (P : Program) (l : Label) : Option Block := P.blocks.find? (·.label = l)

/-- The lists of formals of functions and labels. -/
def formalLists (P : Program) : List (List (Var × Ty)) :=
  P.functions.flatMap fun f => f.args :: f.blocks.map Block.args

/-- All variables a program binds: globals, formals, and what statements define. -/
def defs (P : Program) : List Var :=
  P.globals.filterMap Statement.var ++ P.formalLists.flatMap (fun xs => xs.map Prod.fst) ++
    P.blocks.flatMap fun b => b.statements.filterMap Statement.var

end Program

end MultiMLton.Ssa
