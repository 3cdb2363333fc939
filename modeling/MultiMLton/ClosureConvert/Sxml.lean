import MultiMLton.Ssa.Tree
import Mathlib.Data.Finset.Basic
import Mathlib.Data.Finset.Union

/-!
# The intermediate language SXML

The expressions of `xml/xml-tree.fun` that are left after monomorphisation: variables have no type
arguments. The declarations of an expression are nested, one `let` each. Profiling expressions and
regions keep no data.

* `Exp.free`: the variables that occur free, where an overflow raises the variable `o`;
* `Exp.binders`: the variables that are bound, in lambdas too;
* `Exp.sites`: the places of lambdas.
-/

namespace MultiMLton.Sxml

open MultiMLton.Atoms

abbrev Var := ℕ
abbrev Con := Atoms.Con ℕ
abbrev Prim := Ssa.Prim

/-- The type constructors. -/
inductive Tycon
  | array
  | arrow
  | reff
  | tuple
  | vector
  | named (n : ℕ)
  deriving DecidableEq

/-- `Type.t` -/
inductive Ty
  | con (c : Tycon) (ts : List Ty)
  | var (a : ℕ)

/-- `Pat.t` -/
inductive Pat
  | con (c : Con) (arg : Option Var)
  | word (w : WordX)
  deriving DecidableEq

/-- The variable that a pattern binds. -/
def Pat.vars : Pat → List Var
  | .con _ (some x) => [x]
  | _ => []

mutual

/-- `let` declarations `in` a variable. -/
inductive Exp
  | result (x : Var)
  | dec (d : Dec) (e : Exp)

/-- `Dec.t` -/
inductive Dec
  | exception (con : Con) (arg : Option Ty)
  /-- `Fun` -/
  | func (decs : Funs)
  | monoVal (var : Var) (ty : Ty) (exp : PrimExp)
  | polyVal (var : Var) (ty : Ty) (exp : Exp)

/-- A group of recursive functions. -/
inductive Funs
  | nil
  | cons (var : Var) (lambda : Lambda) (decs : Funs)

/-- `PrimExp.t` -/
inductive PrimExp
  | app (func arg : Var)
  | case (test : Var) (cases : Cases) (default : Default)
  | conApp (con : Con) (arg : Option Var)
  | const (c : Const)
  | handle (body : Exp) (catch_ : Var) (handler : Exp)
  | lambda (l : Lambda)
  | primApp (prim : Prim) (args : List Var)
  | profile
  | raise (exn : Var)
  | select (tuple : Var) (offset : ℕ)
  | tuple (xs : List Var)
  | var (x : Var)

inductive Cases
  | nil
  | cons (p : Pat) (e : Exp) (cases : Cases)

inductive Default
  | none
  | some (e : Exp)

/-- A lambda, with its property list. -/
inductive Lambda
  | mk (plist : ℕ) (arg : Var) (body : Exp)

end

def Lambda.plist : Lambda → ℕ
  | .mk p _ _ => p

def Lambda.arg : Lambda → Var
  | .mk _ x _ => x

def Lambda.body : Lambda → Exp
  | .mk _ _ e => e

def Funs.toList : Funs → List (Var × Lambda)
  | .nil => []
  | .cons x l ds => (x, l) :: ds.toList

/-- The functions of a group. -/
def Funs.vars (ds : Funs) : List Var := ds.toList.map Prod.fst

/-- The variables that a declaration binds in what follows. -/
def Dec.vars : Dec → List Var
  | .exception _ _ => []
  | .func ds => ds.vars
  | .monoVal x _ _ => [x]
  | .polyVal x _ _ => [x]

section Free

variable (o : Var)

mutual

def Exp.free : Exp → Finset Var
  | .result x => {x}
  | .dec d e => d.free ∪ (e.free \ d.vars.toFinset)

def Dec.free : Dec → Finset Var
  | .exception _ _ => ∅
  | .func ds => ds.free \ ds.vars.toFinset
  | .monoVal _ _ e => e.free
  | .polyVal _ _ e => e.free

/-- The free variables of the functions of a group, among them its own. -/
def Funs.free : Funs → Finset Var
  | .nil => ∅
  | .cons _ l ds => l.free ∪ ds.free

def PrimExp.free : PrimExp → Finset Var
  | .app func arg => {func, arg}
  | .case test cases default => {test} ∪ (default.free ∪ cases.free)
  | .conApp _ arg => arg.toFinset
  | .const _ => ∅
  | .handle body x handler => body.free ∪ (handler.free \ {x})
  | .lambda l => l.free
  | .primApp prim args => (if prim.mayOverflow then {o} else ∅) ∪ args.toFinset
  | .profile => ∅
  | .raise exn => {exn}
  | .select tuple _ => {tuple}
  | .tuple xs => xs.toFinset
  | .var x => {x}

def Cases.free : Cases → Finset Var
  | .nil => ∅
  | .cons p e cases => (e.free \ p.vars.toFinset) ∪ cases.free

def Default.free : Default → Finset Var
  | .none => ∅
  | .some e => e.free

def Lambda.free : Lambda → Finset Var
  | .mk _ x e => e.free \ {x}

end

end Free

mutual

def Exp.binders : Exp → List Var
  | .result _ => []
  | .dec d e => d.binders ++ e.binders

def Dec.binders : Dec → List Var
  | .exception _ _ => []
  | .func ds => ds.vars ++ ds.binders
  | .monoVal x _ e => e.binders ++ [x]
  | .polyVal x _ e => e.binders ++ [x]

/-- The variables bound in the functions of a group. -/
def Funs.binders : Funs → List Var
  | .nil => []
  | .cons _ l ds => l.binders ++ ds.binders

def PrimExp.binders : PrimExp → List Var
  | .case _ cases default => default.binders ++ cases.binders
  | .handle body x handler => body.binders ++ x :: handler.binders
  | .lambda l => l.binders
  | _ => []

def Cases.binders : Cases → List Var
  | .nil => []
  | .cons p e cases => p.vars ++ e.binders ++ cases.binders

def Default.binders : Default → List Var
  | .none => []
  | .some e => e.binders

def Lambda.binders : Lambda → List Var
  | .mk _ x e => x :: e.binders

end

/-- A place of lambdas: one alone, or a group. -/
inductive Site
  | val (l : Lambda)
  | group (ds : Funs)

/-- The property lists of the functions of a group. -/
def Funs.plists (ds : Funs) : List ℕ := ds.toList.map fun d => d.2.plist

/-- The property lists of the lambdas of a place. -/
def Site.plists : Site → List ℕ
  | .val l => [l.plist]
  | .group ds => ds.plists

mutual

def Exp.sites : Exp → List Site
  | .result _ => []
  | .dec d e => d.sites ++ e.sites

def Dec.sites : Dec → List Site
  | .exception _ _ => []
  | .func ds => .group ds :: ds.sites
  | .monoVal _ _ e => e.sites
  | .polyVal _ _ e => e.sites

/-- The places in the functions of a group. -/
def Funs.sites : Funs → List Site
  | .nil => []
  | .cons _ l ds => l.sites ++ ds.sites

def PrimExp.sites : PrimExp → List Site
  | .case _ cases default => default.sites ++ cases.sites
  | .handle body _ handler => body.sites ++ handler.sites
  | .lambda l => .val l :: l.sites
  | _ => []

def Cases.sites : Cases → List Site
  | .nil => []
  | .cons _ e cases => e.sites ++ cases.sites

def Default.sites : Default → List Site
  | .none => []
  | .some e => e.sites

/-- The places in the body. -/
def Lambda.sites : Lambda → List Site
  | .mk _ _ e => e.sites

end

/-- `Program.t` -/
structure Program where
  body : Exp
  overflow : Var

/-- Each variable is bound once, each lambda has a property list of its own, and all variables are
bound, that of overflows too. -/
structure Program.WellFormed (p : Program) : Prop where
  binders : p.body.binders.Nodup
  plists : (p.body.sites.flatMap Site.plists).Nodup
  closed : p.body.free p.overflow = ∅

end MultiMLton.Sxml
