import MultiMLton.Ssa.TypeCheck

/-!
# Direct expressions

The expressions of `ssa/direct-exp.fun` that polymorphic equality is written in, and what they do.
`DirectExp.linearize` takes them apart into blocks; here they have their meaning directly, on values
as variables hold them and on a heap of objects. A heap is only read.

* `Val`, `Obj`, `Heap`: values and objects;
* `Dexp`: the expressions; `Dexp.name` is `Name`, once the variable is made;
* `Dexp.eval`, `run`: what an expression and a function return. Calls take fuel.
-/

namespace MultiMLton.Ssa

open MultiMLton.Atoms List

abbrev Addr := ℕ

/-! ### Values -/

/-- What a variable holds: a word, a constructor or a tuple with components that are kept in place
of a pointer, or the address of an object. -/
inductive Val
  | word (w : WordX)
  | con (c : Con) (vs : List Val)
  | tuple (vs : List Val)
  | ptr (a : Addr)

namespace Val

mutual

/-- Comparison of the bits. -/
def same : Val → Val → Bool
  | word w, word w' => decide (w = w')
  | con c vs, con c' vs' => decide (c = c') && sames vs vs'
  | tuple vs, tuple vs' => sames vs vs'
  | ptr a, ptr a' => decide (a = a')
  | _, _ => false

def sames : List Val → List Val → Bool
  | [], [] => true
  | v :: vs, v' :: vs' => same v v' && sames vs vs'
  | _, _ => false

end

mutual

theorem same_iff (v v' : Val) : same v v' = true ↔ v = v' := by
  cases v with
  | con c vs | tuple vs => cases v' <;> simp [same, sames_iff vs]
  | _ => cases v' <;> simp [same]

theorem sames_iff (vs vs' : List Val) : sames vs vs' = true ↔ vs = vs' := by
  cases vs with
  | nil => cases vs' <;> simp [sames]
  | cons v vs => cases vs' <;> simp [sames, same_iff v, sames_iff vs]

end

instance : DecidableEq Val := fun v v' => decidable_of_iff _ (same_iff v v')

/-- A value of type `bool` -/
def bool (b : Bool) : Val := con (.bool b) []

/-- A word, or a constructor without arguments. -/
def Immediate : Val → Prop
  | word _ | con _ [] => True
  | _ => False

end Val

/-- An object of the heap. Integers are those that are not small. -/
inductive Obj
  | array (vs : List Val)
  | con (c : Con) (vs : List Val)
  | intInf (i : ℤ)
  | ref (v : Val)
  | thread
  | tuple (vs : List Val)
  | vector (vs : List Val)
  | weak (v : Val)

abbrev Heap := Addr → Option Obj

namespace Heap

variable (H : Heap)

/-- The constructor of a value and its arguments. -/
def conArgs : Val → Option (Con × List Val)
  | .con c vs => some (c, vs)
  | .ptr a =>
    match H a with
    | some (.con c vs) => some (c, vs)
    | _ => none
  | _ => none

/-- The components of a tuple. -/
def components : Val → Option (List Val)
  | .tuple vs => some vs
  | .ptr a =>
    match H a with
    | some (.tuple vs) => some vs
    | _ => none
  | _ => none

/-- The elements of a vector. -/
def elements : Val → Option (List Val)
  | .ptr a =>
    match H a with
    | some (.vector vs) => some vs
    | _ => none
  | _ => none

/-- The integer of an `IntInf`, in its word or in an object. -/
def intInf : Val → Option ℤ
  | .word w => some (SmallIntInf.fromWord w)
  | .ptr a =>
    match H a with
    | some (.intInf i) => some i
    | _ => none
  | _ => none

end Heap

/-- The values of the constants that are no objects. -/
def constVal (T : Target) : Const → Option Val
  | .word w => some (.word w)
  | .intInf i =>
    match SmallIntInf.toWord T i with
    | .ok (some w) => some (.word w)
    | _ => none
  | _ => none

/-- `Prim.realCastToWord` -/
def Prim.realCastToWord (bits : ℕ) (_s : WordSize) : Prim :=
  Atoms.Prim.realCastToWord (if bits = 32 then .R32 else .R64)

/-- The primitives of equality. -/
def Prim.eval (T : Target) (H : Heap) : Prim → List Val → Option Val
  | .mltonEq, [v, v'] => some (.bool (decide (v = v')))
  | .cpointerEqual, [.word w, .word w'] => some (.bool (decide (w = w')))
  | .intInfEqual, [v, v'] => do some (.bool (decide ((← H.intInf v) = (← H.intInf v'))))
  | .wordEqual _, [.word w, .word w'] => some (.bool (w.equals w'))
  | .wordAdd _, [.word w, .word w'] => (w.add w').toOption.map .word
  | .vectorLength, [v] => do some (.word (WordX.make (← H.elements v).length T.seqIndex))
  | .vectorSub, [v, .word i] => do (← H.elements v)[i.value.toNat]?
  | Atoms.Prim.realCastToWord _, [.word w] => some (.word w)
  | _, _ => none

/-! ### Expressions -/

/-- `DirectExp.t` -/
inductive Dexp
  | call (func : Func) (args : List Dexp) (ty : Ty)
  | casee (test : Dexp) (cases : List (Con × List (Var × Ty) × Dexp)) (default : Option Dexp)
      (ty : Ty)
  | conApp (con : Con) (args : List Dexp) (ty : Ty)
  | const (c : Const)
  | lett (decs : List (Var × Dexp)) (body : Dexp)
  | name (e : Dexp) (x : Var) (body : Dexp)
  | primApp (prim : Prim) (targs : List Ty) (args : List Dexp) (ty : Ty)
  | select (tuple : Dexp) (offset : ℕ) (ty : Ty)
  | var (x : Var) (ty : Ty)

namespace Dexp

/-- `DirectExp.word` -/
def word (w : WordX) : Dexp := const (.word w)

def truee : Dexp := conApp (.bool true) [] .bool
def falsee : Dexp := conApp (.bool false) [] .bool

/-- `DirectExp.eq` -/
def eq (e1 e2 : Dexp) (ty : Ty) : Dexp := primApp .mltonEq [ty] [e1, e2] .bool

end Dexp

/-- The values of variables. -/
abbrev ValEnv := Var → Option Val

namespace ValEnv

/-- `env` with values for formals. -/
def bind (env : ValEnv) : List (Var × Ty) → List Val → ValEnv
  | (x, _) :: xs, v :: vs => bind (Function.update env x (some v)) xs vs
  | _, _ => env

variable {env : ValEnv} {xs : List (Var × Ty)} {vs : List Val} {x : Var}

theorem bind_of_notMem (h : x ∉ xs.map Prod.fst) : env.bind xs vs x = env x := by
  induction xs generalizing env vs with
  | nil => rfl
  | cons yt xs ih =>
    rw [map_cons, mem_cons, not_or] at h
    cases vs with
    | nil => rfl
    | cons v vs => rw [bind, ih h.2, Function.update_of_ne h.1]

/-- Formals hold the values they are bound to. -/
theorem bind_self (hxs : (xs.map Prod.fst).Nodup) (hlen : xs.length = vs.length) :
    List.Forall₂ (fun xt v => env.bind xs vs xt.1 = some v) xs vs := by
  induction xs generalizing env vs with
  | nil => cases vs with
    | nil => exact .nil
    | cons v vs => cases hlen
  | cons yt xs ih =>
    rw [map_cons, nodup_cons] at hxs
    cases vs with
    | nil => cases hlen
    | cons v vs =>
      refine .cons ?_ (ih hxs.2 (Nat.succ.inj hlen))
      rw [bind, bind_of_notMem hxs.1, Function.update_self]

end ValEnv

/-- A function with a direct expression for its body. -/
structure DFunction where
  args : List (Var × Ty)
  body : Dexp
  mayInline : Bool
  name : Func
  raises : Option (List Ty)
  returns : Option (List Ty)

section

variable (T : Target) (H : Heap)

namespace Dexp

variable (apply : Func → List Val → Option Val)

mutual

/-- The value of an expression, by the results of calls. -/
def evalWith (env : ValEnv) : Dexp → Option Val
  | call f args _ => do apply f (← evalsWith env args)
  | casee test cases default _ => do
    let (c, vs) ← H.conArgs (← evalWith env test)
    (evalCases env c vs cases).getD (evalDefault env default)
  | conApp c args _ => do some (.con c (← evalsWith env args))
  | const c => constVal T c
  | lett decs body => do evalWith (← evalDecs env decs) body
  | name e x body => do evalWith (Function.update env x (some (← evalWith env e))) body
  | primApp p _ args _ => do p.eval T H (← evalsWith env args)
  | select e i _ => do (← H.components (← evalWith env e))[i]?
  | var x _ => env x

def evalsWith (env : ValEnv) : List Dexp → Option (List Val)
  | [] => some []
  | e :: es => do some ((← evalWith env e) :: (← evalsWith env es))

/-- The value of the case for a constructor, if there is one. -/
def evalCases (env : ValEnv) (c : Con) (vs : List Val) :
    List (Con × List (Var × Ty) × Dexp) → Option (Option Val)
  | [] => none
  | (c', xs, body) :: cases =>
    if c = c' then some (evalWith (env.bind xs vs) body) else evalCases env c vs cases

def evalDefault (env : ValEnv) : Option Dexp → Option Val
  | none => none
  | some e => evalWith env e

def evalDecs (env : ValEnv) : List (Var × Dexp) → Option ValEnv
  | [] => some env
  | (x, e) :: decs => do evalDecs (Function.update env x (some (← evalWith env e))) decs

end

section Equations

attribute [local simp] evalWith evalsWith evalCases evalDefault evalDecs

end Equations

end Dexp

variable (F : Func → Option DFunction)

/-- What a function returns for arguments, where calls are nested less than `n` deep. -/
def run : ℕ → Func → List Val → Option Val
  | 0, _, _ => none
  | n + 1, f, vs => do
    let fn ← F f
    fn.body.evalWith T H (run n) (ValEnv.bind (fun _ => none) fn.args vs)

/-- The value of an expression, where calls are nested less than `n` deep. -/
def Dexp.eval (n : ℕ) (env : ValEnv) (e : Dexp) : Option Val := e.evalWith T H (run T H F n) env

end

end MultiMLton.Ssa
