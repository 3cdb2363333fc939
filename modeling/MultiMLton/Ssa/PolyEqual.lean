import MultiMLton.Ssa.DirectExp

/-!
# Polymorphic equality

The pass `ssa/poly-equal.fun`, which makes a function of equality for each datatype and each type of
vectors that `MLton_equal` is used at, and puts a comparison or a call in place of `MLton_equal`.

Functions are made on demand: `equalTyconFunc` and `vectorEqualFunc` give the name of the function
that is there, or choose a name and make one, which may ask for others. A computation of `Gen` reads
and changes the tables and counters of a `State`; it fails at a datatype that is not declared, and
when it is out of fuel, that is when functions that wait for each other are nested too deep.

* `equal`, `equalExp`: the comparison of two variables, or expressions, of a type;
* `newTyconFunc`, `newVectorFunc`: the functions;
* `polyEqual`: the pass, with the comparison for each `MLton_equal`.
-/

namespace MultiMLton.Ssa

open MultiMLton.Atoms

namespace Dexp

/-- `Dexp.add` -/
def add (e1 e2 : Dexp) (s : WordSize) : Dexp := primApp (.wordAdd s) [] [e1, e2] (.word s)

/-- `Dexp.conjoin` -/
def conjoin (e1 e2 : Dexp) : Dexp :=
  casee e1 [(.bool true, [], e2), (.bool false, [], falsee)] none .bool

/-- `Dexp.disjoin` -/
def disjoin (e1 e2 : Dexp) : Dexp :=
  casee e1 [(.bool true, [], truee), (.bool false, [], e2)] none .bool

/-- `Dexp.wordEqual` -/
def wordEqual (e1 e2 : Dexp) (s : WordSize) : Dexp := primApp (.wordEqual s) [] [e1, e2] .bool

end Dexp

namespace PolyEqual

/-- The property tables of a run, and what it has made. -/
structure State where
  /-- the next variable of `Var.newNoname` -/
  nextVar : Var
  /-- the next name of `Func.newString` -/
  nextFunc : Func
  tyconEqualFunc : List (Tycon × Func)
  vectorEqualFunc : List (Ty × Func)
  newFunctions : List DFunction

/-- What the pass knows of the program. -/
structure Info where
  target : Target
  /-- `#isConst o varInfo` -/
  isConst : Var → Bool
  /-- `tyconCons`, for the datatypes that are declared -/
  tyconCons : Tycon → Option (List (Con × List Ty))

namespace Info

variable (I : Info)

/-- `isEnum` -/
def isEnum (tycon : Tycon) : Option Bool :=
  (I.tyconCons tycon).map fun cons => cons.all fun c => c.2.isEmpty

def hasConstArg (x1 x2 : Var) : Bool := I.isConst x1 || I.isConst x2

end Info

abbrev Gen := StateT State Option

/-- `Var.newNoname` -/
def newVar : Gen Var := fun s => some (s.nextVar, { s with nextVar := s.nextVar + 1 })

/-- `Func.newString` -/
def newFunc : Gen Func := fun s => some (s.nextFunc, { s with nextFunc := s.nextFunc + 1 })

/-- `newFunction` -/
def newFunction (fn : DFunction) : Gen Unit := fun s =>
  some ((), { s with newFunctions := fn :: s.newFunctions })

def setTyconEqualFunc (tycon : Tycon) (name : Func) : Gen Unit := fun s =>
  some ((), { s with tyconEqualFunc := (tycon, name) :: s.tyconEqualFunc })

def setVectorEqualFunc (ty : Ty) (name : Func) : Gen Unit := fun s =>
  some ((), { s with vectorEqualFunc := (ty, name) :: s.vectorEqualFunc })

/-- The function that is there for a datatype, or else a new one. -/
def getTyconEqualFunc (tycon : Tycon) (make : Gen Func) : Gen Func := fun s =>
  match s.tyconEqualFunc.find? fun p => decide (p.1 = tycon) with
  | some (_, f) => some (f, s)
  | none => make s

def getVectorEqualFunc (ty : Ty) (make : Gen Func) : Gen Func := fun s =>
  match s.vectorEqualFunc.find? fun p => decide (p.1 = ty) with
  | some (_, f) => some (f, s)
  | none => make s

/-- Variables of the types of a constructor's arguments. -/
def makeArgs : List Ty → Gen (List (Var × Ty))
  | [] => pure []
  | ty :: tys => do
    let x ← newVar
    let xs ← makeArgs tys
    pure ((x, ty) :: xs)

/-- `Dexp.name`: an expression that is a variable is not named again. -/
def name (e : Dexp) (f : Var → Gen Dexp) : Gen Dexp :=
  match e with
  | .var x _ => f x
  | e => do
    let x ← newVar
    let body ← f x
    pure (.name e x body)

/-- `equalExp`, where `equal` compares two variables. -/
def equalExp (equal : Var → Var → Gen Dexp) (e1 e2 : Dexp) : Gen Dexp :=
  name e1 fun x1 => name e2 fun x2 => equal x1 x2

section Equal

variable (I : Info) (tyconFunc : Tycon → Gen Func) (vectorFunc : Ty → Gen Func)

mutual

def equal (x1 x2 : Var) : Ty → Gen Dexp
  | .array t => pure (.eq (.var x1 (.array t)) (.var x2 (.array t)) (.array t))
  | .cpointer =>
    pure (.primApp .cpointerEqual [] [.var x1 .cpointer, .var x2 .cpointer] .bool)
  | .datatype tycon => do
    let isEnum ← (I.isEnum tycon : Option Bool)
    if isEnum || I.hasConstArg x1 x2 then
      pure (.eq (.var x1 (.datatype tycon)) (.var x2 (.datatype tycon)) (.datatype tycon))
    else do
      let f ← tyconFunc tycon
      pure (.call f [.var x1 (.datatype tycon), .var x2 (.datatype tycon)] .bool)
  | .intInf =>
    if I.hasConstArg x1 x2 then pure (.eq (.var x1 .intInf) (.var x2 .intInf) .intInf)
    else pure (.primApp .intInfEqual [] [.var x1 .intInf, .var x2 .intInf] .bool)
  | .real bits =>
    if h : 0 < bits ∧ bits ≤ 64 then
      let ws : WordSize := ⟨bits, h.1, h.2⟩
      let toWord := fun x : Var =>
        Dexp.primApp (Prim.realCastToWord bits ws) [] [.var x (.real bits)] (.word ws)
      pure (.wordEqual (toWord x1) (toWord x2) ws)
    else failure
  | .ref t => pure (.eq (.var x1 (.ref t)) (.var x2 (.ref t)) (.ref t))
  | .thread => pure (.eq (.var x1 .thread) (.var x2 .thread) .thread)
  | .tuple tys => loop (.var x1 (.tuple tys)) (.var x2 (.tuple tys)) 0 tys
  | .vector t => do
    let f ← vectorFunc t
    pure (.call f [.var x1 (.vector t), .var x2 (.vector t)] .bool)
  | .weak t => pure (.eq (.var x1 (.weak t)) (.var x2 (.weak t)) (.weak t))
  | .word ws => pure (.wordEqual (.var x1 (.word ws)) (.var x2 (.word ws)) ws)

/-- The comparison of the components `i`, `i + 1`, … of two tuples. -/
def loop (dx1 dx2 : Dexp) (i : ℕ) : List Ty → Gen Dexp
  | [] => pure .truee
  | ty :: tys => do
    let e ← equalExp (fun x1 x2 => equal x1 x2 ty) (.select dx1 i ty) (.select dx2 i ty)
    let rest ← loop dx1 dx2 (i + 1) tys
    pure (.conjoin e rest)

end

end Equal

/-! ### The functions -/

section Functions

variable (I : Info) (equal : Var → Var → Ty → Gen Dexp)

/-- The comparison of the arguments of a constructor, on top of `de`. -/
def conjoinArgs : List (Var × Ty) → List (Var × Ty) → Dexp → Gen Dexp
  | (x, ty) :: xs, (y, _) :: ys, de => do
    let e ← equal x y ty
    conjoinArgs xs ys (.conjoin de e)
  | _, _, de => pure de

/-- The case for a constructor with arguments, where the other value is `darg2`. -/
def conCase (darg2 : Dexp) (isOnly : Bool) (con : Con) (args : List Ty) :
    Gen (Con × List (Var × Ty) × Dexp) := do
  let xs ← makeArgs args
  let ys ← makeArgs args
  let body ← conjoinArgs equal xs ys .truee
  pure (con, xs, .casee darg2 [(con, ys, body)] (if isOnly then none else some .falsee) .bool)

/-- The cases for the constructors with arguments. -/
def conCases (darg2 : Dexp) (isOnly : Bool) :
    List (Con × List Ty) → Gen (List (Con × List (Var × Ty) × Dexp))
  | [] => pure []
  | (con, args) :: cons =>
    if args.isEmpty then conCases darg2 isOnly cons
    else do
      let c ← conCase equal darg2 isOnly con args
      let cs ← conCases darg2 isOnly cons
      pure (c :: cs)

/-- The function for a datatype: shared values are equal, others are taken apart. -/
def tyconFunction (tycon : Tycon) (name : Func) (arg1 arg2 : Var) (cons : List (Con × List Ty))
    (cases : List (Con × List (Var × Ty) × Dexp)) : DFunction where
  args := [(arg1, .datatype tycon), (arg2, .datatype tycon)]
  body := .disjoin
    (.eq (.var arg1 (.datatype tycon)) (.var arg2 (.datatype tycon)) (.datatype tycon))
    (.casee (.var arg1 (.datatype tycon)) cases
      (if cons.any fun c => c.2.isEmpty then some .falsee else none) .bool)
  mayInline := true
  name := name
  raises := none
  returns := some [.bool]

/-- `equalTyconFunc`, where there is no function yet. -/
def newTyconFunc (tycon : Tycon) : Gen Func := do
  let name ← newFunc
  setTyconEqualFunc tycon name
  let arg1 ← newVar
  let arg2 ← newVar
  let cons ← (I.tyconCons tycon : Option _)
  let cases ← conCases equal (.var arg2 (.datatype tycon)) (decide (1 = cons.length)) cons
  newFunction (tyconFunction tycon name arg1 arg2 cons cases)
  pure name

/-- The function for a type of vectors: vectors of one length are compared by `loop`. -/
def vectorFunction (seqIndex : WordSize) (ty : Ty) (name loop : Func) (vec1 vec2 len1 len2 : Var) :
    DFunction where
  args := [(vec1, .vector ty), (vec2, .vector ty)]
  body := .disjoin (.eq (.var vec1 (.vector ty)) (.var vec2 (.vector ty)) (.vector ty))
    (.lett
      [(len1, .primApp .vectorLength [ty] [.var vec1 (.vector ty)] (.word seqIndex)),
        (len2, .primApp .vectorLength [ty] [.var vec2 (.vector ty)] (.word seqIndex))]
      (.conjoin
        (.wordEqual (.var len1 (.word seqIndex)) (.var len2 (.word seqIndex)) seqIndex)
        (.call loop [.var vec1 (.vector ty), .var vec2 (.vector ty),
          .var len1 (.word seqIndex), .word (WordX.zero seqIndex)] .bool)))
  mayInline := true
  name := name
  raises := none
  returns := some [.bool]

/-- The loop over two vectors, where `e` compares the elements at `i`. -/
def vectorLoop (seqIndex : WordSize) (ty : Ty) (loop : Func) (vec1 vec2 len i : Var) (e : Dexp) :
    DFunction where
  args := [(vec1, .vector ty), (vec2, .vector ty), (len, .word seqIndex), (i, .word seqIndex)]
  body := .disjoin (.wordEqual (.var i (.word seqIndex)) (.var len (.word seqIndex)) seqIndex)
    (.conjoin e
      (.call loop [.var vec1 (.vector ty), .var vec2 (.vector ty), .var len (.word seqIndex),
        .add (.var i (.word seqIndex)) (.word (WordX.one seqIndex)) seqIndex] .bool))
  mayInline := true
  name := loop
  raises := none
  returns := some [.bool]

/-- The element of a vector at `i`. -/
def vectorSub (seqIndex : WordSize) (ty : Ty) (vec i : Var) : Dexp :=
  .primApp .vectorSub [ty] [.var vec (.vector ty), .var i (.word seqIndex)] ty

/-- `vectorEqualFunc`, where there is no function yet. -/
def newVectorFunc (ty : Ty) : Gen Func := do
  let name ← newFunc
  setVectorEqualFunc ty name
  let loop ← newFunc
  let seqIndex := I.target.seqIndex
  let vec1 ← newVar
  let vec2 ← newVar
  let len1 ← newVar
  let len2 ← newVar
  newFunction (vectorFunction seqIndex ty name loop vec1 vec2 len1 len2)
  let vec1 ← newVar
  let vec2 ← newVar
  let len ← newVar
  let i ← newVar
  let e ← equalExp (fun x1 x2 => equal x1 x2 ty) (vectorSub seqIndex ty vec1 i)
    (vectorSub seqIndex ty vec2 i)
  newFunction (vectorLoop seqIndex ty loop vec1 vec2 len i e)
  pure name

end Functions

section Generation

variable (I : Info)

mutual

def equalTyconFunc : ℕ → Tycon → Gen Func
  | 0, tycon => getTyconEqualFunc tycon failure
  | n + 1, tycon =>
    getTyconEqualFunc tycon (newTyconFunc I (equal I (equalTyconFunc n) (vectorEqualFunc n)) tycon)

def vectorEqualFunc : ℕ → Ty → Gen Func
  | 0, ty => getVectorEqualFunc ty failure
  | n + 1, ty =>
    getVectorEqualFunc ty (newVectorFunc I (equal I (equalTyconFunc n) (vectorEqualFunc n)) ty)

end

/-- The comparison for each `MLton_equal` among the statements. -/
def doit (fuel : ℕ) : List Statement → Gen (List (Statement × Dexp))
  | [] => pure []
  | s :: ss =>
    match s.exp with
    | .primApp .mltonEqual [ty] [x1, x2] => do
      let e ← equal I (equalTyconFunc I fuel) (vectorEqualFunc I fuel) x1 x2 ty
      let es ← doit fuel ss
      pure ((s, e) :: es)
    | _ => doit fuel ss

end Generation

/-! ### The pass -/

/-- `setBind`: whether the variable of a statement is known to be a constant. -/
def isConst (T : Target) : Exp → Bool
  | .const (.intInf i) =>
    match SmallIntInf.toWord T i with
    | .ok (some _) => true
    | _ => false
  | .const (.word _) => true
  | .conApp _ args => args.isEmpty
  | _ => false

/-- A number above those of a list. -/
def above : List ℕ → ℕ := List.foldr (fun x n => max (x + 1) n) 0

end PolyEqual

namespace Program

open PolyEqual

variable (P : Program) (T : Target)

/-- The statements of all blocks. -/
def blockStatements : List Statement := P.blocks.flatMap Block.statements

/-- The globals and the statements of all blocks. -/
def statements : List Statement := P.globals ++ P.blockStatements

/-- `setTyconInfo` and `setBind`, for the whole program. -/
def equalInfo : Info where
  target := T
  isConst x := P.statements.any fun s => decide (s.var = some x) && PolyEqual.isConst T s.exp
  tyconCons tycon :=
    (P.datatypes.find? fun d => decide (d.tycon = tycon)).map Datatype.cons

/-- The variables of statements. -/
def statementVars : List Var := P.statements.flatMap fun s => s.var.toList ++ s.exp.vars

/-- The tables before the pass, with names that the program does not use. -/
def equalStart : PolyEqual.State where
  nextVar := above (P.defs ++ P.statementVars)
  nextFunc := above (P.functions.map Function.name)
  tyconEqualFunc := []
  vectorEqualFunc := []
  newFunctions := []

/-- `polyEqual` -/
def polyEqual (fuel : ℕ) : Option (List (Statement × Dexp) × PolyEqual.State) :=
  doit (P.equalInfo T) fuel P.blockStatements P.equalStart

end Program

end MultiMLton.Ssa
