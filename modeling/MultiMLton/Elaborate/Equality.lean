import Mathlib.Logic.Function.Basic
import Mathlib.Tactic

/-!
# Equality attributes of types

Whether a type admits equality need not be known while its unknowns are not: an attribute is then a
cell, with the functions that wait for its value. The structure `Equality` of
`mlton/elaborate/type-env.fun`, with its closures as data (`WhenKnown`).
-/

namespace MultiMLton.Elaborate

/-- Why a computation of the elaborator has no result. -/
inductive Stop
  | outOfFuel
  /-- `Error.bug`, or an exception of the basis. -/
  | bug
  deriving DecidableEq

/-- The admissibility of equality. -/
inductive Equality
  | falsee
  | maybe (r : ℕ)
  | truee
  deriving DecidableEq

/-- The functions that wait for an attribute to be known. -/
inductive WhenKnown
  /-- `fn b => set (e, b)`, of `unify`. -/
  | set (e : Equality)
  /-- What the conjunction of `e` and `e'` does to them. -/
  | both (e e' : Equality)
  /-- `fn b => not b orelse set (e', false)`. -/
  | notBoth (e' : Equality)
  /-- `fn b => if b then unify (e', e'') else set (e'', false)`. -/
  | dep (e' e'' : Equality)
  deriving DecidableEq

/-- What a cell holds. -/
inductive Maybe
  | known (b : Bool)
  | unknown (whenKnown : List WhenKnown)
  deriving DecidableEq

/-- The cells of the attributes. -/
structure Equalities where
  refs : ℕ → Maybe
  next : ℕ

namespace Equalities

def empty : Equalities := ⟨fun _ => .known false, 0⟩

def assign (s : Equalities) (r : ℕ) (m : Maybe) : Equalities :=
  { s with refs := Function.update s.refs r m }

/-- `when` at an attribute that is not known. -/
def await (s : Equalities) (r : ℕ) (f : WhenKnown) : Equalities :=
  match s.refs r with
  | .known _ => s
  | .unknown whenKnown => s.assign r (.unknown (f :: whenKnown))

end Equalities

namespace Equality

/-- What a function of attributes returns, and the cells it leaves. -/
abbrev Result := Except Stop (Bool × Equalities)

/-- A new attribute. -/
def unknown (s : Equalities) : Equality × Equalities :=
  (.maybe s.next, { s.assign s.next (.unknown []) with next := s.next + 1 })

section Call

-- `call` is how a function that waits is called
variable (call : WhenKnown → Bool → Equalities → Result)

/-- The functions are called, up to the first one that reports failure. -/
def forallCall (b : Bool) : List WhenKnown → Equalities → Result
  | [], s => .ok (true, s)
  | f :: fs, s => do
    let (r, s) ← call f b s
    if r then forallCall b fs s else .ok (false, s)

/-- `set`: an attribute that becomes known calls the functions that wait for it. -/
def setWith (e : Equality) (b : Bool) (s : Equalities) : Result :=
  match e with
  | .falsee => .ok (b == false, s)
  | .maybe r =>
    match s.refs r with
    | .known b' => .ok (b == b', s)
    | .unknown whenKnown => forallCall call b whenKnown (s.assign r (.known b))
  | .truee => .ok (b == true, s)

/-- `when`: `f` is called once the attribute is known. -/
def whenWith (e : Equality) (f : WhenKnown) (s : Equalities) : Result :=
  match e with
  | .falsee => call f false s
  | .maybe r =>
    match s.refs r with
    | .known b => call f b s
    | .unknown _ => .ok (true, s.await r f)
  | .truee => call f true s

/-- Either attribute is set once the other is known. -/
def unifyWith (e e' : Equality) (s : Equalities) : Result := do
  let (r, s) ← whenWith call e (.set e') s
  if r then whenWith call e' (.set e) s else .ok (false, s)

end Call

/-- The call of a function that waits, with the value of its attribute. -/
def call : ℕ → WhenKnown → Bool → Equalities → Result
  | 0, _, _, _ => .error .outOfFuel
  | n + 1, .set e, b, s => setWith (call n) e b s
  | n + 1, .both e e', b, s =>
    if b then do
      let (r, s) ← setWith (call n) e true s
      if r then setWith (call n) e' true s else .ok (false, s)
    else do
      let (r, s) ← whenWith (call n) e (.notBoth e') s
      if r then whenWith (call n) e' (.notBoth e) s else .ok (false, s)
  | n + 1, .notBoth e', b, s => if b then setWith (call n) e' false s else .ok (true, s)
  | n + 1, .dep e' e'', b, s =>
    if b then unifyWith (call n) e' e'' s else setWith (call n) e'' false s

def unify (n : ℕ) : Equality → Equality → Equalities → Result := unifyWith (call n)

/-- A conjunction; where neither attribute is known, it is a new one. -/
def and2 (e e' : Equality) (s : Equalities) : Equality × Equalities :=
  match e, e' with
  | .falsee, _ => (.falsee, s)
  | _, .falsee => (.falsee, s)
  | .truee, _ => (e', s)
  | _, .truee => (e, s)
  | .maybe r, .maybe r' =>
    match s.refs r, s.refs r' with
    | .known false, _ => (.falsee, s)
    | _, .known false => (.falsee, s)
    | .known true, _ => (e', s)
    | _, .known true => (e, s)
    | .unknown _, .unknown _ =>
      -- none of the three is known, so that the functions only wait
      let r'' := s.next
      let (e'', s) := unknown s
      let s := s.await r'' (.both e e')
      let s := s.await r (.dep e' e'')
      (e'', s.await r' (.dep e e''))

def fromBool : Bool → Equality
  | false => .falsee
  | true => .truee

/-- The value of an attribute, if it is known. -/
def toBoolOpt (e : Equality) (s : Equalities) : Option Bool :=
  match e with
  | .falsee => some false
  | .maybe r =>
    match s.refs r with
    | .known b => some b
    | .unknown _ => none
  | .truee => some true

/-- `andd`, over a list. -/
def andd (es : List Equality) (s : Equalities) : Equality × Equalities :=
  es.foldl (fun ac e => and2 e ac.1 ac.2) (.truee, s)

end Equality

/-- When a type constructor admits equality. -/
inductive AdmitsEquality
  | always
  | never
  | sometimes
  deriving DecidableEq

/-- The attribute of a type constructor applied to types with the given attributes. -/
def Equality.applyTycon (a : AdmitsEquality) (es : List Equality) (s : Equalities) :
    Equality × Equalities :=
  match a with
  | .always => (.truee, s)
  | .sometimes => Equality.andd es s
  | .never => (.falsee, s)

end MultiMLton.Elaborate
