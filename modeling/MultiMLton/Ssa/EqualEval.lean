import Mathlib.Order.Filter.AtTopBot.Basic
import MultiMLton.Atoms.PrimConsts
import MultiMLton.Ssa.PolyEqual

/-!
# Values of Standard ML and what represents them

`Value` is what a program means: trees of constructors, tuples and vectors, with words, integers and
the identities of mutable objects at the leaves. Two values are equal by the Definition if and only
if they are the same tree. `Rep` says which values a variable of a type may stand for:

* a small integer is kept in its tagged word, and only another one in an object;
* a constructor without arguments is kept in a word, one with arguments in a word or in an object;
* arrays, references, threads and weak pointers are the addresses of their objects.

`Rep.inj`: what a variable holds determines the value. The other way round, equal values are the same
bits where `Rep.eq_iff_of_immediate` and `Rep.eq_iff_of_enum` say so.
-/

namespace MultiMLton.Ssa

open MultiMLton.Atoms List

/-- A value of Standard ML. -/
inductive Value
  | array (a : Addr)
  | con (c : Con) (ms : List Value)
  | cpointer (w : WordX)
  | intInf (i : ℤ)
  | real (w : WordX)
  | ref (a : Addr)
  | thread (a : Addr)
  | tuple (ms : List Value)
  | vector (ms : List Value)
  | weak (a : Addr)
  | word (w : WordX)

namespace PolyEqual

section

variable (I : Info) (H : Heap)

mutual

/-- A variable of a type that holds `v` stands for a value. -/
inductive Rep : Ty → Value → Val → Prop
  | array {t a vs} (ha : H a = some (.array vs)) : Rep (.array t) (.array a) (.ptr a)
  | con {tycon cons c ts ms vs} (hcons : I.tyconCons tycon = some cons) (hc : (c, ts) ∈ cons)
      (hms : Reps ts ms vs) : Rep (.datatype tycon) (.con c ms) (.con c vs)
  | conObj {tycon cons c ts ms vs a} (hcons : I.tyconCons tycon = some cons) (hc : (c, ts) ∈ cons)
      (hne : ts ≠ []) (hms : Reps ts ms vs) (ha : H a = some (.con c vs)) :
      Rep (.datatype tycon) (.con c ms) (.ptr a)
  | cpointer {w} (hw : w.size = I.target.cpointer) : Rep .cpointer (.cpointer w) (.word w)
  | small {i w} (hi : SmallIntInf.toWord I.target i = .ok (some w)) :
      Rep .intInf (.intInf i) (.word w)
  | big {i a} (hi : SmallIntInf.toWord I.target i = .ok none) (ha : H a = some (.intInf i)) :
      Rep .intInf (.intInf i) (.ptr a)
  | real {w bits} (hw : w.size.bits = bits) : Rep (.real bits) (.real w) (.word w)
  | ref {t a v} (ha : H a = some (.ref v)) : Rep (.ref t) (.ref a) (.ptr a)
  | thread {a} (ha : H a = some .thread) : Rep .thread (.thread a) (.ptr a)
  | tuple {ts ms vs} (hms : Reps ts ms vs) : Rep (.tuple ts) (.tuple ms) (.tuple vs)
  | tupleObj {ts ms vs a} (hms : Reps ts ms vs) (ha : H a = some (.tuple vs)) :
      Rep (.tuple ts) (.tuple ms) (.ptr a)
  | vector {t ms vs a} (hms : Reps (List.replicate ms.length t) ms vs)
      (hlen : (ms.length : ℤ) < I.target.seqIndex.modulus) (ha : H a = some (.vector vs)) :
      Rep (.vector t) (.vector ms) (.ptr a)
  | weak {t a v} (ha : H a = some (.weak v)) : Rep (.weak t) (.weak a) (.ptr a)
  | word {w size} (hw : w.size = size) : Rep (.word size) (.word w) (.word w)

inductive Reps : List Ty → List Value → List Val → Prop
  | nil : Reps [] [] []
  | cons {t ts m ms v vs} (hm : Rep t m v) (hms : Reps ts ms vs) :
      Reps (t :: ts) (m :: ms) (v :: vs)

end

end

/-- The constructors of a datatype are different. -/
def Info.ConsNodup (I : Info) : Prop :=
  ∀ tycon cons, I.tyconCons tycon = some cons → (cons.map Prod.fst).Nodup

variable {I : Info} {H : Heap}

/-! ### Small integers -/

/-- An integer is small, and its word gives it back, or it is kept in an object. -/
theorem toWord_cases (T : Target) (i : ℤ) :
    (∃ w, SmallIntInf.toWord T i = .ok (some w) ∧ SmallIntInf.fromWord w = i) ∨
      SmallIntInf.toWord T i = .ok none := by
  by_cases h : Fits (T.objptr.bits - 1) true i
  · have hbits := T.one_lt
    have hpow : (2 : ℤ) ^ (T.objptr.bits - 1) = 2 * 2 ^ (T.objptr.bits - 1 - 1) := by
      rw [← pow_succ']
      congr 1
      omega
    rw [Fits, if_pos rfl] at h
    refine .inl ⟨_, Prim.toWord_of_fits (by rwa [Fits, if_pos rfl]), ?_⟩
    rw [Prim.fromWord_ofBits, BitVec.toInt_ofInt_eq_self (by omega) (by omega) (by omega)]
    omega
  · refine .inr ?_
    rw [SmallIntInf.toWord, if_neg]
    rwa [Prim.isInRange_iff]

theorem toWord_inj {T : Target} {i j : ℤ} {w : WordX} (hi : SmallIntInf.toWord T i = .ok (some w))
    (hj : SmallIntInf.toWord T j = .ok (some w)) : i = j := by
  have hvalue {k : ℤ} (hk : SmallIntInf.toWord T k = .ok (some w)) : SmallIntInf.fromWord w = k := by
    rcases toWord_cases T k with ⟨w', hw', hfrom⟩ | hnone
    · rw [hk] at hw'
      cases hw'
      exact hfrom
    · rw [hk] at hnone
      cases hnone
  rw [← hvalue hi, hvalue hj]

/-! ### What is held determines the value -/

theorem mem_unique (hI : I.ConsNodup) {tycon : Tycon} {cons : List (Con × List Ty)}
    (hcons : I.tyconCons tycon = some cons) {c : Con} {ts ts' : List Ty} (h : (c, ts) ∈ cons)
    (h' : (c, ts') ∈ cons) : ts = ts' :=
  congrArg Prod.snd (inj_on_of_nodup_map (hI tycon cons hcons) h h' rfl)

theorem Reps.lengths {ts : List Ty} {ms : List Value} {vs : List Val} (h : Reps I H ts ms vs) :
    ts.length = vs.length ∧ ms.length = vs.length := by
  induction ms generalizing ts vs with
  | nil =>
    cases h
    exact ⟨rfl, rfl⟩
  | cons m ms ih =>
    cases h with
    | cons hm hms =>
      simp only [List.length_cons, Nat.succ_inj]
      exact ih hms

mutual

theorem Rep.inj (hI : I.ConsNodup) {t : Ty} {m m' : Value} {v : Val} (h : Rep I H t m v)
    (h' : Rep I H t m' v) : m = m' := by
  cases h with
  | array h | ref h | thread h | weak h | cpointer h | real h | word h =>
    cases h'
    rfl
  | con hcons hc hms =>
    cases h' with
    | con hcons' hc' hms' =>
      cases hcons.symm.trans hcons'
      cases mem_unique hI hcons hc hc'
      rw [Reps.inj hI hms hms']
  | conObj hcons hc hne hms ha =>
    cases h' with
    | conObj hcons' hc' hne' hms' ha' =>
      cases hcons.symm.trans hcons'
      cases ha.symm.trans ha'
      cases mem_unique hI hcons hc hc'
      rw [Reps.inj hI hms hms']
  | small hi =>
    cases h' with
    | small hi' => rw [toWord_inj hi hi']
  | big hi ha =>
    cases h' with
    | big hi' ha' =>
      cases ha.symm.trans ha'
      rfl
  | tuple hms =>
    cases h' with
    | tuple hms' => rw [Reps.inj hI hms hms']
  | tupleObj hms ha =>
    cases h' with
    | tupleObj hms' ha' =>
      cases ha.symm.trans ha'
      rw [Reps.inj hI hms hms']
  | vector hms hlen ha =>
    cases h' with
    | vector hms' hlen' ha' =>
      cases ha.symm.trans ha'
      rw [hms'.lengths.2, ← hms.lengths.2] at hms'
      rw [Reps.inj hI hms hms']

theorem Reps.inj (hI : I.ConsNodup) {ts : List Ty} {ms ms' : List Value} {vs : List Val}
    (h : Reps I H ts ms vs) (h' : Reps I H ts ms' vs) : ms = ms' := by
  cases h with
  | nil =>
    cases h'
    rfl
  | cons hm hms =>
    cases h' with
    | cons hm' hms' => rw [Rep.inj hI hm hm', Reps.inj hI hms hms']

end

/-! ### Taking values apart -/

variable {m : Value}

theorem Rep.datatype {tycon : Tycon} {v : Val} (h : Rep I H (.datatype tycon) m v) :
    ∃ cons c ts ms vs, I.tyconCons tycon = some cons ∧ (c, ts) ∈ cons ∧ m = .con c ms ∧
      H.conArgs v = some (c, vs) ∧ Reps I H ts ms vs ∧ (ts = [] → v = .con c []) := by
  cases h with
  | con hcons hc hms =>
    refine ⟨_, _, _, _, _, hcons, hc, rfl, rfl, hms, ?_⟩
    rintro rfl
    cases hms
    rfl
  | conObj hcons hc hne hms ha =>
    refine ⟨_, _, _, _, _, hcons, hc, rfl, ?_, hms, fun hts => absurd hts hne⟩
    simp only [Heap.conArgs, ha]

theorem Rep.tuple_inv {ts : List Ty} {v : Val} (h : Rep I H (.tuple ts) m v) :
    ∃ ms vs, m = .tuple ms ∧ H.components v = some vs ∧ Reps I H ts ms vs := by
  cases h with
  | tuple hms => exact ⟨_, _, rfl, rfl, hms⟩
  | tupleObj hms ha => exact ⟨_, _, rfl, by simp only [Heap.components, ha], hms⟩

theorem Rep.vector_inv {t : Ty} {v : Val} (h : Rep I H (.vector t) m v) :
    ∃ ms vs, m = .vector ms ∧ H.elements v = some vs ∧
      Reps I H (replicate ms.length t) ms vs ∧
      (ms.length : ℤ) < I.target.seqIndex.modulus := by
  cases h with
  | vector hms hlen ha => exact ⟨_, _, rfl, by simp only [Heap.elements, ha], hms, hlen⟩

theorem Rep.intInf_inv {v : Val} (h : Rep I H .intInf m v) :
    ∃ i, m = .intInf i ∧ H.intInf v = some i := by
  cases h with
  | small hi =>
    rcases toWord_cases I.target _ with ⟨w, hw, hfrom⟩ | hnone
    · cases hi.symm.trans hw
      exact ⟨_, rfl, by rw [Heap.intInf, hfrom]⟩
    · cases hi.symm.trans hnone
  | big hi ha => exact ⟨_, rfl, by simp only [Heap.intInf, ha]⟩

/-! ### Where equal values are the same bits -/

/-- The bits decide where they are the only ones for the value. -/
theorem Rep.eq_iff (hI : I.ConsNodup) {t : Ty} {m m' : Value} {v v' : Val} (h : Rep I H t m v)
    (h' : Rep I H t m' v') (hbits : Rep I H t m v' → v = v') : v = v' ↔ m = m' := by
  constructor
  · rintro rfl
    exact h.inj hI h'
  · rintro rfl
    exact hbits h'

theorem Rep.eq_of_immediate {tycon : Tycon} {v v' : Val}
    (h : Rep I H (.datatype tycon) m v) (hv : v.Immediate) (h' : Rep I H (.datatype tycon) m v') :
    v = v' := by
  obtain ⟨cons, c, ts, ms, vs, -, -, rfl, hargs, hms, hnull⟩ := h.datatype
  obtain ⟨cons', c', ts', ms', vs', -, -, heq, hargs', hms', hnull'⟩ := h'.datatype
  cases heq
  have hvs : vs = [] := by
    cases v with
    | con c'' us =>
      cases us with
      | nil =>
        cases hargs
        rfl
      | cons u us => cases hv
    | word w => cases hargs
    | tuple us => cases hv
    | ptr a => cases hv
  subst hvs
  have hlen := hms.lengths
  have hlen' := hms'.lengths
  rw [hnull (length_eq_zero_iff.1 hlen.1),
    hnull' (length_eq_zero_iff.1 (hlen'.1.trans (hlen'.2.symm.trans hlen.2)))]

/-- Small integers are tagged words. -/
theorem Rep.eq_of_small {v v' : Val} (h : Rep I H .intInf m v) (hv : v.Immediate)
    (h' : Rep I H .intInf m v') : v = v' := by
  cases h with
  | small hi =>
    cases h' with
    | small hi' =>
      cases hi.symm.trans hi'
      rfl
    | big hi' ha => cases hi.symm.trans hi'
  | big hi ha => cases hv

/-- The values of an enumeration are kept in words. -/
theorem Rep.immediate_of_enum {tycon : Tycon} {v : Val}
    (h : Rep I H (.datatype tycon) m v) (henum : I.isEnum tycon = some true) : v.Immediate := by
  obtain ⟨cons, c, ts, ms, vs, hcons, hc, -, -, -, hnull⟩ := h.datatype
  rw [Info.isEnum, hcons, Option.map_some, Option.some.injEq, List.all_eq_true] at henum
  rw [hnull (List.isEmpty_iff.1 (henum _ hc))]
  trivial

end PolyEqual

end MultiMLton.Ssa

/-!
## What comparisons return

`Returns r p`: a computation `r` that takes fuel returns, once it has enough, the Boolean that says
whether `p`. There is one rule for each form of expression that comparisons are made of, and for
calls.
-/

namespace MultiMLton.Ssa

open MultiMLton.Atoms Filter

/-- With enough fuel `r` returns whether `p`. -/
def Returns (r : ℕ → Option Val) (p : Prop) : Prop :=
  ∃ b : Bool, (b = true ↔ p) ∧ ∀ᶠ n in atTop, r n = some (.bool b)

section

variable {r : ℕ → Option Val} {p q : Prop}

theorem Returns.congr (h : Returns r p) (hpq : p ↔ q) : Returns r q := by
  obtain ⟨b, hb, hr⟩ := h
  exact ⟨b, hb.trans hpq, hr⟩

theorem Returns.of_eq {r' : ℕ → Option Val} (h : Returns r p) (heq : ∀ n, r' n = r n) :
    Returns r' p := by
  rwa [show r' = r from funext heq]

theorem returns_decide (hp : Decidable p) (h : ∀ n, r n = some (.bool (decide p))) : Returns r p :=
  ⟨decide p, decide_eq_true_iff, Eventually.of_forall h⟩

end

variable {T : Target} {H : Heap} {F : Func → Option DFunction} {env : ValEnv} {p q : Prop}

/-! ### Calls -/

theorem Returns.run {f : Func} {vs : List Val} {fn : DFunction} (hf : F f = some fn)
    (h : Returns (fun n => fn.body.eval T H F n (ValEnv.bind (fun _ => none) fn.args vs)) p) :
    Returns (fun n => run T H F n f vs) p := by
  obtain ⟨b, hb, hr⟩ := h
  obtain ⟨N, hN⟩ := eventually_atTop.1 hr
  refine ⟨b, hb, eventually_atTop.2 ⟨N + 1, fun n hn => ?_⟩⟩
  obtain ⟨n, rfl⟩ := Nat.exists_eq_add_of_le' (Nat.le_trans (Nat.le_add_left 1 N) hn)
  have hrun := hN n (Nat.le_of_succ_le_succ hn)
  change Ssa.run T H F (n + 1) f vs = _
  rw [Ssa.run, hf]
  exact hrun

namespace Dexp

@[simp] theorem eval_var (n : ℕ) (x : Var) (t : Ty) : (var x t).eval T H F n env = env x := by
  rw [eval, evalWith]

@[simp] theorem eval_word (n : ℕ) (w : WordX) :
    (word w).eval T H F n env = some (.word w) := by
  rw [word, eval, evalWith, constVal]

theorem eval_select (n : ℕ) (e : Dexp) (i : ℕ) (t : Ty) :
    (select e i t).eval T H F n env = (e.eval T H F n env).bind fun v =>
      (H.components v).bind fun vs => vs[i]? := by
  rw [eval, evalWith]
  rfl

theorem eval_primApp1 (n : ℕ) (prim : Prim) (ts : List Ty) (e : Dexp) (t : Ty) :
    (primApp prim ts [e] t).eval T H F n env =
      (e.eval T H F n env).bind fun v => prim.eval T H [v] := by
  simp only [eval, evalWith, evalsWith]
  cases e.evalWith T H (Ssa.run T H F n) env <;> rfl

theorem eval_primApp2 (n : ℕ) (prim : Prim) (ts : List Ty) (e1 e2 : Dexp) (t : Ty) :
    (primApp prim ts [e1, e2] t).eval T H F n env =
      (e1.eval T H F n env).bind fun v1 => (e2.eval T H F n env).bind fun v2 =>
        prim.eval T H [v1, v2] := by
  simp only [eval, evalWith, evalsWith]
  cases e1.evalWith T H (Ssa.run T H F n) env <;>
    cases e2.evalWith T H (Ssa.run T H F n) env <;> rfl

theorem eval_call (n : ℕ) (f : Func) (es : List Dexp) (t : Ty) :
    (call f es t).eval T H F n env =
      (evalsWith T H (Ssa.run T H F n) env es).bind (Ssa.run T H F n f) := by
  rw [eval, evalWith]
  rfl

theorem eval_name (n : ℕ) (e : Dexp) (x : Var) (body : Dexp) :
    (name e x body).eval T H F n env = (e.eval T H F n env).bind fun v =>
      body.eval T H F n (Function.update env x (some v)) := by
  rw [eval, evalWith]
  rfl

theorem eval_casee (n : ℕ) {e : Dexp} {cs : List (Con × List (Var × Ty) × Dexp)} {d : Option Dexp}
    {t : Ty} {v : Val} {c : Con} {vs : List Val} (he : e.eval T H F n env = some v)
    (hv : H.conArgs v = some (c, vs)) :
    (casee e cs d t).eval T H F n env =
      (evalCases T H (Ssa.run T H F n) env c vs cs).getD
        (evalDefault T H (Ssa.run T H F n) env d) := by
  rw [eval] at he
  rw [eval, evalWith, he]
  simp only [Option.bind_eq_bind, Option.bind_some, hv]

@[simp] theorem eval_truee (n : ℕ) : truee.eval T H F n env = some (.bool true) := by
  rw [truee, eval, evalWith, evalsWith]
  rfl

@[simp] theorem eval_falsee (n : ℕ) : falsee.eval T H F n env = some (.bool false) := by
  rw [falsee, eval, evalWith, evalsWith]
  rfl

end Dexp

open Dexp

theorem returns_truee : Returns (fun n => truee.eval T H F n env) True :=
  ⟨true, by simp, Eventually.of_forall fun n => eval_truee n⟩

theorem returns_falsee : Returns (fun n => falsee.eval T H F n env) False :=
  ⟨false, by simp, Eventually.of_forall fun n => eval_falsee n⟩

/-! ### Conjunctions and disjunctions -/

variable {e1 e2 : Dexp}

theorem Returns.conjoin (h1 : Returns (fun n => e1.eval T H F n env) p)
    (h2 : p → Returns (fun n => e2.eval T H F n env) q) :
    Returns (fun n => (Dexp.conjoin e1 e2).eval T H F n env) (p ∧ q) := by
  obtain ⟨b, hb, hr⟩ := h1
  cases b with
  | true =>
    have hp := hb.1 rfl
    obtain ⟨b', hb', hr'⟩ := h2 hp
    refine ⟨b', hb'.trans (and_iff_right hp).symm, ?_⟩
    filter_upwards [hr, hr'] with n hn hn'
    rw [Dexp.conjoin, eval_casee n hn rfl, evalCases, if_pos rfl]
    exact hn'
  | false =>
    have hp : ¬p := fun hp => Bool.false_ne_true (hb.2 hp)
    refine ⟨false, by simp [hp], ?_⟩
    filter_upwards [hr] with n hn
    rw [Dexp.conjoin, eval_casee n hn rfl, evalCases, if_neg (by simp), evalCases, if_pos rfl]
    exact eval_falsee n

theorem Returns.disjoin (h1 : Returns (fun n => e1.eval T H F n env) p)
    (h2 : ¬p → Returns (fun n => e2.eval T H F n env) q) :
    Returns (fun n => (Dexp.disjoin e1 e2).eval T H F n env) (p ∨ q) := by
  obtain ⟨b, hb, hr⟩ := h1
  cases b with
  | true =>
    have hp := hb.1 rfl
    refine ⟨true, by simp [hp], ?_⟩
    filter_upwards [hr] with n hn
    rw [Dexp.disjoin, eval_casee n hn rfl, evalCases, if_pos rfl]
    exact eval_truee n
  | false =>
    have hp : ¬p := fun hp => Bool.false_ne_true (hb.2 hp)
    obtain ⟨b', hb', hr'⟩ := h2 hp
    refine ⟨b', hb'.trans (or_iff_right hp).symm, ?_⟩
    filter_upwards [hr, hr'] with n hn hn'
    rw [Dexp.disjoin, eval_casee n hn rfl, evalCases, if_neg (by simp), evalCases, if_pos rfl]
    exact hn'

/-! ### Comparisons of bits -/

variable {x1 x2 : Var} {t1 t2 : Ty} {v1 v2 : Val}

theorem returns_eq {t : Ty} (h1 : ∀ n, e1.eval T H F n env = some v1)
    (h2 : ∀ n, e2.eval T H F n env = some v2) :
    Returns (fun n => (Dexp.eq e1 e2 t).eval T H F n env) (v1 = v2) :=
  returns_decide inferInstance fun n => by
    rw [Dexp.eq, eval_primApp2, h1, h2]
    rfl

theorem returns_cpointerEqual {ts : List Ty} {t : Ty} {w1 w2 : WordX}
    (h1 : ∀ n, e1.eval T H F n env = some (.word w1))
    (h2 : ∀ n, e2.eval T H F n env = some (.word w2)) :
    Returns (fun n => (primApp .cpointerEqual ts [e1, e2] t).eval T H F n env) (w1 = w2) :=
  returns_decide inferInstance fun n => by
    rw [eval_primApp2, h1, h2]
    rfl

theorem returns_wordEqual {s : WordSize} {w1 w2 : WordX}
    (h1 : ∀ n, e1.eval T H F n env = some (.word w1))
    (h2 : ∀ n, e2.eval T H F n env = some (.word w2)) :
    Returns (fun n => (Dexp.wordEqual e1 e2 s).eval T H F n env) (w1 = w2) :=
  returns_decide inferInstance fun n => by
    rw [Dexp.wordEqual, eval_primApp2, h1, h2, ← Prim.equals_eq_decide]
    rfl

theorem returns_intInfEqual {ts : List Ty} {t : Ty} {i1 i2 : ℤ}
    (h1 : ∀ n, e1.eval T H F n env = some v1) (h2 : ∀ n, e2.eval T H F n env = some v2)
    (hi1 : H.intInf v1 = some i1) (hi2 : H.intInf v2 = some i2) :
    Returns (fun n => (primApp .intInfEqual ts [e1, e2] t).eval T H F n env) (i1 = i2) :=
  returns_decide inferInstance fun n => by
    rw [eval_primApp2, h1, h2]
    simp only [Option.bind_some, Prim.eval, hi1, hi2, Option.bind_eq_bind]

/-! ### Calls and named expressions -/

theorem evalsWith_cons {e : Dexp} {es : List Dexp} {n : ℕ} {v : Val} {vs : List Val}
    (he : e.eval T H F n env = some v)
    (hes : evalsWith T H (Ssa.run T H F n) env es = some vs) :
    evalsWith T H (Ssa.run T H F n) env (e :: es) = some (v :: vs) := by
  rw [eval] at he
  rw [evalsWith, he, hes]
  rfl

theorem Returns.call {f : Func} {es : List Dexp} {vs : List Val} {t : Ty}
    (hes : ∀ n, evalsWith T H (Ssa.run T H F n) env es = some vs)
    (h : Returns (fun n => Ssa.run T H F n f vs) p) :
    Returns (fun n => (Dexp.call f es t).eval T H F n env) p :=
  h.of_eq fun n => by rw [eval_call, hes, Option.bind_some]

theorem Returns.call2 {f : Func} {t : Ty}
    (h1 : ∀ n, e1.eval T H F n env = some v1) (h2 : ∀ n, e2.eval T H F n env = some v2)
    (h : Returns (fun n => Ssa.run T H F n f [v1, v2]) p) :
    Returns (fun n => (Dexp.call f [e1, e2] t).eval T H F n env) p :=
  h.call fun n => evalsWith_cons (h1 n) (evalsWith_cons (h2 n) (by rw [evalsWith]))

theorem Returns.name {e body : Dexp} {x : Var} {v : Val}
    (he : ∀ n, e.eval T H F n env = some v)
    (h : Returns (fun n => body.eval T H F n (Function.update env x (some v))) p) :
    Returns (fun n => (Dexp.name e x body).eval T H F n env) p :=
  h.of_eq fun n => by rw [eval_name, he, Option.bind_some]

theorem Returns.lett {decs : List (Var × Dexp)} {body : Dexp} {env' : ValEnv}
    (hdecs : ∀ n, evalDecs T H (Ssa.run T H F n) env decs = some env')
    (h : Returns (fun n => body.eval T H F n env') p) :
    Returns (fun n => (Dexp.lett decs body).eval T H F n env) p :=
  h.of_eq fun n => by
    rw [Dexp.eval, evalWith, hdecs]
    rfl

theorem evalDecs_cons {x : Var} {e : Dexp} {decs : List (Var × Dexp)} {n : ℕ} {v : Val}
    (he : e.eval T H F n env = some v) :
    evalDecs T H (Ssa.run T H F n) env ((x, e) :: decs) =
      evalDecs T H (Ssa.run T H F n) (Function.update env x (some v)) decs := by
  rw [eval] at he
  rw [evalDecs, he]
  rfl

end MultiMLton.Ssa
