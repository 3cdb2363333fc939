import MultiMLton.ClosureConvert.Sxml

/-!
# Free variables of lambdas

`closure-convert/lambda-free.fun`. Every variable has one status, which belongs to the scope whose
list of free variables it refers to. A scope that meets a variable of another scope saves its status
and restores it at its end.
-/

namespace MultiMLton.Sxml.LambdaFree

/-- What has been seen of a variable in a scope. -/
inductive Status
  | unseen
  | free
  | bound
  deriving DecidableEq

/-- The references of a scope: `frees`, of which `id` is the name, and `all`. -/
structure Scope where
  id : ℕ
  frees : List Var
  all : List (Var × ℕ × Status)

/-- `varInfo` and `lambdaInfo`, and the current scope. -/
structure State where
  /-- No scope has this name yet. -/
  next : ℕ
  frees : Var → ℕ
  status : Var → Status
  lambdaFrees : ℕ → List Var
  lambdaRecs : ℕ → List Var
  scope : Scope

namespace State

variable (s : State)

/-- The status of `x` in the current scope is its status now. -/
def statusRef (x : Var) : State :=
  if s.scope.id = s.frees x then s
  else { s with
    frees := Function.update s.frees x s.scope.id
    status := Function.update s.status x .unseen
    scope := { s.scope with all := (x, s.frees x, s.status x) :: s.scope.all } }

def get (x : Var) : Status × State := ((s.statusRef x).status x, s.statusRef x)

def set (x : Var) (v : Status) : State :=
  { s.statusRef x with status := Function.update (s.statusRef x).status x v }

def push (x : Var) : State := { s with scope := { s.scope with frees := x :: s.scope.frees } }

def setFree (l : Lambda) (xs : List Var) : State :=
  { s with lambdaFrees := Function.update s.lambdaFrees l.plist xs }

def setRec (l : Lambda) (xs : List Var) : State :=
  { s with lambdaRecs := Function.update s.lambdaRecs l.plist xs }

/-- `fn (r, v, r', v') => (r := v; r' := v')` -/
def restore (e : Var × ℕ × Status) : State :=
  { s with
    frees := Function.update s.frees e.1 e.2.1
    status := Function.update s.status e.1 e.2.2 }

end State

def bind (x : Var) (s : State) : State := s.set x .bound

/-- An occurrence, which is free where nothing has been seen of the variable. -/
def var (x : Var) (s : State) : State :=
  match s.get x with
  | (.unseen, s) => (s.set x .free).push x
  | (_, s) => s

def vars (xs : List Var) (s : State) : State := xs.foldl (fun s x => var x s) s

/-- The variables free in `th`, and the state with the references from before. -/
def newScope (th : State → State) (s : State) : List Var × State :=
  let t := th { s with next := s.next + 1, scope := ⟨s.next, [], []⟩ }
  let t' := t.scope.all.foldl State.restore t
  (t.scope.frees, { t' with scope := s.scope })

/-- The frees of a group are set, and its functions bound. -/
def setFrees (xs : List Var) : Funs → State → State
  | .nil, s => s
  | .cons x l ds, s => setFrees xs ds (bind x (s.setFree l xs))

variable (overflow : Var)

mutual

def exp : Exp → State → State
  | .result x, s => var x s
  | .dec d e, s => exp e (dec d s)

def dec : Dec → State → State
  | .exception _ _, s => s
  | .monoVal x _ e, s => bind x (primExp e s)
  | .polyVal x _ e, s => bind x (exp e s)
  | .func ds, s =>
    let (xs, s) := newScope (funs ds.vars ds) s
    vars xs (setFrees xs ds s)

/-- The functions of a group, of which the variables are `isBound`. -/
def funs (isBound : List Var) : Funs → State → State
  | .nil, s => s
  | .cons _ l ds, s =>
    let (xs, s) := lambda l s
    let s := vars (xs.filter fun x => decide (x ∉ isBound)) s
    funs isBound ds (s.setRec l (xs.filter fun x => decide (x ∈ isBound)))

def primExp : PrimExp → State → State
  | .app func arg, s => var arg (var func s)
  | .case test c d, s => cases c (default d (var test s))
  | .conApp _ arg, s => vars arg.toList s
  | .const _, s => s
  | .handle body x handler, s => exp handler (bind x (exp body s))
  | .lambda l, s =>
    let (xs, s) := lambda l s
    vars xs (s.setFree l xs)
  | .primApp prim args, s => vars args (if prim.mayOverflow then var overflow s else s)
  | .profile, s => s
  | .raise exn, s => var exn s
  | .select tuple _, s => var tuple s
  | .tuple xs, s => vars xs s
  | .var x, s => var x s

def cases : Cases → State → State
  | .nil, s => s
  | .cons p e c, s => cases c (exp e (p.vars.foldl (fun s x => bind x s) s))

def default : Default → State → State
  | .none, s => s
  | .some e, s => exp e s

/-- The variables free in a lambda. -/
def lambda : Lambda → State → List Var × State
  | .mk _ x e, s => newScope (fun s => exp e (bind x s)) s

end

end LambdaFree

open LambdaFree

/-- The references before the pass: every variable refers to one list, of no scope. -/
def LambdaFree.init : State where
  next := 1
  frees _ := 0
  status _ := .unseen
  lambdaFrees _ := []
  lambdaRecs _ := []
  scope := ⟨0, [], []⟩

/-- `lambdaFree`; there is no result if the program has free variables. -/
def lambdaFree (p : Program) : Option State :=
  let (frees, s) := newScope (exp p.overflow p.body) init
  if frees.isEmpty then some s else none

end MultiMLton.Sxml

/-!
## What a scope does to the statuses

`Runs` says what a part of a program does in the current scope, by the variables that occur free in
it and those that it binds: the first become free where they were not seen (`Runs.mem_frees`).
Whatever a scope does, at its end all statuses are as they were at its start (`newScope_spec`).
-/

namespace MultiMLton.Sxml.LambdaFree

/-- The elements are those of `F`, each once. -/
def Exactly (xs : List Var) (F : Finset Var) : Prop := xs.Nodup ∧ ∀ x, x ∈ xs ↔ x ∈ F

namespace State

/-- The status of a variable in the current scope. -/
def view (s : State) (x : Var) : Status :=
  if s.frees x = s.scope.id then s.status x else .unseen

/-- What holds of a scope that was entered with the given references and statuses. -/
structure Good (frees : Var → ℕ) (status : Var → Status) (s : State) : Prop where
  fresh : ∀ x, s.frees x < s.next
  id_lt : s.scope.id < s.next
  nodup : s.scope.frees.Nodup
  seen : ∀ x ∈ s.scope.frees, s.view x ≠ .unseen
  all : ∀ x, s.frees x = s.scope.id → x ∈ s.scope.all.map Prod.fst
  restore_frees : (s.scope.all.foldl State.restore s).frees = frees
  restore_status : (s.scope.all.foldl State.restore s).status = status

variable {s s' : State} {frees : Var → ℕ} {status : Var → Status} {x y : Var} {v : Status}

theorem view_of_eq (h : s.frees x = s.scope.id) : s.view x = s.status x := if_pos h

theorem view_of_ne (h : s.frees x ≠ s.scope.id) : s.view x = .unseen := if_neg h

theorem frees_restore (s : State) (e : Var × ℕ × Status) :
    (s.restore e).frees = Function.update s.frees e.1 e.2.1 := rfl

theorem status_restore (s : State) (e : Var × ℕ × Status) :
    (s.restore e).status = Function.update s.status e.1 e.2.2 := rfl

/-- Restoring does not depend on what is restored. -/
theorem restore_congr {s t : State} (all : List (Var × ℕ × Status))
    (h : ∀ y, y ∉ all.map Prod.fst → s.frees y = t.frees y ∧ s.status y = t.status y) :
    (all.foldl restore s).frees = (all.foldl restore t).frees ∧
      (all.foldl restore s).status = (all.foldl restore t).status := by
  induction all generalizing s t with
  | nil => exact ⟨funext fun y => (h y List.not_mem_nil).1, funext fun y => (h y List.not_mem_nil).2⟩
  | cons e all ih =>
    refine ih fun y hy => ?_
    simp only [frees_restore, status_restore]
    by_cases heq : y = e.1
    · subst heq
      simp only [Function.update_self, and_self]
    · simp only [Function.update_of_ne heq]
      refine h y ?_
      rw [List.map_cons]
      exact List.not_mem_cons_of_ne_of_not_mem heq hy

/-- The lambdas play no role. -/
theorem Good.congr (h : Good frees status s) (hfrees : s'.frees = s.frees)
    (hstatus : s'.status = s.status) (hscope : s'.scope = s.scope) (hnext : s.next ≤ s'.next) :
    Good frees status s' := by
  have hview : ∀ x, s'.view x = s.view x := by
    intro x
    unfold view
    rw [hfrees, hstatus, hscope]
  have hrestore := restore_congr (s := s') (t := s) s.scope.all fun y _ =>
    ⟨congrFun hfrees y, congrFun hstatus y⟩
  refine ⟨fun x => ?_, ?_, ?_, fun x hx => ?_, fun x hx => ?_, ?_, ?_⟩
  · rw [hfrees]
    exact (h.fresh x).trans_le hnext
  · rw [hscope]
    exact h.id_lt.trans_le hnext
  · rw [hscope]
    exact h.nodup
  · rw [hview]
    rw [hscope] at hx
    exact h.seen x hx
  · rw [hfrees, hscope] at hx
    rw [hscope]
    exact h.all x hx
  · rw [hscope]
    exact hrestore.1.trans h.restore_frees
  · rw [hscope]
    exact hrestore.2.trans h.restore_status

/-! ### The status of a variable -/

theorem statusRef_of_eq (h : s.scope.id = s.frees x) : s.statusRef x = s := if_pos h

theorem statusRef_of_ne (h : s.scope.id ≠ s.frees x) : s.statusRef x = { s with
    frees := Function.update s.frees x s.scope.id
    status := Function.update s.status x .unseen
    scope := { s.scope with all := (x, s.frees x, s.status x) :: s.scope.all } } := if_neg h

theorem statusRef_self (s : State) (x : Var) :
    (s.statusRef x).frees x = (s.statusRef x).scope.id := by
  by_cases h : s.scope.id = s.frees x
  · rw [statusRef_of_eq h, h]
  · rw [statusRef_of_ne h]
    exact Function.update_self ..

theorem statusRef_view (s : State) (x y : Var) : (s.statusRef x).view y = s.view y := by
  by_cases h : s.scope.id = s.frees x
  · rw [statusRef_of_eq h]
  · by_cases hy : y = x
    · subst hy
      rw [view_of_eq (statusRef_self s y), view_of_ne (Ne.symm h), statusRef_of_ne h]
      exact Function.update_self ..
    · rw [statusRef_of_ne h]
      simp only [view, Function.update_of_ne hy]

theorem statusRef_status (s : State) (x : Var) : (s.statusRef x).status x = s.view x := by
  rw [← statusRef_view s x x, view_of_eq (statusRef_self s x)]

@[simp] theorem statusRef_id (s : State) (x : Var) :
    (s.statusRef x).scope.id = s.scope.id := by
  unfold statusRef
  split_ifs <;> rfl

@[simp] theorem statusRef_next (s : State) (x : Var) : (s.statusRef x).next = s.next := by
  unfold statusRef
  split_ifs <;> rfl

@[simp] theorem statusRef_scope_frees (s : State) (x : Var) :
    (s.statusRef x).scope.frees = s.scope.frees := by
  unfold statusRef
  split_ifs <;> rfl

@[simp] theorem statusRef_lambdaFrees (s : State) (x : Var) :
    (s.statusRef x).lambdaFrees = s.lambdaFrees := by
  unfold statusRef
  split_ifs <;> rfl

@[simp] theorem statusRef_lambdaRecs (s : State) (x : Var) :
    (s.statusRef x).lambdaRecs = s.lambdaRecs := by
  unfold statusRef
  split_ifs <;> rfl

theorem Good.statusRef (h : Good frees status s) (x : Var) :
    Good frees status (s.statusRef x) := by
  by_cases heq : s.scope.id = s.frees x
  · rwa [statusRef_of_eq heq]
  · have hall : (s.statusRef x).scope.all = (x, s.frees x, s.status x) :: s.scope.all := by
      rw [statusRef_of_ne heq]
    -- what is restored first is the old status
    have hrestore := restore_congr (s := (s.statusRef x).restore (x, s.frees x, s.status x))
      (t := s) s.scope.all fun y _ => by
        rw [statusRef_of_ne heq]
        simp only [frees_restore, status_restore, Function.update_idem, Function.update_eq_self,
          and_self]
    rw [← List.foldl_cons, ← hall] at hrestore
    refine ⟨fun y => ?_, by simpa using h.id_lt, by simpa using h.nodup, fun y hy => ?_,
      fun y hy => ?_, hrestore.1.trans h.restore_frees, hrestore.2.trans h.restore_status⟩
    · rw [statusRef_next, statusRef_of_ne heq]
      change Function.update s.frees x s.scope.id y < s.next
      by_cases hy : y = x
      · rw [hy, Function.update_self]
        exact h.id_lt
      · rw [Function.update_of_ne hy]
        exact h.fresh y
    · rw [statusRef_view]
      exact h.seen y (by simpa using hy)
    · rw [hall]
      by_cases hyx : y = x
      · exact hyx ▸ List.mem_cons_self
      · rw [statusRef_of_ne heq] at hy
        exact List.mem_cons_of_mem _ (h.all y ((Function.update_of_ne hyx ..).symm.trans hy))

/-- A status of this scope is set. -/
theorem Good.update (h : Good frees status s) (hx : s.frees x = s.scope.id) (hv : v ≠ .unseen) :
    Good frees status { s with status := Function.update s.status x v } := by
  have hrestore := restore_congr (s := { s with status := Function.update s.status x v })
    (t := s) s.scope.all fun y hy => ⟨rfl, Function.update_of_ne ?_ ..⟩
  · refine ⟨h.fresh, h.id_lt, h.nodup, fun y hy => ?_, h.all,
      hrestore.1.trans h.restore_frees, hrestore.2.trans h.restore_status⟩
    by_cases hyx : y = x
    · subst hyx
      unfold view
      dsimp only
      rw [if_pos hx, Function.update_self]
      exact hv
    · have := h.seen y hy
      simpa [view, Function.update_of_ne hyx] using this
  · rintro rfl
    exact hy (h.all y hx)

theorem set_view (s : State) (x y : Var) (v : Status) :
    (s.set x v).view y = if y = x then v else s.view y := by
  split_ifs with hy
  · subst hy
    exact (if_pos (statusRef_self s y)).trans (Function.update_self ..)
  · rw [← statusRef_view s x y]
    simp only [view, set, Function.update_of_ne hy]

theorem Good.set (h : Good frees status s) (x : Var) (hv : v ≠ .unseen) :
    Good frees status (s.set x v) :=
  (h.statusRef x).update (statusRef_self s x) hv

theorem set_eq (s : State) (x : Var) (v : Status) :
    (s.set x v).scope.id = s.scope.id ∧ (s.set x v).scope.frees = s.scope.frees ∧
      (s.set x v).next = s.next ∧ (s.set x v).lambdaFrees = s.lambdaFrees ∧
      (s.set x v).lambdaRecs = s.lambdaRecs := by
  simp [set]

/-- The state is in some scope. -/
def Scoped (s : State) : Prop := ∃ frees status, s.Good frees status

theorem Scoped.fresh (h : s.Scoped) : ∀ x, s.frees x < s.next := by
  obtain ⟨_, _, hg⟩ := h
  exact hg.fresh

end State

/-! ### What a part of a program does -/

/-- From `s` to `s'`, the variables `F` occurred free, those of `X` were bound in the scope, and
only those of `B` in it. Only the lambdas `P` were given their frees, and `Q` their recs. -/
structure Runs (F : Finset Var) (X B : List Var) (P Q : List ℕ) (s s' : State) : Prop where
  good : ∀ frees status, s.Good frees status → s'.Good frees status
  id_eq : s'.scope.id = s.scope.id
  next_le : s.next ≤ s'.next
  view_eq : ∀ x, x ∉ B → s'.view x = if s.view x = .unseen ∧ x ∈ F then .free else s.view x
  seen : ∀ x, s.view x ≠ .unseen → s'.view x ≠ .unseen
  bound : ∀ x ∈ X, s'.view x ≠ .unseen
  mem_frees : ∀ x, x ∈ s'.scope.frees ↔ x ∈ s.scope.frees ∨ s.view x = .unseen ∧ x ∈ F
  frees_other : ∀ p, p ∉ P → s'.lambdaFrees p = s.lambdaFrees p
  recs_other : ∀ p, p ∉ Q → s'.lambdaRecs p = s.lambdaRecs p

namespace Runs

variable {s s' s'' : State} {F F' : Finset Var} {X X' B B' : List Var} {P P' Q Q' : List ℕ} {x : Var}

theorem refl (s : State) : Runs ∅ [] [] [] [] s s where
  good _ _ h := h
  id_eq := rfl
  next_le := le_rfl
  view_eq x _ := by simp
  seen _ h := h
  bound := nofun
  mem_frees x := by simp
  frees_other _ _ := rfl
  recs_other _ _ := rfl

theorem weaken {C : List Var} {R T : List ℕ} (h : Runs F X B P Q s s') (hB : B ⊆ C) (hP : P ⊆ R)
    (hQ : Q ⊆ T) : Runs F X C R T s s' :=
  { h with
    view_eq := fun x hx => h.view_eq x fun hx' => hx (hB hx')
    frees_other := fun p hp => h.frees_other p fun hp' => hp (hP hp')
    recs_other := fun p hp => h.recs_other p fun hp' => hp (hQ hp') }

/-- One part after the other: what the first binds does not occur free. -/
theorem trans (h : Runs F X B P Q s s') (h' : Runs F' X' B' P' Q' s' s'')
    (hX : X ⊆ B) (hF : ∀ x ∈ F', x ∈ B → x ∈ X) :
    Runs (F ∪ ( F' \ X.toFinset)) (X ++ X') (B ++ B') (P ++ P') (Q ++ Q') s s'' where
  good _ _ hg := h'.good _ _ (h.good _ _ hg)
  id_eq := h'.id_eq.trans h.id_eq
  next_le := h.next_le.trans h'.next_le
  view_eq x hx := by
    obtain ⟨hB, hB'⟩ := not_or.1 (mt List.mem_append.2 hx)
    have hxX : x ∉ X := fun hxX => hB (hX hxX)
    rw [h'.view_eq x hB', h.view_eq x hB]
    by_cases hv : s.view x = .unseen <;> by_cases hxF : x ∈ F <;> by_cases hxF' : x ∈ F' <;>
      simp [hv, hxF, hxF', hxX]
  seen x hx := h'.seen x (h.seen x hx)
  bound x hx := by
    rcases List.mem_append.1 hx with hx | hx
    · exact h'.seen x (h.bound x hx)
    · exact h'.bound x hx
  mem_frees x := by
    rw [h'.mem_frees, h.mem_frees]
    by_cases hxX : x ∈ X
    · have := h.bound x hxX
      simp [hxX, this]
    · by_cases hxF' : x ∈ F'
      · rw [h.view_eq x fun hB => hxX (hF x hxF' hB)]
        by_cases hv : s.view x = .unseen <;> by_cases hxF : x ∈ F <;> simp [hv, hxF, hxF', hxX]
      · simp [hxF']
  frees_other p hp := by
    obtain ⟨hP, hP'⟩ := not_or.1 (mt List.mem_append.2 hp)
    rw [h'.frees_other p hP', h.frees_other p hP]
  recs_other p hp := by
    obtain ⟨hQ, hQ'⟩ := not_or.1 (mt List.mem_append.2 hp)
    rw [h'.recs_other p hQ', h.recs_other p hQ]

theorem isScoped (h : Runs F X B P Q s s') (hs : s.Scoped) : s'.Scoped := by
  obtain ⟨frees, status, hg⟩ := hs
  exact ⟨frees, status, h.good _ _ hg⟩

/-- What was bound may be forgotten. -/
theorem forget (h : Runs F X B P Q s s') : Runs F [] B P Q s s' := { h with bound := nofun }

/-- Where the first binds nothing for the second. -/
theorem trans_nil (h : Runs F X B P Q s s') (h' : Runs F' X' B' P' Q' s' s'')
    (hF : ∀ x ∈ F', x ∉ B) : Runs (F ∪ F') X' (B ++ B') (P ++ P') (Q ++ Q') s s'' := by
  have h1 := h.forget.trans h' (List.nil_subset _) fun x hx hB => absurd hB (hF x hx)
  rwa [List.toFinset_nil, Finset.sdiff_empty] at h1

theorem bind (s : State) (x : Var) : Runs ∅ [x] [x] [] [] s (LambdaFree.bind x s) := by
  obtain ⟨hid, hfrees, hnext, hlf, hlr⟩ := s.set_eq x .bound
  refine ⟨fun _ _ hg => hg.set x nofun, hid, hnext.ge, fun y hy => ?_, fun y hy => ?_, fun y hy => ?_,
    fun y => ?_, fun p _ => congrFun hlf p, fun p _ => congrFun hlr p⟩
  · rw [LambdaFree.bind, State.set_view, if_neg (by simpa using hy)]
    simp
  · rw [LambdaFree.bind, State.set_view]
    split_ifs
    · nofun
    · exact hy
  · rw [LambdaFree.bind, State.set_view, if_pos (by simpa using hy)]
    nofun
  · rw [LambdaFree.bind, hfrees]
    simp

theorem var (s : State) (x : Var) : Runs {x} [] [] [] [] s (LambdaFree.var x s) := by
  have hget : s.get x = (s.view x, s.statusRef x) := Prod.ext (State.statusRef_status s x) rfl
  have hview := s.statusRef_view x
  by_cases hv : s.view x = .unseen
  · have heq : LambdaFree.var x s = ((s.statusRef x).set x .free).push x := by
      rw [LambdaFree.var, hget, hv]
    obtain ⟨hid, hfrees, hnext, hlf, hlr⟩ := (s.statusRef x).set_eq x .free
    have hset : ∀ y, (((s.statusRef x).set x .free).push x).view y =
        if y = x then .free else s.view y := by
      intro y
      rw [← hview y]
      exact State.set_view ..
    rw [heq]
    refine ⟨fun _ _ hg => ?_, ?_, ?_, fun y _ => ?_, fun y hy => ?_, nofun, fun y => ?_, fun p _ => ?_,
      fun p _ => ?_⟩
    · have hg' := (hg.statusRef x).set x (v := .free) nofun
      have hpush := State.restore_congr (s := ((s.statusRef x).set x .free).push x)
        (t := (s.statusRef x).set x .free) ((s.statusRef x).set x .free).scope.all
        fun y _ => ⟨rfl, rfl⟩
      refine ⟨hg'.fresh, hg'.id_lt, ?_, fun y hy => ?_, hg'.all, ?_, ?_⟩
      · refine List.nodup_cons.2 ⟨fun hmem => ?_, hg'.nodup⟩
        rw [hfrees, State.statusRef_scope_frees] at hmem
        exact hg.seen x hmem hv
      · rw [hset]
        split_ifs with hyx
        · nofun
        · refine hg.seen y ?_
          rcases List.mem_cons.1 hy with hy | hy
          · exact absurd hy hyx
          · rwa [hfrees, State.statusRef_scope_frees] at hy
      · exact hpush.1.trans hg'.restore_frees
      · exact hpush.2.trans hg'.restore_status
    · exact hid.trans (State.statusRef_id s x)
    · exact (hnext.trans (State.statusRef_next s x)).ge
    · rw [hset]
      split_ifs <;> simp_all
    · rw [hset]
      split_ifs
      · nofun
      · exact hy
    · change y ∈ x :: ((s.statusRef x).set x .free).scope.frees ↔ _
      rw [hfrees, State.statusRef_scope_frees, List.mem_cons, Finset.mem_singleton]
      constructor
      · rintro (rfl | hy)
        · exact .inr ⟨hv, rfl⟩
        · exact .inl hy
      · rintro (hy | ⟨-, rfl⟩)
        · exact .inr hy
        · exact .inl rfl
    · exact (congrFun hlf p).trans (congrFun (State.statusRef_lambdaFrees s x) p)
    · exact (congrFun hlr p).trans (congrFun (State.statusRef_lambdaRecs s x) p)
  · have heq : LambdaFree.var x s = s.statusRef x := by
      rw [LambdaFree.var, hget]
      cases h : s.view x with
      | unseen => exact absurd h hv
      | free => rfl
      | bound => rfl
    rw [heq]
    refine ⟨fun _ _ hg => hg.statusRef x, by simp, by simp, fun y _ => ?_, fun y hy => ?_, nofun,
      fun y => ?_, fun p _ => by simp, fun p _ => by simp⟩
    · rw [hview, if_neg]
      rintro ⟨hy, hyx⟩
      rw [Finset.mem_singleton.1 hyx] at hy
      exact hv hy
    · rwa [hview]
    · rw [State.statusRef_scope_frees, Finset.mem_singleton]
      refine ⟨.inl, ?_⟩
      rintro (hy | ⟨hy, rfl⟩)
      · exact hy
      · exact absurd hy hv

theorem vars (s : State) (xs : List Var) : Runs xs.toFinset [] [] [] [] s (LambdaFree.vars xs s) := by
  induction xs generalizing s with
  | nil => exact .refl s
  | cons x xs ih =>
    have h := (var s x).trans (ih (LambdaFree.var x s)) (List.nil_subset _) fun _ _ hB => hB
    rw [List.toFinset_nil, Finset.sdiff_empty] at h
    rw [List.toFinset_cons, Finset.insert_eq]
    exact h

theorem binds (s : State) (xs : List Var) :
    Runs ∅ xs xs [] [] s (xs.foldl (fun s x => LambdaFree.bind x s) s) := by
  induction xs generalizing s with
  | nil => exact .refl s
  | cons x xs ih =>
    have h := (bind s x).trans (ih (LambdaFree.bind x s)) (List.Subset.refl _) fun _ hF => nomatch hF
    rw [Finset.empty_sdiff, Finset.empty_union] at h
    exact h

theorem setFree (s : State) (l : Lambda) (xs : List Var) :
    Runs ∅ [] [] [l.plist] [] s (s.setFree l xs) :=
  { refl s with
    good := fun _ _ hg => hg.congr rfl rfl rfl le_rfl
    frees_other := fun p hp => Function.update_of_ne (by simpa using hp) .. }

theorem setRec (s : State) (l : Lambda) (xs : List Var) :
    Runs ∅ [] [] [] [l.plist] s (s.setRec l xs) :=
  { refl s with
    good := fun _ _ hg => hg.congr rfl rfl rfl le_rfl
    recs_other := fun p hp => Function.update_of_ne (by simpa using hp) .. }

end Runs

/-! ### Scopes -/

/-- The state in which a scope is entered. -/
def State.enter (s : State) : State := { s with next := s.next + 1, scope := ⟨s.next, [], []⟩ }

theorem State.enter_good {s : State} (hfresh : ∀ x, s.frees x < s.next) :
    s.enter.Good s.frees s.status :=
  ⟨fun x => Nat.lt_succ_of_lt (hfresh x), Nat.lt_succ_self _, List.nodup_nil, nofun,
    fun x hx => absurd hx (hfresh x).ne, rfl, rfl⟩

/-- Whatever happens in a scope, at its end all variables have the statuses that they had at its
start. The free variables are those that occurred free. -/
theorem newScope_spec {f : State → State} {s : State} {F : Finset Var} {X B : List Var}
    {P Q : List ℕ} (hfresh : ∀ x, s.frees x < s.next) (h : Runs F X B P Q s.enter (f s.enter)) :
    Exactly (newScope f s).1 F ∧ Runs ∅ [] [] P Q s (newScope f s).2 ∧
      (newScope f s).2.lambdaFrees = (f s.enter).lambdaFrees ∧
      (newScope f s).2.lambdaRecs = (f s.enter).lambdaRecs := by
  set t : State := s.enter with ht
  have hunseen : ∀ x, t.view x = .unseen := fun x => if_neg (hfresh x).ne
  have hg := h.good _ _ (State.enter_good hfresh)
  have hother : ∀ (all : List (Var × ℕ × Status)) (u : State),
      (all.foldl State.restore u).next = u.next ∧
        (all.foldl State.restore u).lambdaFrees = u.lambdaFrees ∧
        (all.foldl State.restore u).lambdaRecs = u.lambdaRecs := by
    intro all
    induction all with
    | nil => exact fun u => ⟨rfl, rfl, rfl⟩
    | cons e all ih => exact fun u => ih (u.restore e)
  obtain ⟨hnext, hlf, hlr⟩ := hother (f t).scope.all (f t)
  have hfrees : (newScope f s).2.frees = s.frees := hg.restore_frees
  have hstatus : (newScope f s).2.status = s.status := hg.restore_status
  have hscope : (newScope f s).2.scope = s.scope := rfl
  have hle : s.next ≤ (newScope f s).2.next := by
    change s.next ≤ ((f t).scope.all.foldl State.restore (f t)).next
    rw [hnext]
    exact (Nat.le_succ _).trans h.next_le
  have hview : ∀ x, (newScope f s).2.view x = s.view x := by
    intro x
    unfold State.view
    rw [hfrees, hstatus, hscope]
  refine ⟨⟨hg.nodup, fun x => ?_⟩, ?_, hlf, hlr⟩
  · refine (h.mem_frees x).trans ⟨?_, fun hx => .inr ⟨hunseen x, hx⟩⟩
    rintro (hx | hx)
    · cases hx
    · exact hx.2
  · refine ⟨fun frees status hs => ?_, by rw [hscope], hle, fun x _ => ?_, fun x hx => ?_, nofun,
      fun x => ?_, fun p hp => ?_, fun p hp => ?_⟩
    · exact hs.congr hfrees hstatus hscope hle
    · rw [hview]
      simp
    · rwa [hview]
    · rw [hscope]
      simp
    · exact (congrFun hlf p).trans (h.frees_other p hp)
    · exact (congrFun hlr p).trans (h.recs_other p hp)

end MultiMLton.Sxml.LambdaFree
