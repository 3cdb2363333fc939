import Mathlib.Logic.Basic
import Mathlib.Data.List.Nodup

/-!
# Sequential objects and their specifications

An object answers operations one after the other, each from the state that the one before has
left; its code may fail. A specification says of a state, an operation and a reply which
states may come next, so that it can leave a reply or a next state open.

* `runOps`: the code on a sequence of operations;
* `Evolves`: a run that the specification admits;
* `runOps_evolves`: code that meets the specification in one operation, under an abstraction of
  its states, meets it in every run and never fails.
-/

namespace SequentialObject

variable {σ τ ω ρ ε : Type*}

/-- A sequence of operations, with the replies. -/
def runOps (exec : σ → ω → Except ε (ρ × σ)) : σ → List ω → Except ε (List ρ × σ)
  | s, [] => .ok ([], s)
  | s, op :: ops =>
    match exec s op with
    | .error e => .error e
    | .ok (r, s') =>
      match runOps exec s' ops with
      | .error e => .error e
      | .ok (rs, s'') => .ok (r :: rs, s'')

/-- The specification admits the replies to a sequence of operations. -/
inductive Evolves (spec : τ → ω → ρ → τ → Prop) : τ → List ω → List ρ → τ → Prop
  | nil {x} : Evolves spec x [] [] x
  | cons {x y z op r ops rs} : spec x op r y → Evolves spec y ops rs z →
      Evolves spec x (op :: ops) (r :: rs) z

/-- An implementation step by step is one run by run. -/
theorem runOps_evolves {exec : σ → ω → Except ε (ρ × σ)} {spec : τ → ω → ρ → τ → Prop}
    (abs : σ → τ)
    (h : ∀ s op, ∃ r s', exec s op = .ok (r, s') ∧ spec (abs s) op r (abs s'))
    (s : σ) (ops : List ω) :
    ∃ rs s', runOps exec s ops = .ok (rs, s') ∧ Evolves spec (abs s) ops rs (abs s') := by
  induction ops generalizing s with
  | nil => exact ⟨[], s, rfl, .nil⟩
  | cons op ops ih =>
    obtain ⟨r, s₁, hexec, hspec⟩ := h s op
    obtain ⟨rs, s₂, hrun, hevolves⟩ := ih s₁
    exact ⟨r :: rs, s₂, by simp only [runOps, hexec, hrun], .cons hspec hevolves⟩

end SequentialObject

/-!
## Linearizability

A trace records what happens to the operations of a shared object, the latest first: an
operation is invoked, takes effect at its linearization point, and returns.  What the callers see
of it, the history, are the invocations and the returns.

* `Run spec s₀ cs s`: the calls `cs`, made one after the other, are a sequential run of `spec`;
* `Linearizes spec s₀ h cs`: the sequential run `cs` explains the history `h`: it contains every
  completed operation once, with the result that it has returned, and an operation that returned
  before another one was invoked comes before it;
* `WellFormed.linearizes`: the linearization points of a well-formed trace linearize its history.
-/

namespace Linearizability

/-- One operation, what it was asked to do and what it answered. -/
structure Call (ι Op Res : Type*) where
  id : ι
  op : Op
  res : Res
  deriving DecidableEq

/-- What can happen to an operation. -/
inductive Act (ι Op Res : Type*)
  | inv (i : ι) (op : Op)
  | lin (c : Call ι Op Res)
  | ret (i : ι) (r : Res)
  deriving DecidableEq

variable {ι Op Res S : Type*}

/-- The callers see invocations and returns. -/
def Act.visible : Act ι Op Res → Bool
  | .lin _ => false
  | _ => true

def Act.point : Act ι Op Res → Option (Call ι Op Res)
  | .lin c => some c
  | _ => none

/-- What the callers see of a trace. -/
def history (t : List (Act ι Op Res)) : List (Act ι Op Res) := t.filter Act.visible

/-- The linearization points of a trace. -/
def points (t : List (Act ι Op Res)) : List (Call ι Op Res) := t.filterMap Act.point

@[simp] theorem points_nil : points ([] : List (Act ι Op Res)) = [] := rfl

@[simp] theorem points_inv (i : ι) (op : Op) (t : List (Act ι Op Res)) :
    points (.inv i op :: t) = points t := rfl

@[simp] theorem points_lin (c : Call ι Op Res) (t : List (Act ι Op Res)) :
    points (.lin c :: t) = c :: points t := rfl

@[simp] theorem points_ret (i : ι) (r : Res) (t : List (Act ι Op Res)) :
    points (.ret i r :: t) = points t := rfl

theorem inv_mem_history {i : ι} {op : Op} {t : List (Act ι Op Res)} :
    .inv i op ∈ history t ↔ .inv i op ∈ t := by
  simp [history, Act.visible]

theorem ret_mem_history {i : ι} {r : Res} {t : List (Act ι Op Res)} :
    .ret i r ∈ history t ↔ .ret i r ∈ t := by
  simp [history, Act.visible]

/-- A sequential run of `spec` from `s₀` to `s`, the latest call first. -/
inductive Run (spec : Op → Res → S → S → Prop) (s₀ : S) : List (Call ι Op Res) → S → Prop
  | nil : Run spec s₀ [] s₀
  | cons {cs : List (Call ι Op Res)} {c : Call ι Op Res} {s s' : S} :
      Run spec s₀ cs s → spec c.op c.res s s' → Run spec s₀ (c :: cs) s'

variable {spec : Op → Res → S → S → Prop}

/-- What has been run first is a run of its own. -/
theorem Run.of_append {s₀ s : S} {cs ds : List (Call ι Op Res)}
    (h : Run spec s₀ (cs ++ ds) s) : ∃ s', Run spec s₀ ds s' := by
  induction cs generalizing s with
  | nil => exact ⟨s, h⟩
  | cons c cs ih =>
    cases h with
    | cons h _ => exact ih h

/-- Every call of a run does what the specification says. -/
theorem Run.legal_of_mem {s₀ s : S} {cs : List (Call ι Op Res)}
    (h : Run spec s₀ cs s) {c : Call ι Op Res} (hc : c ∈ cs) : ∃ s₁ s₂, spec c.op c.res s₁ s₂ := by
  induction h with
  | nil => cases hc
  | cons _ hstep ih =>
    rcases List.mem_cons.mp hc with rfl | hc
    · exact ⟨_, _, hstep⟩
    · exact ih hc

/-- Operation `i` has returned before operation `j` was invoked. -/
def Precedes (h : List (Act ι Op Res)) (i j : ι) : Prop :=
  ∃ later op earlier r, h = later ++ .inv j op :: earlier ∧ .ret i r ∈ earlier

/-- The sequential run `cs` explains the history `h`. -/
structure Linearizes (spec : Op → Res → S → S → Prop) (s₀ : S) (h : List (Act ι Op Res))
    (cs : List (Call ι Op Res)) : Prop where
  nodup : (cs.map Call.id).Nodup
  invoked : ∀ c ∈ cs, .inv c.id c.op ∈ h
  completed : ∀ i r, .ret i r ∈ h → ∃ op, ⟨i, op, r⟩ ∈ cs
  legal : ∃ s, Run spec s₀ cs s
  realTime : ∀ a ∈ cs, ∀ b ∈ cs, Precedes h a.id b.id →
    ∃ later earlier, cs = later ++ b :: earlier ∧ a ∈ earlier

/-- Operations are invoked once, take effect once after that, and return after that. -/
inductive WellFormed : List (Act ι Op Res) → Prop
  | nil : WellFormed []
  | inv {t : List (Act ι Op Res)} {i : ι} {op : Op} :
      WellFormed t → (∀ op', .inv i op' ∉ t) → WellFormed (.inv i op :: t)
  | lin {t : List (Act ι Op Res)} {c : Call ι Op Res} :
      WellFormed t → .inv c.id c.op ∈ t → (∀ d ∈ points t, d.id ≠ c.id) →
        WellFormed (.lin c :: t)
  | ret {t : List (Act ι Op Res)} {i : ι} {op : Op} {r : Res} :
      WellFormed t → ⟨i, op, r⟩ ∈ points t → WellFormed (.ret i r :: t)

namespace WellFormed

variable {t : List (Act ι Op Res)}

theorem invoked (h : WellFormed t) : ∀ c ∈ points t, .inv c.id c.op ∈ t := by
  induction h with
  | nil => simp
  | inv _ _ ih | ret _ _ ih => exact fun c hc => List.mem_cons_of_mem _ (ih c hc)
  | @lin t d _ hinv _ ih =>
    intro c hc
    rw [points_lin] at hc
    rcases List.mem_cons.mp hc with rfl | hc
    · exact List.mem_cons_of_mem _ hinv
    · exact List.mem_cons_of_mem _ (ih c hc)

theorem nodup (h : WellFormed t) : ((points t).map Call.id).Nodup := by
  induction h with
  | nil => simp
  | inv _ _ ih => exact ih
  | lin _ _ hfresh ih =>
    rw [points_lin, List.map_cons, List.nodup_cons]
    refine ⟨fun hmem => ?_, ih⟩
    obtain ⟨d, hd, hid⟩ := List.mem_map.mp hmem
    exact hfresh d hd hid
  | ret _ _ ih => exact ih

theorem completed (h : WellFormed t) {i : ι} {r : Res} (hr : .ret i r ∈ t) :
    ∃ op, ⟨i, op, r⟩ ∈ points t := by
  induction h with
  | nil => cases hr
  | inv _ _ ih => exact ih ((List.mem_cons.mp hr).resolve_left (by simp))
  | lin _ _ _ ih =>
    obtain ⟨op, hop⟩ := ih ((List.mem_cons.mp hr).resolve_left (by simp))
    exact ⟨op, List.mem_cons_of_mem _ hop⟩
  | ret _ hp ih =>
    rcases List.mem_cons.mp hr with heq | hr
    · cases heq
      exact ⟨_, hp⟩
    · exact ih hr

/-- An operation is invoked once. -/
theorem inv_unique (h : WellFormed t) {i : ι} {op op' : Op} (hop : .inv i op ∈ t)
    (hop' : .inv i op' ∈ t) : op = op' := by
  induction h with
  | nil => cases hop
  | inv _ hfresh ih =>
    rcases List.mem_cons.mp hop with heq | hold
    · cases heq
      rcases List.mem_cons.mp hop' with heq | hold'
      · cases heq; rfl
      · exact absurd hold' (hfresh _)
    · rcases List.mem_cons.mp hop' with heq | hold'
      · cases heq
        exact absurd hold (hfresh _)
      · exact ih hold hold'
  | lin _ _ _ ih | ret _ _ ih =>
    exact ih ((List.mem_cons.mp hop).resolve_left (by simp))
      ((List.mem_cons.mp hop').resolve_left (by simp))

/-- An operation that returned before another one was invoked takes effect before it: when the
other one is invoked, the point of the first is already there. -/
theorem realTime (h : WellFormed t) {a b : Call ι Op Res} (ha : a ∈ points t)
    (hb : b ∈ points t) (hab : Precedes (history t) a.id b.id) :
    ∃ later earlier, points t = later ++ b :: earlier ∧ a ∈ earlier := by
  induction h with
  | nil => cases ha
  | @inv t i op hwf hfresh ih =>
    obtain ⟨later, op', earlier, r, heq, hr⟩ := hab
    cases later with
    | nil =>
      -- `b` is invoked only now, so it has no point yet
      obtain ⟨hinv, -⟩ := List.cons.inj heq
      cases hinv
      exact absurd (hwf.invoked b hb) (hfresh b.op)
    | cons _ later => exact ih ha hb ⟨later, op', earlier, r, (List.cons.inj heq).2, hr⟩
  | @lin t c hwf _ hfresh ih =>
    have hab' : Precedes (history t) a.id b.id := hab
    have hret : a ≠ c := by
      -- `a` has returned, so its point is an earlier one
      rintro rfl
      obtain ⟨later, op', earlier, r, heq, hr⟩ := hab'
      have hmem : .ret a.id r ∈ history t := by
        rw [heq]
        exact List.mem_append_right _ (List.mem_cons_of_mem _ hr)
      obtain ⟨op, hop⟩ := hwf.completed (ret_mem_history.mp hmem)
      exact hfresh _ hop rfl
    have ha' : a ∈ points t := (List.mem_cons.mp ha).resolve_left hret
    rcases List.mem_cons.mp hb with rfl | hb
    · exact ⟨[], points t, rfl, ha'⟩
    · obtain ⟨later, earlier, heq, hmem⟩ := ih ha' hb hab'
      exact ⟨c :: later, earlier, by rw [points_lin, heq, List.cons_append], hmem⟩
  | ret _ _ ih =>
    obtain ⟨later, op', earlier, r, heq, hr⟩ := hab
    cases later with
    | nil => exact absurd (List.cons.inj heq).1 (by simp)
    | cons _ later => exact ih ha hb ⟨later, op', earlier, r, (List.cons.inj heq).2, hr⟩

/-- **The linearization points of a well-formed trace linearize its history**, when they are a
sequential run. -/
theorem linearizes {s₀ s : S} (h : WellFormed t)
    (hrun : Run spec s₀ (points t) s) : Linearizes spec s₀ (history t) (points t) where
  nodup := h.nodup
  invoked := fun c hc => inv_mem_history.mpr (h.invoked c hc)
  completed := fun _ _ hr => h.completed (ret_mem_history.mp hr)
  legal := ⟨s, hrun⟩
  realTime := fun _ ha _ hb hab => h.realTime ha hb hab

end WellFormed

end Linearizability
