import Mathlib.Algebra.BigOperators.Group.Finset.Basic
import Mathlib.Algebra.Order.BigOperators.Group.Finset
import Mathlib.Tactic

/-!
# Flat lattices

`ssa/flat-lattice.fun`: variables over the points of a set, with a bottom and a top, that
inequalities make propagate what they know. A variable has a name of type `ε` here, and the
variables and their references are a `Store`.

* `up`, `le`, `forceTop`: the functions of the source;
* `Raises`: what raising a variable does, when no bound is in the way: values only grow, and where
  they grow all inequalities hold;
* `le_solved`: a new inequality keeps the others;
* `le_isSome`: there is an end to it.
-/

namespace MultiMLton.FlatLattice

open List Option Finset
open Function (update update_of_ne update_self)

variable {ε P : Type}

/-- `Elt.t` -/
inductive Elt (P : Type)
  | bottom
  | point (p : P)
  | top
  deriving DecidableEq

namespace Elt

instance : LE (Elt P) := ⟨fun a b => a = .bottom ∨ a = b ∨ b = .top⟩

instance : PartialOrder (Elt P) where
  le_refl a := Or.inr (Or.inl rfl)
  le_trans a b c hab hbc := by
    rcases hab with rfl | rfl | rfl
    · exact Or.inl rfl
    · exact hbc
    · rcases hbc with hbot | rfl | rfl
      · cases hbot
      · exact Or.inr (Or.inr rfl)
      · exact Or.inr (Or.inr rfl)
  le_antisymm a b hab hba := by
    rcases hab with rfl | rfl | rfl
    · rcases hba with rfl | rfl | htop
      · rfl
      · rfl
      · cases htop
    · rfl
    · rcases hba with hbot | rfl | rfl
      · cases hbot
      · rfl
      · rfl

theorem bottom_le (e : Elt P) : .bottom ≤ e := Or.inl rfl

theorem le_top (e : Elt P) : e ≤ .top := Or.inr (Or.inr rfl)

/-- How often an element can still be raised. -/
def room : Elt P → ℕ
  | .bottom => 2
  | .point _ => 1
  | .top => 0

theorem room_le_two (e : Elt P) : e.room ≤ 2 := by cases e <;> simp [room]

theorem room_anti {a b : Elt P} (h : a ≤ b) : b.room ≤ a.room := by
  rcases h with rfl | rfl | rfl
  · exact b.room_le_two
  · exact le_rfl
  · exact Nat.zero_le _

end Elt

/-- The variables, with the references of each. -/
structure Store (ε P : Type) where
  value : ε → Elt P
  upperBound : ε → Option P
  lessThan : ε → List ε

/-- `List.forall` over variables. -/
def listForall (up : Store ε P → ε → Option (Bool × Store ε P)) :
    Store ε P → List ε → Option (Bool × Store ε P)
  | s, [] => some (true, s)
  | s, z :: zs => do
    let (b, s) ← up s z
    if b then listForall up s zs else some (false, s)

namespace Store

/-- Variables of which some are made by `point`, and the others by `new`. -/
def make (point : ε → Option P) : Store ε P where
  value x := match point x with
    | some p => .point p
    | none => .bottom
  upperBound := point
  lessThan _ := []

variable [DecidableEq ε]

def set (s : Store ε P) (x : ε) (e : Elt P) : Store ε P :=
  { s with value := update s.value x e }

def forceTop (s : Store ε P) (x : ε) : Bool × Store ε P :=
  if (s.upperBound x).isSome then (false, s) else (true, s.set x .top)

variable [DecidableEq P]

/-- `up`, with a bound on the depth of the recursion. -/
def up : ℕ → Store ε P → ε → Elt P → Option (Bool × Store ε P)
  | 0, _, _, _ => none
  | fuel + 1, s, x, e =>
    let goOn (s : Store ε P) (e : Elt P) :=
      listForall (fun s z => up fuel s z e) s (s.lessThan x)
    let setTop := if (s.upperBound x).isSome then some (false, s) else goOn (s.set x .top) .top
    match s.value x, e with
    | _, .bottom => some (true, s)
    | .top, _ => some (true, s)
    | _, .top => setTop
    | .bottom, .point p =>
      match s.upperBound x with
      | none => goOn (s.set x (.point p)) (.point p)
      | some p' =>
        if p = p' then goOn (s.set x (.point p)) (.point p) else some (false, s.set x (.point p))
    | .point p, .point p' => if p = p' then some (true, s) else setTop

/-- `x <= y` -/
def le (fuel : ℕ) (s : Store ε P) (x y : ε) : Option (Bool × Store ε P) :=
  up fuel { s with lessThan := update s.lessThan x (y :: s.lessThan x) } y (s.value x)

end Store

/-! ### Raising -/

section

variable {s s' s'' : Store ε P}

/-- From `s` to `s'` values are raised, and all inequalities of what has been raised hold. -/
structure Raises (s s' : Store ε P) : Prop where
  upperBound : s'.upperBound = s.upperBound
  lessThan : s'.lessThan = s.lessThan
  le : ∀ x, s.value x ≤ s'.value x
  settled : ∀ x, s'.value x ≠ s.value x → ∀ z ∈ s.lessThan x, s'.value x ≤ s'.value z

theorem Raises.refl (s : Store ε P) : Raises s s where
  upperBound := rfl
  lessThan := rfl
  le _ := le_rfl
  settled _ h := absurd rfl h

theorem Raises.trans (h : Raises s s') (h' : Raises s' s'') : Raises s s'' where
  upperBound := h'.upperBound.trans h.upperBound
  lessThan := h'.lessThan.trans h.lessThan
  le x := (h.le x).trans (h'.le x)
  settled x hne z hz := by
    by_cases heq : s''.value x = s'.value x
    · rw [heq] at hne ⊢
      exact (h.settled x hne z hz).trans (h'.le z)
    · exact h'.settled x heq z (h.lessThan ▸ hz)

/-- No inequality has a bounded variable on its right. -/
def Open (s : Store ε P) : Prop := ∀ x, ∀ z ∈ s.lessThan x, s.upperBound z = none

theorem Raises.isOpen (h : Raises s s') (hopen : Open s) : Open s' := by
  intro x z hz
  rw [h.upperBound]
  exact hopen x z (h.lessThan ▸ hz)

/-- All inequalities hold. -/
def Solved (s : Store ε P) : Prop := ∀ x, ∀ z ∈ s.lessThan x, s.value x ≤ s.value z

/-- The variables of a list are raised one after the other. -/
theorem listForall_raises {up : Store ε P → ε → Option (Bool × Store ε P)} {e : Elt P}
    (hup : ∀ {s s' : Store ε P} {z b}, Open s → s.upperBound z = none → up s z = some (b, s') →
      b = true ∧ Raises s s' ∧ e ≤ s'.value z)
    {zs : List ε} {b : Bool} (hopen : Open s) (hzs : ∀ z ∈ zs, s.upperBound z = none)
    (h : listForall up s zs = some (b, s')) :
    b = true ∧ Raises s s' ∧ ∀ z ∈ zs, e ≤ s'.value z := by
  induction zs generalizing s with
  | nil =>
    cases h
    exact ⟨rfl, Raises.refl _, fun z hz => absurd hz not_mem_nil⟩
  | cons z zs ih =>
    simp only [listForall, bind_eq_bind] at h
    obtain ⟨⟨b₁, s₁⟩, hz, hrest⟩ := bind_eq_some_iff.mp h
    obtain ⟨rfl, hraises, hle⟩ := hup hopen (hzs z mem_cons_self) hz
    have hzs₁ : ∀ y ∈ zs, s₁.upperBound y = none := fun y hy => by
      rw [hraises.upperBound]
      exact hzs y (mem_cons_of_mem z hy)
    obtain ⟨hb, hraises', hle'⟩ := ih (hraises.isOpen hopen) hzs₁ hrest
    refine ⟨hb, hraises.trans hraises', fun y hy => ?_⟩
    rcases mem_cons.mp hy with rfl | hy
    · exact hle.trans (hraises'.le y)
    · exact hle' y hy

end

section

variable [DecidableEq ε] {s s' : Store ε P} {x : ε} {e : Elt P}

theorem set_value_self (s : Store ε P) (x : ε) (e : Elt P) : (s.set x e).value x = e :=
  update_self ..

theorem set_value_of_ne (s : Store ε P) {x y : ε} (h : y ≠ x) (e : Elt P) :
    (s.set x e).value y = s.value y := update_of_ne h ..

@[simp] theorem set_lessThan (s : Store ε P) (x : ε) (e : Elt P) :
    (s.set x e).lessThan = s.lessThan := rfl

/-- A variable is set, and its inequalities are restored. -/
theorem raises_of_set (hle : s.value x ≤ e) (h : Raises (s.set x e) s')
    (hzs : ∀ z ∈ s.lessThan x, e ≤ s'.value z) : Raises s s' ∧ e ≤ s'.value x := by
  have hx : e ≤ s'.value x := by
    have hx := h.le x
    rwa [set_value_self] at hx
  refine ⟨⟨h.upperBound, h.lessThan, fun y => ?_, fun y hne z hz => ?_⟩, hx⟩
  · by_cases heq : y = x
    · rw [heq]
      exact hle.trans hx
    · have hy := h.le y
      rwa [set_value_of_ne s heq] at hy
  · by_cases hchanged : s'.value y = (s.set x e).value y
    · by_cases heq : y = x
      · subst heq
        rw [hchanged, set_value_self]
        exact hzs z hz
      · rw [set_value_of_ne s heq] at hchanged
        exact absurd hchanged hne
    · exact h.settled y hchanged z hz

variable [DecidableEq P] {b : Bool} {fuel : ℕ}

/-- Raising an unbounded variable succeeds. -/
theorem up_raises (hopen : Open s) (hx : s.upperBound x = none)
    (h : s.up fuel x e = some (b, s')) : b = true ∧ Raises s s' ∧ e ≤ s'.value x := by
  induction fuel generalizing s s' x e b with
  | zero => cases h
  | succ fuel ih =>
    -- the variable is set to `w`, and `w` is passed on
    have hgoOn : ∀ w, s.value x ≤ w →
        listForall (fun s z => Store.up fuel s z w) (s.set x w) (s.lessThan x) = some (b, s') →
        b = true ∧ Raises s s' ∧ w ≤ s'.value x := by
      intro w hw hlist
      obtain ⟨hb, hraises, hzs⟩ := listForall_raises (fun ho hz hup => ih ho hz hup)
        (s := s.set x w) hopen (hopen x) hlist
      obtain ⟨hraises', hle⟩ := raises_of_set hw hraises hzs
      exact ⟨hb, hraises', hle⟩
    have hkeep : ∀ {b'}, some (b', s) = some (b, s') → b' = true → e ≤ s.value x →
        b = true ∧ Raises s s' ∧ e ≤ s'.value x := by
      rintro b' heq rfl hle
      cases heq
      exact ⟨rfl, Raises.refl s, hle⟩
    cases hv : s.value x with
    | top =>
      cases e <;>
        exact hkeep (by simpa [Store.up, hv] using h) rfl (hv.symm ▸ Elt.le_top _)
    | bottom =>
      cases e with
      | bottom => exact hkeep (by simpa [Store.up, hv] using h) rfl (Elt.bottom_le _)
      | point p =>
        refine hgoOn _ (hv.symm ▸ Elt.bottom_le _) ?_
        simpa [Store.up, hv, hx] using h
      | top =>
        refine hgoOn _ (Elt.le_top _) ?_
        simpa [Store.up, hv, hx] using h
    | point q =>
      cases e with
      | bottom => exact hkeep (by simpa [Store.up, hv] using h) rfl (Elt.bottom_le _)
      | point p =>
        by_cases heq : q = p
        · exact hkeep (by simpa [Store.up, hv, heq] using h) rfl (by rw [hv, heq])
        · obtain ⟨hb, hraises, htop⟩ := hgoOn .top (Elt.le_top _)
            (by simpa [Store.up, hv, hx, heq] using h)
          exact ⟨hb, hraises, (Elt.le_top _).trans htop⟩
      | top =>
        refine hgoOn _ (Elt.le_top _) ?_
        simpa [Store.up, hv, hx] using h

/-- What a new inequality does. -/
structure Adds (s : Store ε P) (x y : ε) (s' : Store ε P) : Prop where
  upperBound : s'.upperBound = s.upperBound
  lessThan : s'.lessThan = update s.lessThan x (y :: s.lessThan x)
  le : ∀ z, s.value z ≤ s'.value z
  solved : Solved s → Solved s'

omit [DecidableEq P] in
theorem open_push {y : ε} (hopen : Open s) (hy : s.upperBound y = none) :
    Open { s with lessThan := update s.lessThan x (y :: s.lessThan x) } := by
  intro z w hw
  change w ∈ update s.lessThan x (y :: s.lessThan x) z at hw
  change s.upperBound w = none
  by_cases heq : z = x
  · subst heq
    rw [update_self] at hw
    rcases mem_cons.mp hw with rfl | hw
    · exact hy
    · exact hopen z w hw
  · rw [update_of_ne heq] at hw
    exact hopen z w hw

/-- A new inequality keeps the others. -/
theorem le_adds {y : ε} (hopen : Open s) (hy : s.upperBound y = none)
    (h : s.le fuel x y = some (b, s')) : Adds s x y s' := by
  obtain ⟨-, hraises, hle⟩ := up_raises (open_push hopen hy) hy h
  refine ⟨hraises.upperBound, hraises.lessThan, hraises.le, fun hsolved z w hw => ?_⟩
  by_cases hchanged : s'.value z = s.value z
  · rw [hraises.lessThan] at hw
    by_cases heq : z = x
    · subst heq
      change w ∈ update s.lessThan z (y :: s.lessThan z) z at hw
      rw [update_self] at hw
      rw [hchanged]
      rcases mem_cons.mp hw with rfl | hw
      · exact hle
      · exact (hsolved z w hw).trans (hraises.le w)
    · change w ∈ update s.lessThan x (y :: s.lessThan x) z at hw
      rw [update_of_ne heq] at hw
      rw [hchanged]
      exact (hsolved z w hw).trans (hraises.le w)
  · exact hraises.settled z hchanged w (hraises.lessThan ▸ hw)

omit [DecidableEq P] in
theorem Adds.mem_lessThan {y : ε} (h : Adds s x y s') : y ∈ s'.lessThan x := by
  rw [h.lessThan, update_self]
  exact mem_cons_self

omit [DecidableEq P] in
theorem Adds.lessThan_subset {y : ε} (h : Adds s x y s') (z : ε) :
    s.lessThan z ⊆ s'.lessThan z := by
  rw [h.lessThan]
  by_cases heq : z = x
  · subst heq
    rw [update_self]
    exact subset_cons_self _ _
  · rw [update_of_ne heq]
    exact List.Subset.refl _

omit [DecidableEq P] in
theorem Adds.isOpen {y : ε} (h : Adds s x y s') (hopen : Open s) (hy : s.upperBound y = none) :
    Open s' := by
  intro z w hw
  rw [h.upperBound]
  rw [h.lessThan] at hw
  exact open_push hopen hy z w hw

/-! ### There is an end -/

/-- The references of the variables in `U` lead to variables in `U`. -/
def Closed (U : Finset ε) (s : Store ε P) : Prop := ∀ x ∈ U, ∀ z ∈ s.lessThan x, z ∈ U

/-- How often the variables in `U` can still be raised. -/
def room (U : Finset ε) (s : Store ε P) : ℕ := ∑ x ∈ U, (s.value x).room

variable {U : Finset ε}

omit [DecidableEq ε] [DecidableEq P] in
theorem Raises.room_le (h : Raises s s') : room U s' ≤ room U s :=
  sum_le_sum fun x _ => Elt.room_anti (h.le x)

omit [DecidableEq ε] [DecidableEq P] in
theorem room_le (U : Finset ε) (s : Store ε P) : room U s ≤ U.card * 2 :=
  sum_le_card_nsmul U _ 2 fun x _ => (s.value x).room_le_two

omit [DecidableEq P] in
theorem room_set (hx : x ∈ U) (h : e.room < (s.value x).room) :
    room U (s.set x e) < room U s := by
  refine sum_lt_sum (fun y _ => ?_) ⟨x, hx, by rwa [set_value_self]⟩
  by_cases heq : y = x
  · rw [heq, set_value_self]
    exact h.le
  · rw [set_value_of_ne s heq]

omit [DecidableEq ε] [DecidableEq P] in
theorem listForall_isSome {up : Store ε P → ε → Option (Bool × Store ε P)} {n : ℕ}
    (hsome : ∀ {s : Store ε P} {z}, Closed U s → Open s → z ∈ U → s.upperBound z = none →
      room U s ≤ n → (up s z).isSome)
    (hraises : ∀ {s s' : Store ε P} {z b}, Open s → s.upperBound z = none →
      up s z = some (b, s') → b = true ∧ Raises s s')
    {zs : List ε} (hclosed : Closed U s) (hopen : Open s) (hroom : room U s ≤ n)
    (hzs : ∀ z ∈ zs, z ∈ U ∧ s.upperBound z = none) : (listForall up s zs).isSome := by
  induction zs generalizing s with
  | nil => rfl
  | cons z zs ih =>
    obtain ⟨hz, hfree⟩ := hzs z mem_cons_self
    obtain ⟨⟨b, s₁⟩, hup⟩ := isSome_iff_exists.mp (hsome hclosed hopen hz hfree hroom)
    obtain ⟨rfl, h⟩ := hraises hopen hfree hup
    simp only [listForall, hup, bind_eq_bind, bind_some, if_true]
    refine ih ?_ (h.isOpen hopen) (h.room_le.trans hroom) fun y hy => ?_
    · intro x hx y hy
      exact hclosed x hx y (h.lessThan ▸ hy)
    · rw [h.upperBound]
      exact hzs y (mem_cons_of_mem z hy)

/-- There is an end to raising: each variable is raised twice at most. -/
theorem up_isSome (hclosed : Closed U s) (hopen : Open s) (hxU : x ∈ U)
    (hx : s.upperBound x = none) (hfuel : room U s < fuel) : (s.up fuel x e).isSome := by
  induction fuel generalizing s x e with
  | zero => exact absurd hfuel (Nat.not_lt_zero _)
  | succ fuel ih =>
    have hgoOn : ∀ w : Elt P, w.room < (s.value x).room →
        (listForall (fun s z => Store.up fuel s z w) (s.set x w) (s.lessThan x)).isSome := by
      intro w hw
      have hroom := room_set hxU hw
      refine listForall_isSome (n := fuel - 1) (fun hc ho hz hfree hle => ?_)
        (fun ho hz hup => ?_) hclosed hopen (by omega)
        fun z hz => ⟨hclosed x hxU z hz, hopen x z hz⟩
      · exact ih hc ho hz hfree (by omega)
      · obtain ⟨hb, hraises, -⟩ := up_raises ho hz hup
        exact ⟨hb, hraises⟩
    cases hv : s.value x with
    | top => cases e <;> simp [Store.up, hv]
    | bottom =>
      cases e with
      | bottom => simp [Store.up]
      | point p => simpa [Store.up, hv, hx] using hgoOn (.point p) (by simp [hv, Elt.room])
      | top => simpa [Store.up, hv, hx] using hgoOn .top (by simp [hv, Elt.room])
    | point q =>
      cases e with
      | bottom => simp [Store.up]
      | point p =>
        by_cases heq : q = p
        · simp [Store.up, hv, heq]
        · simpa [Store.up, hv, hx, heq] using hgoOn .top (by simp [hv, Elt.room])
      | top => simpa [Store.up, hv, hx] using hgoOn .top (by simp [hv, Elt.room])

omit [DecidableEq P] in
theorem closed_push {y : ε} (hclosed : Closed U s) (hy : y ∈ U) :
    Closed U { s with lessThan := update s.lessThan x (y :: s.lessThan x) } := by
  intro z hz w hw
  change w ∈ update s.lessThan x (y :: s.lessThan x) z at hw
  by_cases heq : z = x
  · subst heq
    rw [update_self] at hw
    rcases mem_cons.mp hw with rfl | hw
    · exact hy
    · exact hclosed z hz w hw
  · rw [update_of_ne heq] at hw
    exact hclosed z hz w hw

/-- An inequality is added when the recursion may be deep enough. -/
theorem le_isSome {y : ε} (hclosed : Closed U s) (hopen : Open s) (hy : y ∈ U)
    (hfree : s.upperBound y = none) (hfuel : U.card * 2 < fuel) : (s.le fuel x y).isSome :=
  up_isSome (closed_push hclosed hy) (open_push hopen hfree) hy hfree
    ((room_le U _).trans_lt hfuel)

omit [DecidableEq P] in
theorem Adds.closed {y : ε} (h : Adds s x y s') (hclosed : Closed U s) (hy : y ∈ U) :
    Closed U s' := by
  intro z hz w hw
  rw [h.lessThan] at hw
  exact closed_push hclosed hy z hz w hw

end

end MultiMLton.FlatLattice
