import Mathlib.Data.Finset.Card
import Mathlib.Logic.Function.Basic
import Mathlib.Logic.Relation
import Mathlib.Tactic

/-!
# Depth-first marking with the stack in the nodes

A graph whose nodes have slots.  A marked node is left through one of its slots, which holds the
rest of the stack in the meantime, and the number of the slot is stored in the node; on the way back
both are recovered.  A visitor is called before a node is marked, and says whether its slots are
looked at.

* `Graph`, `Heap`, `State`, `step`;
* `markAll`: a heap with more marks;
* `Search`: the visits, one after another, of a search that calls itself;
* `Search.run`: the machine makes these visits and comes back with the slots as they were, or leaves
  the nodes with a property;
* `Searched`: the visited nodes are reachable through unmarked ones, without gaps.
-/

namespace PointerReversal

open List Function Bool


universe u v w

/-- Which contents of a slot are followed to a node, and how the rest of the stack is stored. -/
structure Graph (ν : Type u) (V : Type v) where
  arity : ν → ℕ
  follow : ν → V → Option ν
  link : Option ν → V
  unlink : V → Option ν
  unlink_link : ∀ p, unlink (link p) = p
  eq_link : ∀ a v n, follow a v = some n → v = link (some n)

/-- The slots, the marks, and the slots through which nodes have been left. -/
@[ext] structure Heap (ν : Type u) (V : Type v) where
  slot : ν → ℕ → V
  marked : ν → Bool
  pos : ν → Option ℕ

inductive Label (ν : Type u)
  | mark (cur : ν) (prev : Option ν)
  | visit (cur : ν) (prev : Option ν) (j : ℕ)
  | ret (cur : ν) (prev : Option ν)

/-- The visited nodes are recorded with what the visitor has said. -/
structure State (ν : Type u) (V : Type v) (σ : Type w) where
  heap : Heap ν V
  label : Label ν
  aux : σ
  log : List (ν × Bool)

variable {ν : Type u} {V : Type v} {σ : Type w} [DecidableEq ν]

namespace Heap

def setMark (h : Heap ν V) (n : ν) : Heap ν V := { h with marked := Function.update h.marked n true }

def setSlot (h : Heap ν V) (n : ν) (j : ℕ) (v : V) : Heap ν V :=
  { h with slot := Function.update h.slot n (Function.update (h.slot n) j v) }

def setPos (h : Heap ν V) (n : ν) (p : Option ℕ) : Heap ν V :=
  { h with pos := Function.update h.pos n p }

/-- The nodes of a list are marked. -/
def markAll (h : Heap ν V) (l : List (ν × Bool)) : Heap ν V :=
  { h with marked := fun n => h.marked n || decide (n ∈ l.map Prod.fst) }

section

variable (h : Heap ν V)

include h

@[simp] theorem setMark_slot (n : ν) : (h.setMark n).slot = h.slot := rfl
@[simp] theorem setMark_pos (n : ν) : (h.setMark n).pos = h.pos := rfl
@[simp] theorem setMark_self (n : ν) : (h.setMark n).marked n = true :=
  update_self ..
@[simp] theorem setSlot_marked (n : ν) (j : ℕ) (v : V) : (h.setSlot n j v).marked = h.marked := rfl
@[simp] theorem setSlot_pos (n : ν) (j : ℕ) (v : V) : (h.setSlot n j v).pos = h.pos := rfl
@[simp] theorem setPos_slot (n : ν) (p : Option ℕ) : (h.setPos n p).slot = h.slot := rfl
@[simp] theorem setPos_marked (n : ν) (p : Option ℕ) : (h.setPos n p).marked = h.marked := rfl
@[simp] theorem markAll_slot (l : List (ν × Bool)) : (h.markAll l).slot = h.slot :=
  rfl
@[simp] theorem markAll_pos (l : List (ν × Bool)) : (h.markAll l).pos = h.pos := rfl

theorem markAll_marked (l : List (ν × Bool)) (n : ν) :
    (h.markAll l).marked n = true ↔ h.marked n = true ∨ n ∈ l.map Prod.fst := by
  simp [markAll]

@[simp] theorem markAll_nil : h.markAll [] = h := by
  simp [markAll]

theorem markAll_append (l l' : List (ν × Bool)) :
    (h.markAll l).markAll l' = h.markAll (l ++ l') := by
  simp [markAll, Bool.or_assoc]

theorem setMark_markAll (n : ν) (b : Bool) (l : List (ν × Bool)) :
    (h.setMark n).markAll l = h.markAll ((n, b) :: l) := by
  unfold setMark markAll
  congr 1
  funext k
  by_cases hk : k = n
  · subst hk
    simp
  · simp [hk]

end

end Heap

/-- One step; `none` when the stack is empty. -/
def step (G : Graph ν V) (f : σ → ν → σ × Bool) (s : State ν V σ) : Option (State ν V σ) :=
  match s.label with
  | .mark cur prev =>
    some ⟨s.heap.setMark cur, if (f s.aux cur).2 then .visit cur prev 0 else .ret cur prev,
      (f s.aux cur).1, s.log ++ [(cur, (f s.aux cur).2)]⟩
  | .visit cur prev j =>
    if j < G.arity cur then
      match G.follow cur (s.heap.slot cur j) with
      | none => some { s with label := .visit cur prev (j + 1) }
      | some next =>
        if s.heap.marked next then some { s with label := .visit cur prev (j + 1) }
        else some { s with
          heap := (s.heap.setPos cur (some j)).setSlot cur j (G.link prev)
          label := .mark next (some cur) }
    else some { s with label := .ret cur prev }
  | .ret next prev =>
    match prev with
    | none => none
    | some cur =>
      match s.heap.pos cur with
      | none => none
      | some j => some { s with
          heap := (s.heap.setPos cur none).setSlot cur j (G.link (some next))
          label := .visit cur (G.unlink (s.heap.slot cur j)) (j + 1) }

/-- What the visitor says of the nodes of a list. -/
inductive Visits (f : σ → ν → σ × Bool) : σ → List (ν × Bool) → σ → Prop
  | nil (x : σ) : Visits f x [] x
  | cons {x y : σ} {n : ν} {l : List (ν × Bool)} (h : Visits f (f x n).1 l y) :
      Visits f x ((n, (f x n).2) :: l) y

omit [DecidableEq ν] in
theorem Visits.append {f : σ → ν → σ × Bool} {x y z : σ} {l l' : List (ν × Bool)}
    (h : Visits f x l y) (h' : Visits f y l' z) : Visits f x (l ++ l') z := by
  induction h with
  | nil => exact h'
  | cons _ ih => exact .cons (ih h')

variable {l : List (ν × Bool)}

omit [DecidableEq ν] in
/-- A visitor that always goes on. -/
theorem Visits.all_true {f : σ → ν → σ × Bool} (hf : ∀ x n, (f x n).2 = true) {x y : σ}
    (h : Visits f x l y) : ∀ a ∈ l.map Prod.fst, (a, true) ∈ l := by
  induction h with
  | nil => exact nofun
  | cons _ ih =>
    intro a ha
    rcases mem_cons.1 ha with rfl | ha
    · rw [hf]
      exact mem_cons_self
    · exact mem_cons_of_mem _ (ih a ha)

/-! ### Edges -/

/-- A slot of `a`, from the `j`-th on, leads to `b`. -/
def EdgeFrom (G : Graph ν V) (h : Heap ν V) (j : ℕ) (a b : ν) : Prop :=
  ∃ i, j ≤ i ∧ i < G.arity a ∧ G.follow a (h.slot a i) = some b

def Edge (G : Graph ν V) (h : Heap ν V) : ν → ν → Prop := EdgeFrom G h 0

/-- Edges out of unmarked nodes. -/
def White (G : Graph ν V) (h : Heap ν V) (a b : ν) : Prop := h.marked a = false ∧ Edge G h a b

/-- Edges out of unmarked nodes stay in a finite set. -/
def Closed (G : Graph ν V) (h : Heap ν V) (S : Finset ν) : Prop :=
  ∀ a ∈ S, h.marked a = false → ∀ b, Edge G h a b → b ∈ S

/-- The unmarked nodes of a set. -/
def unmarked (h : Heap ν V) (S : Finset ν) : Finset ν := S.filter fun n => h.marked n = false

/-- What a search has visited, beginning with edges to the nodes that satisfy `Start`: unmarked
nodes that are reachable through unmarked ones, each once, with all their children. -/
structure Searched (G : Graph ν V) (h : Heap ν V) (Start : ν → Prop) (l : List (ν × Bool)) :
    Prop where
  nodup : (l.map Prod.fst).Nodup
  white : ∀ n ∈ l.map Prod.fst, h.marked n = false
  reach : ∀ n ∈ l.map Prod.fst, ∃ a, Start a ∧ Relation.ReflTransGen (White G h) a n
  covers : ∀ a, Start a → h.marked a = true ∨ a ∈ l.map Prod.fst
  closed : ∀ a, (a, true) ∈ l → ∀ b, Edge G h a b → h.marked b = true ∨ b ∈ l.map Prod.fst

section

variable {G : Graph ν V} {h h' : Heap ν V} {S : Finset ν}

theorem Closed.markAll (hc : Closed G h S) (l : List (ν × Bool)) : Closed G (h.markAll l) S := by
  intro a ha hwhite b hab
  refine hc a ha ?_ b hab
  simp only [Heap.markAll, or_eq_false_iff] at hwhite
  exact hwhite.1

theorem setMark_eq_markAll (h : Heap ν V) (n : ν) : h.setMark n = h.markAll [(n, true)] := by
  rw [← h.setMark_markAll n true [], Heap.markAll_nil]

theorem white_markAll {n : ν} (hn : (h.markAll l).marked n = false) :
    h.marked n = false ∧ n ∉ l.map Prod.fst := by
  simpa [Heap.markAll] using hn

omit [DecidableEq ν] in
theorem Searched.nil {Start : ν → Prop} (hstart : ∀ a, Start a → h.marked a = true) :
    Searched G h Start [] :=
  ⟨nodup_nil, nofun, nofun, fun a ha => .inl (hstart a ha), nofun⟩

omit [DecidableEq ν] in
theorem Searched.mono {Start Start' : ν → Prop} (hl : Searched G h Start l)
    (hstart : ∀ a, Start a ↔ Start' a) : Searched G h Start' l := by
  refine ⟨hl.nodup, hl.white, fun n hn => ?_, fun a ha => hl.covers a ((hstart a).2 ha), hl.closed⟩
  obtain ⟨a, ha, hpath⟩ := hl.reach n hn
  exact ⟨a, (hstart a).1 ha, hpath⟩

/-- One search after another. -/
theorem Searched.append {Start Start' : ν → Prop} {l l' : List (ν × Bool)}
    (hl : Searched G h Start l) (hl' : Searched G (h.markAll l) Start' l') :
    Searched G h (fun a => Start a ∨ Start' a) (l ++ l') := by
  refine ⟨?_, fun n hn => ?_, fun n hn => ?_, fun a ha => ?_, fun a ha b hab => ?_⟩
  · rw [map_append]
    refine nodup_append.2 ⟨hl.nodup, hl'.nodup, fun a ha b hb hab => ?_⟩
    subst hab
    exact (white_markAll (hl'.white a hb)).2 ha
  · rw [map_append, mem_append] at hn
    rcases hn with hn | hn
    · exact hl.white n hn
    · exact (white_markAll (hl'.white n hn)).1
  · rw [map_append, mem_append] at hn
    rcases hn with hn | hn
    · obtain ⟨a, ha, hpath⟩ := hl.reach n hn
      exact ⟨a, .inl ha, hpath⟩
    · obtain ⟨a, ha, hpath⟩ := hl'.reach n hn
      exact ⟨a, .inr ha, hpath.lift id fun x y hxy => ⟨(white_markAll hxy.1).1, hxy.2⟩⟩
  · rw [map_append, mem_append]
    rcases ha with ha | ha
    · rcases hl.covers a ha with h1 | h1
      · exact .inl h1
      · exact .inr (.inl h1)
    · rcases hl'.covers a ha with h1 | h1
      · rcases (h.markAll_marked l a).1 h1 with h1 | h1
        · exact .inl h1
        · exact .inr (.inl h1)
      · exact .inr (.inr h1)
  · rw [map_append, mem_append]
    rcases mem_append.1 ha with ha | ha
    · rcases hl.closed a ha b hab with h1 | h1
      · exact .inl h1
      · exact .inr (.inl h1)
    · rcases hl'.closed a ha b hab with h1 | h1
      · rcases (h.markAll_marked l b).1 h1 with h1 | h1
        · exact .inl h1
        · exact .inr (.inl h1)
      · exact .inr (.inr h1)

/-- A node and the search of its children. -/
theorem Searched.cons {cur : ν} (hcur : h.marked cur = false)
    (hl : Searched G (h.setMark cur) (Edge G h cur) l) :
    Searched G h (· = cur) ((cur, true) :: l) := by
  rw [setMark_eq_markAll] at hl
  refine ⟨?_, fun n hn => ?_, fun n hn => ⟨cur, rfl, ?_⟩, fun a ha => ?_, fun a ha b hab => ?_⟩
  · refine nodup_cons.2 ⟨fun hn => ?_, hl.nodup⟩
    exact (white_markAll (hl.white cur hn)).2 (by simp)
  · rcases mem_cons.1 hn with rfl | hn
    · exact hcur
    · exact (white_markAll (hl.white n hn)).1
  · rcases mem_cons.1 hn with rfl | hn
    · exact .refl
    · obtain ⟨a, ha, hpath⟩ := hl.reach n hn
      exact .head ⟨hcur, ha⟩ (hpath.lift id fun x y hxy => ⟨(white_markAll hxy.1).1, hxy.2⟩)
  · subst ha
    exact .inr mem_cons_self
  · have hstep {c : ν} (hc : (h.markAll [(cur, true)]).marked c = true ∨ c ∈ l.map Prod.fst) :
        h.marked c = true ∨ c ∈ ((cur, true) :: l).map Prod.fst := by
      rcases hc with hc | hc
      · rcases (h.markAll_marked _ c).1 hc with hc | hc
        · exact .inl hc
        · obtain rfl : c = cur := by simpa using hc
          exact .inr mem_cons_self
      · exact .inr (mem_cons_of_mem _ hc)
    rcases mem_cons.1 ha with hac | ha
    · obtain rfl : a = cur := congrArg Prod.fst hac
      exact hstep (hl.covers b hab)
    · exact hstep (hl.closed a ha b hab)

omit [DecidableEq ν] in
/-- Where every visited node has been looked into, these are the nodes that can be reached. -/
theorem Searched.mem_iff {cur : ν} (hl : Searched G h (· = cur) l)
    (hall : ∀ a ∈ l.map Prod.fst, (a, true) ∈ l) {n : ν} :
    n ∈ l.map Prod.fst ↔ h.marked n = false ∧ Relation.ReflTransGen (White G h) cur n := by
  constructor
  · intro hn
    obtain ⟨a, rfl, hpath⟩ := hl.reach n hn
    exact ⟨hl.white n hn, hpath⟩
  · rintro ⟨hwhite, hpath⟩
    have hmem : h.marked n = true ∨ n ∈ l.map Prod.fst := by
      clear hwhite
      induction hpath with
      | refl => exact hl.covers cur rfl
      | tail _ hab ih =>
        rcases ih with hmarked | hmem
        · simp [hab.1] at hmarked
        · exact hl.closed _ (hall _ hmem) _ hab.2
    simpa [hwhite] using hmem

omit [DecidableEq ν] in
/-- A search stays in a closed set. -/
theorem Searched.mem {Start : ν → Prop} (hl : Searched G h Start l)
    (hclosed : Closed G h S) (hstart : ∀ a, Start a → a ∈ S) : ∀ n ∈ l.map Prod.fst, n ∈ S := by
  intro n hn
  obtain ⟨a, ha, hpath⟩ := hl.reach n hn
  clear hn
  induction hpath with
  | refl => exact hstart a ha
  | tail _ hab ih => exact hclosed _ ih hab.1 _ hab.2

omit [DecidableEq ν] in
/-- A node whose children are not looked at. -/
theorem Searched.skip {cur : ν} (hcur : h.marked cur = false) :
    Searched G h (· = cur) [(cur, false)] := by
  refine ⟨by simp, fun n hn => ?_, fun n hn => ⟨n, by simpa using hn, .refl⟩, fun a ha => ?_, ?_⟩
  · obtain rfl : n = cur := by simpa using hn
    exact hcur
  · subst ha
    exact .inr mem_cons_self
  · intro a ha
    simp at ha

omit [DecidableEq ν] in
theorem edgeFrom_succ {j : ℕ} {a b : ν} :
    EdgeFrom G h j a b ↔
      (j < G.arity a ∧ G.follow a (h.slot a j) = some b) ∨ EdgeFrom G h (j + 1) a b := by
  constructor
  · rintro ⟨i, hi, hlt, hfollow⟩
    rcases hi.eq_or_lt with rfl | hi
    · exact .inl ⟨hlt, hfollow⟩
    · exact .inr ⟨i, hi, hlt, hfollow⟩
  · rintro (⟨hlt, hfollow⟩ | ⟨i, hi, hlt, hfollow⟩)
    · exact ⟨j, le_rfl, hlt, hfollow⟩
    · exact ⟨i, by omega, hlt, hfollow⟩

theorem card_unmarked_setMark {n : ν} (hn : n ∈ S) (hwhite : h.marked n = false) :
    (unmarked (h.setMark n) S).card < (unmarked h S).card := by
  refine Finset.card_lt_card (Finset.ssubset_iff_subset_ne.2 ⟨fun k hk => ?_, fun heq => ?_⟩)
  · obtain ⟨hk, hkw⟩ := Finset.mem_filter.1 hk
    rw [setMark_eq_markAll] at hkw
    exact Finset.mem_filter.2 ⟨hk, (white_markAll hkw).1⟩
  · have hmem : n ∈ unmarked h S := Finset.mem_filter.2 ⟨hn, hwhite⟩
    rw [← heq] at hmem
    have := (Finset.mem_filter.1 hmem).2
    simp at this

theorem card_unmarked_markAll (l : List (ν × Bool)) :
    (unmarked (h.markAll l) S).card ≤ (unmarked h S).card := by
  refine Finset.card_le_card fun k hk => ?_
  obtain ⟨hk, hkw⟩ := Finset.mem_filter.1 hk
  exact Finset.mem_filter.2 ⟨hk, (white_markAll hkw).1⟩

/-- Leaving a node through a slot and coming back. -/
theorem relink {cur next : ν} (prev : Option ν) {j : ℕ} (hpos : h.pos cur = none)
    (hfollow : G.follow cur (h.slot cur j) = some next) (l : List (ν × Bool)) :
    (((((h.setPos cur (some j)).setSlot cur j (G.link prev)).markAll l).setPos cur none).setSlot
      cur j (G.link (some next))) = h.markAll l := by
  have hlink := G.eq_link cur _ _ hfollow
  ext n i
  · by_cases hn : n = cur
    · subst hn
      by_cases hi : i = j
      · subst hi
        simp [Heap.setSlot, hlink]
      · simp [Heap.setSlot, hi]
    · simp [Heap.setSlot, hn]
  · rfl
  · by_cases hn : n = cur
    · subst hn
      simp [Heap.setPos, hpos]
    · simp [Heap.setPos, hn]

end

/-! ### Searches -/

/-- The nodes to which the slots of a node lead, from the `j`-th on. -/
def childrenFrom (G : Graph ν V) (h : Heap ν V) (a : ν) (j : ℕ) : List ν :=
  ((List.range (G.arity a)).drop j).filterMap fun i => G.follow a (h.slot a i)

/-- A search from the nodes of a list, one after another.  A node is visited unless it is marked when
its turn comes. -/
inductive Search (G : Graph ν V) (f : σ → ν → σ × Bool) :
    Heap ν V → List ν → σ → List (ν × Bool) → σ → Prop
  | nil (h : Heap ν V) (x : σ) : Search G f h [] x [] x
  | skip {h : Heap ν V} {n : ν} {ns : List ν} {x y : σ} {l : List (ν × Bool)}
      (marked : h.marked n = true) (rest : Search G f h ns x l y) : Search G f h (n :: ns) x l y
  | visit {h : Heap ν V} {n : ν} {ns : List ν} {x y z : σ} {l l' : List (ν × Bool)}
      (unmarked : h.marked n = false)
      (children : Search G f (h.setMark n) (if (f x n).2 then childrenFrom G h n 0 else [])
        (f x n).1 l y)
      (rest : Search G f (h.markAll ((n, (f x n).2) :: l)) ns y l' z) :
      Search G f h (n :: ns) x ((n, (f x n).2) :: l ++ l') z

/-- The nodes without the property have no slots. -/
def Graph.inside (G : Graph ν V) (P : ν → Prop) [DecidablePred P] : Graph ν V :=
  { G with arity := fun n => if P n then G.arity n else 0 }

/-- Steps that visit nodes with a property only. -/
def StepsIn (G : Graph ν V) (P : ν → Prop) (f : σ → ν → σ × Bool) :
    State ν V σ → State ν V σ → Prop :=
  Relation.ReflTransGen fun s s' =>
    step G f s = some s' ∧ ∀ cur prev, s'.label = .mark cur prev → P cur

/-- After such steps the machine goes to `n`. -/
def GoesTo (G : Graph ν V) (P : ν → Prop) (f : σ → ν → σ × Bool) (s : State ν V σ) (n : ν) : Prop :=
  ∃ u v prev, StepsIn G P f s u ∧ step G f u = some v ∧ v.label = .mark n (some prev)

section

variable {G G' : Graph ν V} {f f' : σ → ν → σ × Bool} {h h' : Heap ν V} {S : Finset ν}
  {ns : List ν} {x y : σ} {l : List (ν × Bool)}

omit [DecidableEq ν] in
theorem childrenFrom_of_le {a : ν} {j : ℕ} (hj : G.arity a ≤ j) : childrenFrom G h a j = [] := by
  rw [childrenFrom, drop_eq_nil_of_le (by simpa using hj), filterMap_nil]

omit [DecidableEq ν] in
theorem childrenFrom_of_lt {a : ν} {j : ℕ} (hj : j < G.arity a) : childrenFrom G h a j =
    (G.follow a (h.slot a j)).toList ++ childrenFrom G h a (j + 1) := by
  have hdrop : (List.range (G.arity a)).drop j = j :: (List.range (G.arity a)).drop (j + 1) := by
    rw [drop_eq_getElem_cons (by simpa using hj), getElem_range]
  rw [childrenFrom, hdrop, filterMap_cons]
  cases G.follow a (h.slot a j) <;> rfl

omit [DecidableEq ν] in
theorem mem_childrenFrom {a b : ν} {j : ℕ} : b ∈ childrenFrom G h a j ↔ EdgeFrom G h j a b := by
  by_cases hj : j < G.arity a
  · induction hk : G.arity a - j generalizing j with
    | zero => omega
    | succ k ih =>
      rw [childrenFrom_of_lt hj, mem_append, Option.mem_toList, edgeFrom_succ]
      refine or_congr ⟨fun hb => ⟨hj, hb⟩, fun hb => hb.2⟩ ?_
      by_cases hj' : j + 1 < G.arity a
      · exact ih hj' (by omega)
      · rw [childrenFrom_of_le (not_lt.1 hj')]
        refine iff_of_false not_mem_nil ?_
        rintro ⟨i, hi, hlt, -⟩
        omega
  · rw [childrenFrom_of_le (not_lt.1 hj)]
    refine iff_of_false not_mem_nil ?_
    rintro ⟨i, hi, hlt, -⟩
    omega

omit [DecidableEq ν] in
theorem childrenFrom_inside {P : ν → Prop} [DecidablePred P] {a : ν} (ha : P a) (h : Heap ν V)
    (j : ℕ) : childrenFrom (G.inside P) h a j = childrenFrom G h a j := by
  simp only [childrenFrom, Graph.inside, if_pos ha]

omit [DecidableEq ν] in
theorem edge_inside {P : ν → Prop} [DecidablePred P] {a b : ν} :
    Edge (G.inside P) h a b ↔ P a ∧ Edge G h a b := by
  constructor
  · rintro ⟨i, hi, hlt, hfollow⟩
    have ha : P a := by
      by_contra ha
      simp [Graph.inside, ha] at hlt
    have hlt : i < G.arity a := by simpa [Graph.inside, ha] using hlt
    exact ⟨ha, i, hi, hlt, hfollow⟩
  · rintro ⟨ha, i, hi, hlt, hfollow⟩
    exact ⟨i, hi, by simpa [Graph.inside, ha] using hlt, hfollow⟩

theorem Search.visits (hs : Search G f h ns x l y) : Visits f x l y := by
  induction hs with
  | nil => exact .nil _
  | skip _ _ ih => exact ih
  | visit _ _ _ ih ih' => exact .cons (ih.append ih')

theorem Search.eq_nil (hs : Search G f h [] x l y) : l = [] ∧ y = x := by
  cases hs
  exact ⟨rfl, rfl⟩

theorem Search.searched (hs : Search G f h ns x l y) : Searched G h (· ∈ ns) l := by
  induction hs with
  | nil => exact .nil fun a ha => absurd ha not_mem_nil
  | @skip h n ns x y l marked _ ih =>
    have hnil : Searched G h (· = n) [] := .nil fun a ha => ha ▸ marked
    have happend : Searched G h _ ([] ++ l) := hnil.append (by rwa [h.markAll_nil])
    exact happend.mono fun a => mem_cons.symm
  | @visit h n ns x y z l l' unmarked children _ ih ih' =>
    have hnode : Searched G h (· = n) ((n, (f x n).2) :: l) := by
      cases hvisit : (f x n).2 with
      | true =>
        simp only [hvisit, if_true] at ih
        exact (ih.mono fun a => mem_childrenFrom).cons unmarked
      | false =>
        simp only [hvisit, false_eq_true, if_false] at children
        rw [children.eq_nil.1]
        exact .skip unmarked
    exact (hnode.append ih').mono fun a => mem_cons.symm

/-- In a finite closed set the search ends.  The measure is the number of nodes that are unmarked
yet. -/
theorem Search.total (hclosed : Closed G h S) (hns : ∀ n ∈ ns, n ∈ S) (f : σ → ν → σ × Bool) (x : σ) :
    ∃ l y, Search G f h ns x l y := by
  induction hM : (unmarked h S).card using Nat.strong_induction_on generalizing h ns x with
  | _ M ih =>
    induction ns with
    | nil => exact ⟨[], x, .nil h x⟩
    | cons n ns ihns =>
      obtain ⟨hn, hns⟩ := forall_mem_cons.1 hns
      cases hmark : h.marked n with
      | true =>
        obtain ⟨l, y, hs⟩ := ihns hns
        exact ⟨l, y, .skip hmark hs⟩
      | false =>
        have hless (l : List (ν × Bool)) :
            (unmarked (h.markAll ((n, (f x n).2) :: l)) S).card < M := by
          rw [← hM, ← h.setMark_markAll]
          exact (card_unmarked_markAll l).trans_lt (card_unmarked_setMark hn hmark)
        have hchildren : ∀ b ∈ if (f x n).2 then childrenFrom G h n 0 else [], b ∈ S := by
          intro b hb
          split_ifs at hb
          · exact hclosed n hn hmark b (mem_childrenFrom.1 hb)
          · exact absurd hb not_mem_nil
        have hset : h.setMark n = h.markAll [(n, (f x n).2)] := by
          rw [← h.setMark_markAll, Heap.markAll_nil]
        obtain ⟨l, y, hs⟩ := ih _ (hless []) (hset ▸ hclosed.markAll _) hchildren (f x n).1
          (congrArg (fun h => (unmarked h S).card) hset)
        obtain ⟨l', z, hs'⟩ := ih _ (hless l) (hclosed.markAll _) hns y rfl
        exact ⟨_, z, .visit hmark hs hs'⟩

/-- A search depends on the marks, and on the children and the visits of the nodes it visits. -/
theorem Search.congr (hs : Search G f h ns x l y) (hmarked : h'.marked = h.marked)
    (hchildren : ∀ a ∈ l.map Prod.fst, childrenFrom G' h' a 0 = childrenFrom G h a 0)
    (hvisit : ∀ a ∈ l.map Prod.fst, ∀ x, f' x a = f x a) : Search G' f' h' ns x l y := by
  induction hs generalizing h' with
  | nil => exact .nil h' _
  | @skip h n _ _ _ _ marked _ ih =>
    exact .skip (hmarked ▸ marked) (ih hmarked hchildren hvisit)
  | @visit h n ns x y z l l' unmarked _ _ ih ih' =>
    have hl {a : ν} (ha : a ∈ l.map Prod.fst) :
        a ∈ ((n, (f x n).2) :: l ++ l').map Prod.fst := by
      simp [ha]
    have hl' {a : ν} (ha : a ∈ l'.map Prod.fst) :
        a ∈ ((n, (f x n).2) :: l ++ l').map Prod.fst := by
      simp [ha]
    have hn : n ∈ ((n, (f x n).2) :: l ++ l').map Prod.fst := by simp
    have hkids := hchildren n hn
    have hset : (h'.setMark n).marked = (h.setMark n).marked := by
      simp only [Heap.setMark, hmarked]
    have hall (k : List (ν × Bool)) : (h'.markAll k).marked = (h.markAll k).marked := by
      simp only [Heap.markAll, hmarked]
    have hfirst := ih hset (fun a ha => hchildren a (hl ha)) fun a ha => hvisit a (hl ha)
    have hrest := ih' (hall _) (fun a ha => hchildren a (hl' ha)) fun a ha => hvisit a (hl' ha)
    rw [← hvisit n hn x] at hfirst hrest ⊢
    rw [← hkids] at hfirst
    exact .visit (hmarked ▸ unmarked) hfirst hrest

end

/-! ### Runs -/

/-- Nodes that are unmarked have not been left through a slot. -/
def Fresh (h : Heap ν V) : Prop := ∀ n, h.marked n = false → h.pos n = none

/-- Some slots of marked nodes hold the stack. -/
structure Agrees (h m : Heap ν V) : Prop where
  marked : m.marked = h.marked
  slot : ∀ a, h.marked a = false → m.slot a = h.slot a
  pos : ∀ a, h.marked a = false → m.pos a = none

/-- The machine does what a search from the slots of a node does, or goes to a node without the
property. -/
def Explores (G : Graph ν V) (P : ν → Prop) (f : σ → ν → σ × Bool) (h : Heap ν V) (ns : List ν)
    (x : σ) (l : List (ν × Bool)) (y : σ) : Prop :=
  ∀ m cur prev j log, Agrees h m → m.marked cur = true → m.pos cur = none →
    childrenFrom G m cur j = ns →
    (∀ n ∈ l.map Prod.fst, P n) ∧ StepsIn G P f ⟨m, .visit cur prev j, x, log⟩
        ⟨m.markAll l, .ret cur prev, y, log ++ l⟩ ∨
      ∃ n ∈ l.map Prod.fst, ¬ P n ∧ GoesTo G P f ⟨m, .visit cur prev j, x, log⟩ n

section

variable {G G' : Graph ν V} {P : ν → Prop} {f : σ → ν → σ × Bool} {h m : Heap ν V}
  {s s' : State ν V σ} {ns : List ν} {x y z : σ} {l l' log : List (ν × Bool)} {cur next : ν}
  {prev : Option ν} {j : ℕ}

theorem StepsIn.goesTo (hs : StepsIn G P f s s') {n : ν} (h : GoesTo G P f s' n) :
    GoesTo G P f s n := by
  obtain ⟨u, v, prev, hsteps, hv⟩ := h
  exact ⟨u, v, prev, hs.trans hsteps, hv⟩

/-- Slots that do not lead to a node are passed. -/
theorem scan_children (hj : childrenFrom G m cur j = ns) :
    (ns = [] ∧ StepsIn G P f ⟨m, .visit cur prev j, x, log⟩ ⟨m, .ret cur prev, x, log⟩) ∨
      ∃ n ns' i, ns = n :: ns' ∧ i < G.arity cur ∧ G.follow cur (m.slot cur i) = some n ∧
        childrenFrom G m cur (i + 1) = ns' ∧
        StepsIn G P f ⟨m, .visit cur prev j, x, log⟩ ⟨m, .visit cur prev i, x, log⟩ := by
  induction hk : G.arity cur - j generalizing j with
  | zero =>
    rw [childrenFrom_of_le (by omega)] at hj
    refine .inl ⟨hj.symm, .single ⟨?_, nofun⟩⟩
    have hge : ¬ j < G.arity cur := by omega
    simp [step, hge]
  | succ k ih =>
    have hlt : j < G.arity cur := by omega
    rw [childrenFrom_of_lt hlt] at hj
    cases hfollow : G.follow cur (m.slot cur j) with
    | some n =>
      rw [hfollow] at hj
      exact .inr ⟨n, _, j, hj.symm, hlt, hfollow, rfl, .refl⟩
    | none =>
      rw [hfollow] at hj
      have hnext : StepsIn G P f ⟨m, .visit cur prev j, x, log⟩ ⟨m, .visit cur prev (j + 1), x, log⟩ :=
        .single ⟨by simp [step, hlt, hfollow], nofun⟩
      rcases ih hj (by omega) with ⟨hnil, hsteps⟩ | ⟨n, ns', i, hns, hi, hfollow', hrest, hsteps⟩
      · exact .inl ⟨hnil, hnext.trans hsteps⟩
      · exact .inr ⟨n, ns', i, hns, hi, hfollow', hrest, hnext.trans hsteps⟩

theorem Agrees.markAll (hagree : Agrees h m) (l : List (ν × Bool)) :
    Agrees (h.markAll l) (m.markAll l) := by
  refine ⟨?_, fun a ha => hagree.slot a (white_markAll ha).1,
    fun a ha => hagree.pos a (white_markAll ha).1⟩
  simp only [Heap.markAll, hagree.marked]

/-- From a node to the end of its slots. -/
theorem Agrees.enter (hagree : Agrees h m) (hcur : P cur) (hmark : h.marked cur = false)
    (hnil : (f x cur).2 = false → l = [] ∧ y = (f x cur).1)
    (hchildren : (f x cur).2 = true →
      Explores G P f (h.setMark cur) (childrenFrom G h cur 0) (f x cur).1 l y) :
    (∀ n ∈ ((cur, (f x cur).2) :: l).map Prod.fst, P n) ∧ StepsIn G P f ⟨m, .mark cur prev, x, log⟩
        ⟨m.markAll ((cur, (f x cur).2) :: l), .ret cur prev, y, log ++ (cur, (f x cur).2) :: l⟩ ∨
      ∃ n ∈ ((cur, (f x cur).2) :: l).map Prod.fst, ¬ P n ∧
        GoesTo G P f ⟨m, .mark cur prev, x, log⟩ n := by
  have hstep : step G f ⟨m, .mark cur prev, x, log⟩ = some ⟨m.setMark cur,
      if (f x cur).2 then .visit cur prev 0 else .ret cur prev, (f x cur).1,
      log ++ [(cur, (f x cur).2)]⟩ := rfl
  cases hvisit : (f x cur).2 with
  | false =>
    obtain ⟨rfl, rfl⟩ := hnil hvisit
    rw [hvisit] at hstep
    refine .inl ⟨by simpa using hcur, .single ⟨?_, nofun⟩⟩
    rw [← m.setMark_markAll, Heap.markAll_nil]
    exact hstep
  | true =>
    rw [hvisit] at hstep
    have hfirst : StepsIn G P f ⟨m, .mark cur prev, x, log⟩
        ⟨m.setMark cur, .visit cur prev 0, (f x cur).1, log ++ [(cur, true)]⟩ :=
      .single ⟨hstep, nofun⟩
    have hagree' : Agrees (h.setMark cur) (m.setMark cur) := by
      have hsub {a : ν} (ha : (h.setMark cur).marked a = false) : h.marked a = false := by
        rw [setMark_eq_markAll] at ha
        exact (white_markAll ha).1
      refine ⟨?_, fun a ha => hagree.slot a (hsub ha), fun a ha => hagree.pos a (hsub ha)⟩
      simp only [Heap.setMark, hagree.marked]
    have hslots : childrenFrom G (m.setMark cur) cur 0 = childrenFrom G h cur 0 := by
      simp only [childrenFrom, Heap.setMark_slot, hagree.slot cur hmark]
    have happend : log ++ [(cur, true)] ++ l = log ++ (cur, true) :: l := by simp
    rcases hchildren hvisit _ cur prev 0 (log ++ [(cur, true)]) hagree' (m.setMark_self cur)
      (hagree.pos cur hmark) hslots with ⟨hall, hsteps⟩ | ⟨n, hn, hout, hgoes⟩
    · rw [m.setMark_markAll cur true, happend] at hsteps
      exact .inl ⟨forall_mem_cons.2 ⟨hcur, hall⟩, hfirst.trans hsteps⟩
    · exact .inr ⟨n, mem_cons_of_mem _ hn, hout, hfirst.goesTo hgoes⟩

/-- A search is what the machine does, as long as it stays where both graphs have the same
children. -/
theorem Search.explores (hG : ∀ a, P a → ∀ h : Heap ν V, childrenFrom G' h a 0 = childrenFrom G h a 0)
    (hs : Search G' f h ns x l y) : Explores G P f h ns x l y := by
  induction hs with
  | nil h x =>
    intro m cur prev j log _ _ _ hj
    rcases scan_children (P := P) (f := f) (x := x) hj with
      ⟨-, hsteps⟩ | ⟨n, ns', i, hns, -⟩
    · refine .inl ⟨nofun, ?_⟩
      rwa [m.markAll_nil, append_nil]
    · cases hns
  | @skip h n ns x y l marked _ ih =>
    intro m cur prev j log hagree hcur hpos hj
    rcases scan_children (P := P) (f := f) (x := x) hj with
      ⟨hnil, -⟩ | ⟨n', ns', i, hns, hi, hfollow, hrest, hsteps⟩
    · cases hnil
    · cases hns
      have hmark : m.marked n = true := hagree.marked ▸ marked
      have hskip : StepsIn G P f ⟨m, .visit cur prev i, x, log⟩ ⟨m, .visit cur prev (i + 1), x, log⟩ :=
        .single ⟨by simp [step, hi, hfollow, hmark], nofun⟩
      have hbefore : StepsIn G P f ⟨m, .visit cur prev j, x, log⟩
          ⟨m, .visit cur prev (i + 1), x, log⟩ := hsteps.trans hskip
      rcases ih m cur prev (i + 1) log hagree hcur hpos hrest with ⟨hall, hafter⟩ |
        ⟨k, hk, hout, hgoes⟩
      · exact .inl ⟨hall, hbefore.trans hafter⟩
      · exact .inr ⟨k, hk, hout, hbefore.goesTo hgoes⟩
  | @visit h n ns x y z l l' unmarked children _ ih ih' =>
    intro m cur prev j log hagree hcur hpos hj
    rcases scan_children (P := P) (f := f) (x := x) hj with
      ⟨hnil, -⟩ | ⟨n', ns', i, hns, hi, hfollow, hrest, hsteps⟩
    · cases hnil
    · cases hns
      have hmark : m.marked n = false := hagree.marked ▸ unmarked
      have hdown : step G f ⟨m, .visit cur prev i, x, log⟩ = some
          ⟨(m.setPos cur (some i)).setSlot cur i (G.link prev), .mark n (some cur), x, log⟩ := by
        simp [step, hi, hfollow, hmark]
      by_cases hP : P n
      · have hagree' : Agrees h ((m.setPos cur (some i)).setSlot cur i (G.link prev)) := by
          refine ⟨hagree.marked, fun a ha => ?_, fun a ha => ?_⟩
          · have hne : a ≠ cur := fun heq => by simp [← hagree.marked, heq, hcur] at ha
            simpa [Heap.setSlot, hne] using hagree.slot a ha
          · have hne : a ≠ cur := fun heq => by simp [← hagree.marked, heq, hcur] at ha
            simpa [Heap.setPos, hne] using hagree.pos a ha
        have hnil (hvisit : (f x n).2 = false) : l = [] ∧ y = (f x n).1 := by
          simp only [hvisit, false_eq_true, if_false] at children
          exact children.eq_nil
        have hchildren (hvisit : (f x n).2 = true) :
            Explores G P f (h.setMark n) (childrenFrom G h n 0) (f x n).1 l y := by
          simpa only [hvisit, if_true, hG n hP h] using ih
        have hgo : StepsIn G P f ⟨m, .visit cur prev j, x, log⟩
            ⟨(m.setPos cur (some i)).setSlot cur i (G.link prev), .mark n (some cur), x, log⟩ := by
          refine hsteps.trans (.single ⟨hdown, fun k q heq => ?_⟩)
          cases heq
          exact hP
        rcases hagree'.enter hP unmarked hnil hchildren with
          ⟨hall, hnode⟩ | ⟨k, hk, hout, hgoes⟩
        · have hup : step G f ⟨((m.setPos cur (some i)).setSlot cur i (G.link prev)).markAll
              ((n, (f x n).2) :: l), .ret n (some cur), y, log ++ (n, (f x n).2) :: l⟩ =
                some ⟨m.markAll ((n, (f x n).2) :: l), .visit cur prev (i + 1), y,
                  log ++ (n, (f x n).2) :: l⟩ := by
            rw [← relink prev hpos hfollow ((n, (f x n).2) :: l)]
            simp [step, Heap.setPos, Heap.setSlot, G.unlink_link]
          have hback : StepsIn G P f ⟨m, .visit cur prev j, x, log⟩
              ⟨m.markAll ((n, (f x n).2) :: l), .visit cur prev (i + 1), y,
                log ++ (n, (f x n).2) :: l⟩ :=
            (hgo.trans hnode).trans (.single ⟨hup, nofun⟩)
          rcases ih' _ cur prev (i + 1) (log ++ (n, (f x n).2) :: l) (hagree.markAll _)
            ((m.markAll_marked _ cur).2 (.inl hcur)) hpos hrest with ⟨hall', hafter⟩ |
              ⟨k, hk, hout, hgoes⟩
          · rw [m.markAll_append, append_assoc] at hafter
            refine .inl ⟨?_, hback.trans hafter⟩
            rw [map_append]
            exact fun k hk => (mem_append.1 hk).elim (hall k) (hall' k)
          · exact .inr ⟨k, by simp [hk], hout, hback.goesTo hgoes⟩
        · refine .inr ⟨k, ?_, hout, hgo.goesTo hgoes⟩
          rw [map_append]
          exact mem_append_left _ hk
      · exact .inr ⟨n, by simp, hP, _, _, cur, hsteps, hdown, rfl⟩

/-- The search from an unmarked node. -/
theorem Search.run (hG : ∀ a, P a → ∀ h : Heap ν V, childrenFrom G' h a 0 = childrenFrom G h a 0)
    (hs : Search G' f h [cur] x l y) (hfresh : Fresh h) (hcur : P cur) (hmark : h.marked cur = false) :
    (∀ n ∈ l.map Prod.fst, P n) ∧ StepsIn G P f ⟨h, .mark cur prev, x, log⟩
        ⟨h.markAll l, .ret cur prev, y, log ++ l⟩ ∨
      ∃ n ∈ l.map Prod.fst, ¬ P n ∧ GoesTo G P f ⟨h, .mark cur prev, x, log⟩ n := by
  cases hs with
  | skip marked _ => exact Bool.noConfusion (hmark.symm.trans marked)
  | @visit _ _ _ _ _ _ l _ _ children rest =>
    obtain ⟨rfl, rfl⟩ := rest.eq_nil
    rw [append_nil]
    have hagree : Agrees h h := ⟨rfl, fun _ _ => rfl, hfresh⟩
    refine hagree.enter hcur hmark (fun hvisit => ?_) fun hvisit => ?_
    · simp only [hvisit, false_eq_true, if_false] at children
      exact children.eq_nil
    · have hexplores := children.explores hG
      simpa only [hvisit, if_true, hG cur hcur h] using hexplores

end

/-! ### The stack -/

/-- The node at which the machine is. -/
def Label.cur : Label ν → ν
  | .mark cur _ => cur
  | .visit cur _ _ => cur
  | .ret cur _ => cur

/-- The top of the stack. -/
def Label.prev : Label ν → Option ν
  | .mark _ prev => prev
  | .visit _ prev _ => prev
  | .ret _ prev => prev

/-- The node `q` has been left through a slot that led to `n`. -/
def LeftFor (G : Graph ν V) (h₀ h : Heap ν V) (q n : ν) : Prop :=
  ∃ i, h.pos q = some i ∧ G.follow q (h₀.slot q i) = some n

/-- Only the slots through which nodes have been left differ from those of the first heap.  They hold
the stack, and every node of it has been left for the one above. -/
structure Reversed (G : Graph ν V) (P : ν → Prop) (h₀ : Heap ν V) (s : State ν V σ) : Prop where
  original : ∀ n j, s.heap.pos n ≠ some j → s.heap.slot n j = h₀.slot n j
  left : ∀ n j, s.heap.pos n = some j → P n ∧ s.heap.marked n = true ∧ j < G.arity n
  mono : ∀ n, h₀.marked n = true → s.heap.marked n = true
  linked : ∀ n j q, s.heap.pos n = some j → G.unlink (s.heap.slot n j) = some q →
    LeftFor G h₀ s.heap q n
  cur : P s.label.cur ∧ s.heap.pos s.label.cur = none
  prev : ∀ q, s.label.prev = some q → LeftFor G h₀ s.heap q s.label.cur
  mark : ∀ cur prev, s.label = .mark cur prev → s.heap.marked cur = false
  visit : ∀ cur prev j, s.label = .visit cur prev j → s.heap.marked cur = true

section

variable {G : Graph ν V} {P : ν → Prop} {h₀ : Heap ν V} {f : σ → ν → σ × Bool} {s s' : State ν V σ}

omit [DecidableEq ν] in
/-- The machine stays at the same node, and its heap has more marks. -/
theorem Reversed.stay (hs : Reversed G P h₀ s) (hslot : s'.heap.slot = s.heap.slot)
    (hpos : s'.heap.pos = s.heap.pos) (hmarked : ∀ n, s.heap.marked n = true → s'.heap.marked n = true)
    (hcur : s'.label.cur = s.label.cur) (hprev : s'.label.prev = s.label.prev)
    (hmark : ∀ cur prev, s'.label = .mark cur prev → s'.heap.marked cur = false)
    (hvisit : ∀ cur prev j, s'.label = .visit cur prev j → s'.heap.marked cur = true) :
    Reversed G P h₀ s' := by
  have hleft (q n : ν) (h : LeftFor G h₀ s.heap q n) : LeftFor G h₀ s'.heap q n := by
    obtain ⟨i, hi, hfollow⟩ := h
    exact ⟨i, by rw [hpos, hi], hfollow⟩
  refine ⟨?_, ?_, fun n hn => hmarked n (hs.mono n hn), ?_, ?_, ?_, hmark, hvisit⟩
  · rw [hslot, hpos]
    exact hs.original
  · intro n j hj
    rw [hpos] at hj
    obtain ⟨hP, hm, hlt⟩ := hs.left n j hj
    exact ⟨hP, hmarked n hm, hlt⟩
  · intro n j q hj hq
    rw [hpos] at hj
    rw [hslot] at hq
    exact hleft q n (hs.linked n j q hj hq)
  · rw [hcur, hpos]
    exact hs.cur
  · intro q hq
    rw [hprev] at hq
    rw [hcur]
    exact hleft q _ (hs.prev q hq)

theorem Reversed.descend {cur next : ν} {prev : Option ν} {j : ℕ} {x : σ} {h : Heap ν V}
    {log : List (ν × Bool)} (hP : P next)
    (hs : Reversed G P h₀ ⟨h, .visit cur prev j, x, log⟩) (hj : j < G.arity cur)
    (hfollow : G.follow cur (h.slot cur j) = some next) (hnext : h.marked next = false) :
    Reversed G P h₀
      ⟨(h.setPos cur (some j)).setSlot cur j (G.link prev), .mark next (some cur), x, log⟩ := by
  obtain ⟨hcurP, hcurpos⟩ : P cur ∧ h.pos cur = none := hs.cur
  have hmarked : h.marked cur = true := hs.visit cur prev j rfl
  have hfollow₀ : G.follow cur (h₀.slot cur j) = some next := by
    have hslot : h.slot cur j = h₀.slot cur j := hs.original cur j (by simp [hcurpos])
    rwa [← hslot]
  have hleft {q n : ν} (hq : LeftFor G h₀ h q n) :
      LeftFor G h₀ ((h.setPos cur (some j)).setSlot cur j (G.link prev)) q n := by
    obtain ⟨i, hi, hfollow⟩ := hq
    have hne : q ≠ cur := fun heq => by simp [heq, hcurpos] at hi
    exact ⟨i, by simpa [Heap.setPos, hne] using hi, hfollow⟩
  refine ⟨fun n i hi => ?_, fun n i hi => ?_, hs.mono, fun n i q hi hq => ?_, ?_, ?_, ?_, nofun⟩
  · by_cases hn : n = cur
    · subst hn
      have hne : i ≠ j := fun heq => hi (by simp [Heap.setPos, heq])
      simpa [Heap.setSlot, hne] using hs.original n i (by simp [hcurpos])
    · have hi : h.pos n ≠ some i := by simpa [Heap.setPos, hn] using hi
      simpa [Heap.setSlot, hn] using hs.original n i hi
  · by_cases hn : n = cur
    · subst hn
      obtain rfl : j = i := by simpa [Heap.setPos] using hi
      exact ⟨hcurP, hmarked, hj⟩
    · exact hs.left n i (by simpa [Heap.setPos, hn] using hi)
  · by_cases hn : n = cur
    · subst hn
      obtain rfl : j = i := by simpa [Heap.setPos] using hi
      have hprev : prev = some q := by simpa [Heap.setSlot, G.unlink_link] using hq
      exact hleft (hs.prev q hprev)
    · refine hleft (hs.linked n i q (by simpa [Heap.setPos, hn] using hi) ?_)
      simpa [Heap.setSlot, hn] using hq
  · refine ⟨hP, ?_⟩
    have hne : next ≠ cur := fun heq => by simp [heq, hmarked] at hnext
    show (Function.update h.pos cur (some j)) next = none
    rw [update_of_ne hne]
    cases hpos : h.pos next with
    | none => rfl
    | some i =>
      have hmark : h.marked next = true := (hs.left next i hpos).2.1
      simp [hmark] at hnext
  · intro q hq
    cases hq
    exact ⟨j, by simp [Heap.setPos], hfollow₀⟩
  · intro n prev' heq
    cases heq
    exact hnext

theorem Reversed.resume {next cur : ν} {j : ℕ} {x : σ} {h : Heap ν V} {log : List (ν × Bool)}
    (hs : Reversed G P h₀ ⟨h, .ret next (some cur), x, log⟩) (hj : h.pos cur = some j) :
    Reversed G P h₀ ⟨(h.setPos cur none).setSlot cur j (G.link (some next)),
      .visit cur (G.unlink (h.slot cur j)) (j + 1), x, log⟩ := by
  obtain ⟨hnextP, hnextpos⟩ : P next ∧ h.pos next = none := hs.cur
  obtain ⟨hcurP, hmarked, hlt⟩ := hs.left cur j hj
  have hfollow : G.follow cur (h₀.slot cur j) = some next := by
    obtain ⟨i, hi, hfollow⟩ := hs.prev cur rfl
    cases hi.symm.trans hj
    exact hfollow
  have hlink : h₀.slot cur j = G.link (some next) := G.eq_link cur _ _ hfollow
  have hleft {q n : ν} (hn : n ≠ next) (hq : LeftFor G h₀ h q n) :
      LeftFor G h₀ ((h.setPos cur none).setSlot cur j (G.link (some next))) q n := by
    obtain ⟨i, hi, hfollow'⟩ := hq
    have hne : q ≠ cur := by
      rintro rfl
      cases hi.symm.trans hj
      exact hn (Option.some.inj (hfollow'.symm.trans hfollow))
    exact ⟨i, by simpa [Heap.setPos, hne] using hi, hfollow'⟩
  refine ⟨fun n i hi => ?_, fun n i hi => ?_, hs.mono, fun n i q hi hq => ?_, ?_, ?_, nofun, ?_⟩
  · by_cases hn : n = cur
    · subst hn
      by_cases hij : i = j
      · subst hij
        simp [Heap.setSlot, hlink]
      · simpa [Heap.setSlot, hij] using hs.original n i (by simpa [hj] using fun h => hij h.symm)
    · have hi : h.pos n ≠ some i := by simpa [Heap.setPos, hn] using hi
      simpa [Heap.setSlot, hn] using hs.original n i hi
  · have hn : n ≠ cur := fun heq => by simp [Heap.setPos, heq] at hi
    exact hs.left n i (by simpa [Heap.setPos, hn] using hi)
  · have hn : n ≠ cur := fun heq => by simp [Heap.setPos, heq] at hi
    have hi : h.pos n = some i := by simpa [Heap.setPos, hn] using hi
    have hnext : n ≠ next := fun heq => by simp [heq, hnextpos] at hi
    exact hleft hnext (hs.linked n i q hi (by simpa [Heap.setSlot, hn] using hq))
  · exact ⟨hcurP, by simp [Label.cur, Heap.setPos]⟩
  · intro q hq
    have hne : cur ≠ next := fun heq => by simp [heq, hnextpos] at hj
    exact hleft hne (hs.linked cur j q hj hq)
  · intro n prev' i heq
    cases heq
    exact hmarked

/-- Nodes without the property keep their marks. -/
theorem Reversed.marked_eq (hs : Reversed G P h₀ s) (hstep : step G f s = some s') {n : ν}
    (hn : ¬ P n) : s'.heap.marked n = s.heap.marked n := by
  obtain ⟨h, label, x, log⟩ := s
  cases label with
  | mark cur prev =>
    cases hstep
    have hne : n ≠ cur := fun heq => hn (heq ▸ hs.cur.1)
    exact update_of_ne hne _ _
  | visit cur prev j =>
    simp only [PointerReversal.step] at hstep
    split_ifs at hstep
    · split at hstep
      · cases hstep
        rfl
      · split_ifs at hstep
        · cases hstep
          rfl
        · cases hstep
          rfl
    · cases hstep
      rfl
  | ret next prev =>
    cases prev with
    | none => simp [PointerReversal.step] at hstep
    | some cur =>
      cases hj : h.pos cur with
      | none => simp [PointerReversal.step, hj] at hstep
      | some j =>
        simp only [PointerReversal.step, hj] at hstep
        cases hstep
        rfl

theorem Reversed.step (hs : Reversed G P h₀ s) (hstep : step G f s = some s')
    (hP : ∀ cur prev, s'.label = .mark cur prev → P cur) : Reversed G P h₀ s' := by
  obtain ⟨h, label, x, log⟩ := s
  cases label with
  | mark cur prev =>
    have hs' : s' = ⟨h.setMark cur, if (f x cur).2 then .visit cur prev 0 else .ret cur prev,
        (f x cur).1, log ++ [(cur, (f x cur).2)]⟩ := (Option.some.inj hstep).symm
    have hmark (n : ν) (hn : h.marked n = true) : (h.setMark cur).marked n = true := by
      rw [setMark_eq_markAll]
      exact (h.markAll_marked _ n).2 (.inl hn)
    subst hs'
    split_ifs with hvisit
    · refine hs.stay rfl rfl hmark rfl rfl nofun fun n prev' j heq => ?_
      cases heq
      exact h.setMark_self cur
    · exact hs.stay rfl rfl hmark rfl rfl nofun nofun
  | visit cur prev j =>
    have hmarked : h.marked cur = true := hs.visit cur prev j rfl
    have hnext : Reversed G P h₀ ⟨h, .visit cur prev (j + 1), x, log⟩ := by
      refine hs.stay rfl rfl (fun _ hn => hn) rfl rfl nofun fun n prev' i heq => ?_
      cases heq
      exact hmarked
    simp only [PointerReversal.step] at hstep
    split_ifs at hstep with hj
    · cases hfollow : G.follow cur (h.slot cur j) with
      | none =>
        rw [hfollow] at hstep
        cases hstep
        exact hnext
      | some next =>
        rw [hfollow] at hstep
        cases hmark : h.marked next with
        | true =>
          simp only [hmark, if_true] at hstep
          cases hstep
          exact hnext
        | false =>
          simp only [hmark, false_eq_true, if_false] at hstep
          cases hstep
          exact hs.descend (hP next (some cur) rfl) hj hfollow hmark
    · cases hstep
      exact hs.stay rfl rfl (fun _ hn => hn) rfl rfl (fun _ _ h => by cases h) fun _ _ _ h => by cases h
  | ret next prev =>
    cases prev with
    | none => simp [PointerReversal.step] at hstep
    | some cur =>
      cases hj : h.pos cur with
      | none => simp [PointerReversal.step, hj] at hstep
      | some j =>
        simp only [PointerReversal.step, hj] at hstep
        cases hstep
        exact hs.resume hj

omit [DecidableEq ν] in
/-- In a heap in which no node has been left, the search may begin. -/
theorem Reversed.start (h : Heap ν V) (hpos : ∀ n, h.pos n = none) {cur : ν} (hcur : P cur)
    (hwhite : h.marked cur = false) (x : σ) (log : List (ν × Bool)) :
    Reversed G P h ⟨h, .mark cur none, x, log⟩ := by
  refine ⟨fun _ _ _ => rfl, fun n j hj => ?_, fun _ hn => hn, fun n j q hj => ?_,
    ⟨hcur, hpos cur⟩, nofun, fun n prev heq => ?_, nofun⟩
  · rw [hpos n] at hj
    exact absurd hj nofun
  · rw [hpos n] at hj
    exact absurd hj nofun
  · cases heq
    exact hwhite

end

end PointerReversal
