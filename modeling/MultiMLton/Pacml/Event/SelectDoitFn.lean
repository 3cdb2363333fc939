import Mathlib.Tactic

/-!
# The choice among enabled events: `selectDoitFn` of `core-cml/event.sml`

Among the enabled events one is chosen by a counter that is bumped at each choice and shared by
all of them. The candidates are the *fixed* ones (priority `-1`) and those of maximal priority
among the others; the second get two indices each.

* `Cnt`, `random`, `select`, `selectDoitFn`: the code;
* `Parts`, `select_eq`: what the two accumulators of `select` have collected;
* `selectDoitFn_cases`: the list has one candidate only, or the counter picks one by its residue;
* `selectDoitFn_total_fair`: a candidate is always found, and each one comes up in a row of
  calls that is long enough.
-/

namespace MultiMLton.SelectDoitFn

open List Function Int Nat

/-- The exceptions of the integer and list operations. -/
inductive Exn
  | div
  | subscript
  deriving DecidableEq

/-- A candidate. -/
structure Doit (α : Type) where
  prio : ℤ
  doitFn : α

/-- The counter `cnt`. It starts at `0` and is reset from `1000000`. -/
structure Cnt where
  val : ℤ
  nonneg : 0 ≤ val
  le : val ≤ 1000000

/-- `val cnt = ref 0`. -/
def Cnt.start : Cnt := ⟨0, le_rfl, by decide⟩

/-- `if j = 1000000 then cnt := 0 else cnt := j + 1`. -/
def Cnt.next (cnt : Cnt) : Cnt :=
  if h : cnt.val = 1000000 then ⟨0, le_rfl, by decide⟩
  else ⟨cnt.val + 1, by have := cnt.nonneg; omega, by have := cnt.le; omega⟩

variable {α : Type}

/-- `Int.rem`. -/
def rem (j i : ℤ) : Except Exn ℤ := if i = 0 then .error .div else .ok (j.tmod i)

/-- `Int.mod`. -/
def mod (j i : ℤ) : Except Exn ℤ := if i = 0 then .error .div else .ok (j.fmod i)

/-- `List.nth`. -/
def nth (l : List α) (k : ℤ) : Except Exn α :=
  if 0 ≤ k then (l[k.toNat]?).elim (.error .subscript) .ok else .error .subscript

/-- `random`. -/
def random (i : ℤ) (cnt : Cnt) : Except Exn (ℤ × Cnt) := (rem cnt.val i).map fun k => (k, cnt.next)

/-- `select`, the loop of `selectDoitFn`. -/
def select : List (Doit α) → ℤ → List α → ℤ → List α → ℤ → Cnt → Except Exn (α × Cnt)
  | [], _, doitFnsMaxP, numMaxP, doitFnsFixed, numFixed, cnt =>
    match doitFnsMaxP, doitFnsFixed with
    | [doitFn], [] => .ok (doitFn, cnt)
    | [], [doitFn] => .ok (doitFn, cnt)
    | doitFnsMaxP, doitFnsFixed => do
      let bias := 2
      let num := numFixed + bias * numMaxP
      let (k, cnt) ← random num cnt
      if k < numFixed then
        let doitFn ← nth doitFnsFixed k
        return (doitFn, cnt)
      else
        let i ← mod (k - numFixed) numMaxP
        let doitFn ← nth doitFnsMaxP i
        return (doitFn, cnt)
  | ⟨prio, doitFn⟩ :: doitFns, maxP, doitFnsMaxP, numMaxP, doitFnsFixed, numFixed, cnt =>
    if prio = -1 then
      select doitFns maxP doitFnsMaxP numMaxP (doitFn :: doitFnsFixed) (numFixed + 1) cnt
    else if prio > maxP then
      select doitFns prio [doitFn] 1 doitFnsFixed numFixed cnt
    else if prio = maxP then
      select doitFns maxP (doitFn :: doitFnsMaxP) (numMaxP + 1) doitFnsFixed numFixed cnt
    else
      select doitFns maxP doitFnsMaxP numMaxP doitFnsFixed numFixed cnt

/-- `selectDoitFn`, with the value that it leaves in the counter. -/
def selectDoitFn (doitFns : List (Doit α)) (cnt : Cnt) : Except Exn (α × Cnt) :=
  match doitFns with
  | [⟨_, doitFn⟩] => .ok (doitFn, cnt)
  | doitFns => select doitFns 0 [] 0 [] 0 cnt

/-- `n` calls one after the other. -/
def calls (doitFns : List (Doit α)) : ℕ → Cnt → Except Exn (List α × Cnt)
  | 0, cnt => .ok ([], cnt)
  | n + 1, cnt => do
    let (doitFn, cnt) ← selectDoitFn doitFns cnt
    let (rest, cnt) ← calls doitFns n cnt
    return (doitFn :: rest, cnt)

/-! ### The candidates -/

/-- The candidate has the maximal priority among those that are not fixed. -/
def Maximal (l : List (Doit α)) (x : Doit α) : Prop :=
  x.prio ≠ -1 ∧ ∀ y ∈ l, y.prio ≠ -1 → y.prio ≤ x.prio

instance (l : List (Doit α)) (x : Doit α) : Decidable (Maximal l x) :=
  inferInstanceAs (Decidable (_ ∧ _))

/-- The number of fixed candidates. -/
def numFixed (l : List (Doit α)) : ℕ := l.countP fun x => x.prio = -1

/-- The number of candidates of maximal priority. -/
def numMaxP (l : List (Doit α)) : ℕ := l.countP fun x => Maximal l x

/-- A priority as the code expects it. -/
def Doit.WellFormed (x : Doit α) : Prop := x.prio = -1 ∨ 0 ≤ x.prio

/-- What `select` has collected of the candidates `l` it has seen. -/
structure Parts (l : List (Doit α)) (maxP : ℤ) (doitFnsMaxP doitFnsFixed : List α) : Prop where
  nonneg : 0 ≤ maxP
  le : ∀ x ∈ l, x.prio ≤ maxP
  fixed_eq : doitFnsFixed = ((l.filter fun x => x.prio = -1).map Doit.doitFn).reverse
  max_eq : doitFnsMaxP = ((l.filter fun x => x.prio = maxP).map Doit.doitFn).reverse
  max_nil : doitFnsMaxP = [] → maxP = 0 ∧ ∀ x ∈ l, x.prio = -1

theorem Parts.nil : Parts ([] : List (Doit α)) 0 [] [] where
  nonneg := le_rfl
  le := by simp
  fixed_eq := rfl
  max_eq := rfl
  max_nil := by simp

section Snoc

variable {l : List (Doit α)} {maxP : ℤ} {dM dF : List α} {x : Doit α}

theorem Parts.snoc_fixed (h : Parts l maxP dM dF) (hx : x.prio = -1) :
    Parts (l ++ [x]) maxP dM (x.doitFn :: dF) where
  nonneg := h.nonneg
  le := by
    have := h.nonneg
    intro y hy
    rcases mem_append.1 hy with hy | hy
    · exact h.le y hy
    · rw [mem_singleton.1 hy]
      omega
  fixed_eq := by simp [h.fixed_eq, hx]
  max_eq := by
    have := h.nonneg
    simp [h.max_eq, show x.prio ≠ maxP by omega]
  max_nil := by
    intro e
    refine ⟨(h.max_nil e).1, fun y hy => ?_⟩
    rcases mem_append.1 hy with hy | hy
    · exact (h.max_nil e).2 y hy
    · rw [mem_singleton.1 hy, hx]

theorem Parts.snoc_above (h : Parts l maxP dM dF) (hx : x.prio > maxP) :
    Parts (l ++ [x]) x.prio [x.doitFn] dF where
  nonneg := by have := h.nonneg; omega
  le := by
    intro y hy
    rcases mem_append.1 hy with hy | hy
    · have := h.le y hy
      omega
    · rw [mem_singleton.1 hy]
  fixed_eq := by
    have := h.nonneg
    simp [h.fixed_eq, show x.prio ≠ -1 by omega]
  max_eq := by
    -- nothing seen so far is as high
    have hnone : (l.filter fun y => y.prio = x.prio) = [] := by
      rw [filter_eq_nil_iff]
      intro y hy
      have := h.le y hy
      simp
      omega
    simp [hnone]
  max_nil := by simp

theorem Parts.snoc_equal (h : Parts l maxP dM dF) (hx : x.prio = maxP) :
    Parts (l ++ [x]) maxP (x.doitFn :: dM) dF where
  nonneg := h.nonneg
  le := by
    intro y hy
    rcases mem_append.1 hy with hy | hy
    · exact h.le y hy
    · rw [mem_singleton.1 hy, hx]
  fixed_eq := by
    have := h.nonneg
    simp [h.fixed_eq, show x.prio ≠ -1 by omega]
  max_eq := by simp [h.max_eq, hx]
  max_nil := by simp

theorem Parts.snoc_below (h : Parts l maxP dM dF) (hx : x.prio < maxP) (hx' : 0 ≤ x.prio) :
    Parts (l ++ [x]) maxP dM dF where
  nonneg := h.nonneg
  le := by
    intro y hy
    rcases mem_append.1 hy with hy | hy
    · exact h.le y hy
    · rw [mem_singleton.1 hy]
      omega
  fixed_eq := by simp [h.fixed_eq, show x.prio ≠ -1 by omega]
  max_eq := by simp [h.max_eq, show x.prio ≠ maxP by omega]
  max_nil := by
    intro e
    have := (h.max_nil e).1
    omega

end Snoc

/-- The loop collects the fixed candidates and those of maximal priority. -/
theorem select_parts (l : List (Doit α)) :
    ∀ {seen : List (Doit α)} {maxP : ℤ} {dM dF : List α}, Parts seen maxP dM dF →
      (∀ x ∈ l, x.WellFormed) →
      ∃ maxP' dM' dF', Parts (seen ++ l) maxP' dM' dF' ∧ ∀ cnt,
        select l maxP dM dM.length dF dF.length cnt =
          select [] maxP' dM' dM'.length dF' dF'.length cnt := by
  induction l with
  | nil =>
    intro seen maxP dM dF h _
    exact ⟨maxP, dM, dF, by rwa [append_nil], fun _ => rfl⟩
  | cons x l ih =>
    intro seen maxP dM dF h hwf
    have hl : ∀ y ∈ l, y.WellFormed := fun y hy => hwf y (mem_cons_of_mem x hy)
    have hx : x.WellFormed := hwf x mem_cons_self
    rw [append_cons]
    have hmax := h.nonneg
    rcases hx with hfixed | hpos
    · obtain ⟨maxP', dM', dF', h', hcode⟩ := ih (h.snoc_fixed hfixed) hl
      refine ⟨maxP', dM', dF', h', fun cnt => ?_⟩
      rw [← hcode cnt, select, if_pos hfixed, length_cons]
      push_cast
      rfl
    · have hne : x.prio ≠ -1 := by omega
      rcases lt_trichotomy x.prio maxP with hlt | heq | hgt
      · obtain ⟨maxP', dM', dF', h', hcode⟩ := ih (h.snoc_below hlt hpos) hl
        refine ⟨maxP', dM', dF', h', fun cnt => ?_⟩
        rw [← hcode cnt, select, if_neg hne, if_neg (by omega), if_neg (by omega)]
      · obtain ⟨maxP', dM', dF', h', hcode⟩ := ih (h.snoc_equal heq) hl
        refine ⟨maxP', dM', dF', h', fun cnt => ?_⟩
        rw [← hcode cnt, select, if_neg hne, if_neg (by omega), if_pos heq, length_cons]
        push_cast
        rfl
      · obtain ⟨maxP', dM', dF', h', hcode⟩ := ih (h.snoc_above hgt) hl
        refine ⟨maxP', dM', dF', h', fun cnt => ?_⟩
        rw [← hcode cnt, select, if_neg hne, if_pos hgt]
        rfl

namespace Parts

variable {l : List (Doit α)} {maxP : ℤ} {dM dF : List α}

theorem maximal_iff (h : Parts l maxP dM dF) {x : Doit α} (hx : x ∈ l) :
    Maximal l x ↔ x.prio = maxP := by
  have hmax := h.nonneg
  constructor
  · rintro ⟨hne, hle⟩
    -- some candidate has the priority `maxP`
    have hdM : dM ≠ [] := fun e => hne ((h.max_nil e).2 x hx)
    have hfilter : (l.filter fun y => y.prio = maxP) ≠ [] := by
      intro e
      apply hdM
      rw [h.max_eq, e]
      rfl
    obtain ⟨y, hy⟩ := exists_mem_of_ne_nil _ hfilter
    obtain ⟨hy, hyp⟩ := mem_filter.1 hy
    have hyp : y.prio = maxP := by simpa using hyp
    have := hle y hy (by omega)
    have := h.le x hx
    omega
  · intro e
    refine ⟨by omega, fun y hy _ => ?_⟩
    have := h.le y hy
    omega

theorem length_fixed (h : Parts l maxP dM dF) : dF.length = numFixed l := by
  rw [h.fixed_eq, numFixed, countP_eq_length_filter]
  simp

theorem length_max (h : Parts l maxP dM dF) : dM.length = numMaxP l := by
  rw [h.max_eq, numMaxP, length_reverse, length_map, ← countP_eq_length_filter]
  exact countP_congr fun x hx => by simp [h.maximal_iff hx]

theorem mem_fixed_iff (h : Parts l maxP dM dF) (a : α) :
    a ∈ dF ↔ ∃ x ∈ l, x.prio = -1 ∧ x.doitFn = a := by
  simp [h.fixed_eq, and_assoc]

theorem mem_max_iff (h : Parts l maxP dM dF) (a : α) :
    a ∈ dM ↔ ∃ x ∈ l, Maximal l x ∧ x.doitFn = a := by
  rw [h.max_eq]
  simp only [mem_reverse, mem_map, mem_filter, decide_eq_true_eq]
  constructor
  · rintro ⟨x, ⟨hx, hp⟩, rfl⟩
    exact ⟨x, hx, (h.maximal_iff hx).2 hp, rfl⟩
  · rintro ⟨x, hx, hp, rfl⟩
    exact ⟨x, ⟨hx, (h.maximal_iff hx).1 hp⟩, rfl⟩

end Parts

/-! ### The choice -/

/-- The candidate with the index `k`: the fixed ones come first, then twice the others. -/
def pick (dM dF : List α) (k : ℕ) : Option α :=
  if k < dF.length then dF[k]? else dM[(k - dF.length) % dM.length]?

variable {dM dF : List α}

/-- A single candidate is chosen without the counter. -/
theorem select_single {a : α} (h : dM ++ dF = [a]) (maxP : ℤ) (cnt : Cnt) :
    select [] maxP dM dM.length dF dF.length cnt = .ok (a, cnt) := by
  rcases append_eq_singleton_iff.1 h with ⟨rfl, rfl⟩ | ⟨rfl, rfl⟩
  · rfl
  · rfl

theorem select_several (h : 2 ≤ dF.length + dM.length) (maxP nM nF : ℤ) (cnt : Cnt) :
    select [] maxP dM nM dF nF cnt = (do
      let (k, cnt) ← random (nF + 2 * nM) cnt
      if k < nF then
        let doitFn ← nth dF k
        return (doitFn, cnt)
      else
        let i ← mod (k - nF) nM
        let doitFn ← nth dM i
        return (doitFn, cnt)) := by
  rcases dM with _ | ⟨x, _ | ⟨y, ys⟩⟩ <;> rcases dF with _ | ⟨f, _ | ⟨g, gs⟩⟩ <;>
    first | rfl | (simp at h)

theorem nth_of_getElem? {l : List α} {k : ℕ} {a : α} (h : l[k]? = some a) :
    nth l k = .ok a := by
  simp [nth, h]

/-- Among several the counter picks one by its residue, and moves on. -/
theorem select_pick (h : 2 ≤ dF.length + dM.length) (maxP : ℤ) (cnt : Cnt) :
    ∃ a, pick dM dF (cnt.val.toNat % (dF.length + 2 * dM.length)) = some a ∧
      select [] maxP dM dM.length dF dF.length cnt = .ok (a, cnt.next) := by
  obtain ⟨j, hj⟩ : ∃ j : ℕ, cnt.val = j := ⟨cnt.val.toNat, by have := cnt.nonneg; omega⟩
  have hk : j % (dF.length + 2 * dM.length) < dF.length + 2 * dM.length := mod_lt _ (by omega)
  have hrandom : random ((dF.length : ℤ) + 2 * dM.length) cnt =
      .ok (((j % (dF.length + 2 * dM.length) : ℕ) : ℤ), cnt.next) := by
    rw [random, rem, if_neg (by omega), hj,
      show (dF.length : ℤ) + 2 * dM.length = (dF.length + 2 * dM.length : ℕ) by push_cast; rfl,
      ← ofNat_tmod]
    rfl
  rw [select_several h, hrandom, hj, toNat_natCast]
  generalize j % (dF.length + 2 * dM.length) = k at hk
  by_cases hfixed : k < dF.length
  · refine ⟨dF[k], by rw [pick, if_pos hfixed, List.getElem?_eq_getElem hfixed], ?_⟩
    show (if (k : ℤ) < dF.length then _ else _) = _
    rw [if_pos (by omega), nth_of_getElem? (List.getElem?_eq_getElem hfixed)]
    rfl
  · have hi : (k - dF.length) % dM.length < dM.length := mod_lt _ (by omega)
    refine ⟨dM[(k - dF.length) % dM.length],
      by rw [pick, if_neg hfixed, List.getElem?_eq_getElem hi], ?_⟩
    have hmod : mod ((k : ℤ) - dF.length) dM.length =
        .ok (((k - dF.length) % dM.length : ℕ) : ℤ) := by
      rw [mod, if_neg (by omega), show (k : ℤ) - dF.length = ((k - dF.length : ℕ) : ℤ) by omega,
        ← ofNat_fmod]
    show (if (k : ℤ) < dF.length then _ else _) = _
    rw [if_neg (by omega), hmod]
    show (do
      let doitFn ← nth dM (((k - dF.length) % dM.length : ℕ) : ℤ)
      _) = _
    rw [nth_of_getElem? (List.getElem?_eq_getElem hi)]
    rfl

/-- Every candidate has an index. -/
theorem exists_pick {a : α} (h : a ∈ dF ∨ a ∈ dM) :
    ∃ k < dF.length + 2 * dM.length, pick dM dF k = some a := by
  rcases h with h | h
  · obtain ⟨k, hk, rfl⟩ := getElem_of_mem h
    exact ⟨k, by omega, by rw [pick, if_pos hk, List.getElem?_eq_getElem hk]⟩
  · obtain ⟨k, hk, rfl⟩ := getElem_of_mem h
    refine ⟨dF.length + k, by omega, ?_⟩
    rw [pick, if_neg (by omega), Nat.add_sub_cancel_left, Nat.mod_eq_of_lt hk,
      List.getElem?_eq_getElem hk]

theorem mem_of_pick {a : α} {k : ℕ} (h : pick dM dF k = some a) : a ∈ dF ∨ a ∈ dM := by
  unfold pick at h
  split_ifs at h
  · exact .inl (mem_of_getElem? h)
  · exact .inr (mem_of_getElem? h)

/-- The candidate may be chosen: it is fixed or of maximal priority. -/
def Eligible (l : List (Doit α)) (x : Doit α) : Prop := x ∈ l ∧ (x.prio = -1 ∨ Maximal l x)

/-- The two ways of a choice: one candidate only, or one picked by the counter. -/
theorem selectDoitFn_cases {l : List (Doit α)} (hne : l ≠ []) (hwf : ∀ x ∈ l, x.WellFormed) :
    (∃ a, (∃ x, Eligible l x ∧ x.doitFn = a) ∧ (∀ x, Eligible l x → x.doitFn = a) ∧
      ∀ cnt, selectDoitFn l cnt = .ok (a, cnt)) ∨
    ∃ dM dF, dF.length = numFixed l ∧ dM.length = numMaxP l ∧
      (∀ a, (a ∈ dF ∨ a ∈ dM) ↔ ∃ x, Eligible l x ∧ x.doitFn = a) ∧
      ∀ cnt, ∃ a, pick dM dF (cnt.val.toNat % (dF.length + 2 * dM.length)) = some a ∧
        selectDoitFn l cnt = .ok (a, cnt.next) := by
  by_cases hone : ∃ x, l = [x]
  · obtain ⟨x, rfl⟩ := hone
    refine .inl ⟨x.doitFn, ⟨x, ⟨by simp, ?_⟩, rfl⟩, fun y hy => ?_, fun cnt => rfl⟩
    · by_cases hx : x.prio = -1
      · exact .inl hx
      · exact .inr ⟨hx, by simp⟩
    · rw [mem_singleton.1 hy.1]
  obtain ⟨maxP, dM, dF, h, hcode⟩ := select_parts l .nil hwf
  rw [nil_append] at h
  have hselect : ∀ cnt, selectDoitFn l cnt = select [] maxP dM dM.length dF dF.length cnt := by
    intro cnt
    rw [← hcode cnt]
    rcases l with _ | ⟨x, _ | ⟨y, l⟩⟩
    · exact absurd rfl hne
    · exact absurd ⟨x, rfl⟩ hone
    · rfl
  have hmem : ∀ a, (a ∈ dF ∨ a ∈ dM) ↔ ∃ x, Eligible l x ∧ x.doitFn = a := by
    intro a
    rw [h.mem_fixed_iff, h.mem_max_iff]
    constructor
    · rintro (⟨x, hx, hp, rfl⟩ | ⟨x, hx, hp, rfl⟩)
      · exact ⟨x, ⟨hx, .inl hp⟩, rfl⟩
      · exact ⟨x, ⟨hx, .inr hp⟩, rfl⟩
    · rintro ⟨x, ⟨hx, hp | hp⟩, rfl⟩
      · exact .inl ⟨x, hx, hp, rfl⟩
      · exact .inr ⟨x, hx, hp, rfl⟩
  -- there is at least one candidate
  have hpos : 0 < (dM ++ dF).length := by
    obtain ⟨x, hx⟩ := exists_mem_of_ne_nil l hne
    by_contra hzero
    obtain ⟨rfl, rfl⟩ : dM = [] ∧ dF = [] :=
      append_eq_nil_iff.1 (length_eq_zero_iff.1 (by omega))
    exact absurd ((hmem x.doitFn).2 ⟨x, ⟨hx, .inl ((h.max_nil rfl).2 x hx)⟩, rfl⟩) (by simp)
  by_cases hsingle : (dM ++ dF).length = 1
  · obtain ⟨a, ha⟩ := length_eq_one_iff.1 hsingle
    have hall : ∀ b, (b ∈ dF ∨ b ∈ dM) ↔ b = a := by
      intro b
      rw [or_comm, ← mem_append, ha, mem_singleton]
    refine .inl ⟨a, (hmem a).1 ((hall a).2 rfl), fun x hx => ?_, fun cnt => ?_⟩
    · exact (hall _).1 ((hmem _).2 ⟨x, hx, rfl⟩)
    · rw [hselect, select_single ha]
  · refine .inr ⟨dM, dF, h.length_fixed, h.length_max, hmem, fun cnt => ?_⟩
    rw [length_append] at hpos hsingle
    obtain ⟨a, hpick, hcode'⟩ := select_pick (show 2 ≤ dF.length + dM.length by omega) maxP cnt
    exact ⟨a, hpick, by rw [hselect, hcode']⟩

/-! ### A row of calls -/

theorem Cnt.next_val (cnt : Cnt) : cnt.next.val = (cnt.val + 1) % 1000001 := by
  have h0 := cnt.nonneg
  have h1 := cnt.le
  unfold Cnt.next
  split_ifs with h
  · rw [h]
    rfl
  · rw [emod_eq_of_lt (by omega) (by omega)]

theorem Cnt.iterate_val (cnt : Cnt) (i : ℕ) :
    (Cnt.next^[i] cnt).val.toNat = (cnt.val.toNat + i) % 1000001 := by
  have h0 := cnt.nonneg
  have h1 := cnt.le
  induction i with
  | zero => rw [iterate_zero, id_eq, add_zero, Nat.mod_eq_of_lt (by omega)]
  | succ i ih =>
    rw [iterate_succ_apply', Cnt.next_val]
    have := (Cnt.next^[i] cnt).nonneg
    omega

theorem exists_residue (j : ℕ) {num k : ℕ} (hk : k < num) : ∃ i < num, (j + i) % num = k := by
  refine ⟨(k + (num - j % num)) % num, mod_lt _ (by omega), ?_⟩
  have hj : j % num < num := mod_lt _ (by omega)
  rw [add_mod_mod, ← mod_add_mod, show j % num + (k + (num - j % num)) = k + num by omega,
    add_mod_right, Nat.mod_eq_of_lt hk]

/-- A row of counter values has every residue if it is as long as there are residues and the
counter is not reset in it, and in any case if it is twice as long, less one. -/
theorem exists_residue_reset {j n num k : ℕ} (hj : j ≤ 1000000) (hn : n ≤ 1000000) (hk : k < num)
    (hlong : num ≤ n ∧ j + n ≤ 1000001 ∨ 2 * num - 1 ≤ n) :
    ∃ i < n, (j + i) % 1000001 % num = k := by
  by_cases hreset : j + num ≤ 1000001
  · obtain ⟨i, hi, hres⟩ := exists_residue j hk
    exact ⟨i, by omega, by rw [Nat.mod_eq_of_lt (show j + i < 1000001 by omega), hres]⟩
  · -- fewer than `num` calls before the reset, and `num` after it
    refine ⟨1000001 - j + k, by omega, ?_⟩
    rw [show j + (1000001 - j + k) = k + 1000001 by omega, add_mod_right,
      Nat.mod_eq_of_lt (show k < 1000001 by omega), Nat.mod_eq_of_lt hk]

theorem calls_succ {l : List (Doit α)} {cnt cnt' : Cnt} {a : α}
    (h : selectDoitFn l cnt = .ok (a, cnt')) (n : ℕ) :
    calls l (n + 1) cnt = (calls l n cnt').map fun p => (a :: p.1, p.2) := by
  simp only [calls, h]
  rfl

/-- A single candidate is chosen in every call. -/
theorem calls_single {l : List (Doit α)} {a : α} (h : ∀ cnt, selectDoitFn l cnt = .ok (a, cnt))
    (n : ℕ) (cnt : Cnt) : calls l n cnt = .ok (replicate n a, cnt) := by
  induction n with
  | zero => rfl
  | succ n ih =>
    rw [calls_succ (h cnt), ih]
    rfl

/-- Among several the call number `i` picks by the `i`-th next value of the counter. -/
theorem calls_pick {l : List (Doit α)}
    (h : ∀ cnt, ∃ a, pick dM dF (cnt.val.toNat % (dF.length + 2 * dM.length)) = some a ∧
      selectDoitFn l cnt = .ok (a, cnt.next)) (n : ℕ) :
    ∀ cnt, ∃ as cnt', calls l n cnt = .ok (as, cnt') ∧ ∀ i < n, ∃ a ∈ as,
      pick dM dF ((Cnt.next^[i] cnt).val.toNat % (dF.length + 2 * dM.length)) = some a := by
  induction n with
  | zero => exact fun cnt => ⟨[], cnt, rfl, by simp⟩
  | succ n ih =>
    intro cnt
    obtain ⟨a, hpick, hcode⟩ := h cnt
    obtain ⟨as, cnt', hcalls, has⟩ := ih cnt.next
    refine ⟨a :: as, cnt', by rw [calls_succ hcode, hcalls]; rfl, fun i hi => ?_⟩
    cases i with
    | zero => exact ⟨a, mem_cons_self, hpick⟩
    | succ i =>
      obtain ⟨b, hb, hpick'⟩ := has i (by omega)
      exact ⟨b, mem_cons_of_mem a hb, by rw [iterate_succ_apply]; exact hpick'⟩

/-- **`selectDoitFn` is total and fair by class.** It always returns a candidate that is fixed or
of maximal priority, and in a row of calls each of these comes up: once per `numFixed + 2 * numMaxP`
calls while the counter is not reset, and once per twice as many, less one, across a reset. -/
theorem selectDoitFn_total_fair {l : List (Doit α)} (hne : l ≠ [])
    (hprio : ∀ x ∈ l, x.prio = -1 ∨ 0 ≤ x.prio) (cnt : Cnt) :
    (∃ x cnt', selectDoitFn l cnt = .ok (x.doitFn, cnt') ∧ x ∈ l ∧ (x.prio = -1 ∨ Maximal l x)) ∧
    ∀ n : ℕ, 1 ≤ n → n ≤ 1000000 → ∃ as cnt', calls l n cnt = .ok (as, cnt') ∧
      (numFixed l + 2 * numMaxP l ≤ n ∧ cnt.val + n ≤ 1000001 ∨
          2 * (numFixed l + 2 * numMaxP l) - 1 ≤ n →
        ∀ x ∈ l, x.prio = -1 ∨ Maximal l x → x.doitFn ∈ as) := by
  have h0 := cnt.nonneg
  have h1 := cnt.le
  rcases selectDoitFn_cases hne hprio with ⟨a, ⟨x, hx, rfl⟩, hall, hcode⟩ |
    ⟨dM, dF, hF, hM, hmem, hcode⟩
  · refine ⟨⟨x, cnt, hcode cnt, hx⟩, fun n hn _ => ⟨_, _, calls_single hcode n cnt, ?_⟩⟩
    intro _ y hy hp
    rw [hall y ⟨hy, hp⟩, List.mem_replicate]
    exact ⟨by omega, rfl⟩
  · constructor
    · obtain ⟨a, hpick, hsel⟩ := hcode cnt
      obtain ⟨x, hx, rfl⟩ := (hmem a).1 (mem_of_pick hpick)
      exact ⟨x, cnt.next, hsel, hx⟩
    · intro n _ hn
      obtain ⟨as, cnt', hcalls, has⟩ := calls_pick hcode n cnt
      refine ⟨as, cnt', hcalls, fun hlong x hx hp => ?_⟩
      obtain ⟨k, hk, hpick⟩ := exists_pick ((hmem x.doitFn).2 ⟨x, ⟨hx, hp⟩, rfl⟩)
      rw [← hF, ← hM] at hlong
      obtain ⟨i, hi, hres⟩ := exists_residue_reset (j := cnt.val.toNat) (by omega) hn hk (by omega)
      obtain ⟨b, hb, hpick'⟩ := has i hi
      rw [Cnt.iterate_val, hres, hpick] at hpick'
      rwa [Option.some.inj hpick']

theorem selectDoitFn_two :
    ∃ as cnt', calls [⟨-1, 0⟩, ⟨3, 1⟩] 3 .start = .ok (as, cnt') ∧ 0 ∈ as := by
  obtain ⟨as, cnt', hcalls, hfair⟩ := (selectDoitFn_total_fair (l := [⟨-1, 0⟩, ⟨3, 1⟩]) (by simp)
    (by simp) .start).2 3 (by decide) (by decide)
  exact ⟨as, cnt', hcalls, hfair (by decide) ⟨-1, 0⟩ (by simp) (.inl rfl)⟩

/-- Three fixed candidates and a row of three calls from the last value but one of the counter:
the residues are `0`, `1` and, after the reset, `0` again. -/
theorem selectDoitFn_not_fair :
    ∃ as cnt', calls [⟨-1, 0⟩, ⟨-1, 1⟩, ⟨-1, 2⟩] 3 ⟨999999, by decide, by decide⟩ =
        .ok (as, cnt') ∧
      numFixed [(⟨-1, 0⟩ : Doit ℕ), ⟨-1, 1⟩, ⟨-1, 2⟩] +
        2 * numMaxP [(⟨-1, 0⟩ : Doit ℕ), ⟨-1, 1⟩, ⟨-1, 2⟩] ≤ 3 ∧ 0 ∉ as :=
  ⟨[2, 1, 2], ⟨1, by decide, by decide⟩, rfl, by decide, by decide⟩

end MultiMLton.SelectDoitFn
