import MultiMLton.Basic.Dominators

/-!
# The iteration over numbers

What `iterate` of `dominators` computes, on the numbers of the nodes.

* `Chains`: what always holds of the array `idoms`: a father has a larger number, and the chain from
  a number has all its dominators;
* `intersect_eq`, `join_eq`: the numbers on both chains, and on those of all known predecessors;
* `Separates`: the chains have no numbers but dominators, as far as paths with few retreating edges
  tell. A pass over all numbers allows for one more (`pass_separates`);
* `iterate_exact`: the iteration ends, and what is on a chain then are the dominators.
-/

namespace MultiMLton.Basic.Dominators

open Lib List Option Function Nat

variable {E : ℕ → ℕ → Prop} {r : ℕ} {preds : ℕ → List ℕ} {idom : ℕ → Option ℕ}
  {a d f i j k n new t v : ℕ} {fuel : ℕ}

/-- The edges between the numbers up to that of the root, and the predecessors of a number, the largest
one first. -/
structure Flow (E : ℕ → ℕ → Prop) (r : ℕ) (preds : ℕ → List ℕ) : Prop where
  mem : ∀ t j, j ∈ preds t ↔ E j t
  le : ∀ j t, E j t → j ≤ r ∧ t ≤ r
  sorted : ∀ t, (preds t).Pairwise (· ≥ ·)
  exists_lt : ∀ t < r, ∃ j, E j t ∧ t < j

/-- The largest predecessor. -/
def first (preds : ℕ → List ℕ) (r i : ℕ) : Option ℕ := if i < r then (preds i).head? else none

theorem Flow.preds_eq (h : Flow E r preds) (hi : i < r) : ∃ p ps, preds i = p :: ps ∧ i < p ∧
    p ≤ r ∧ first preds r i = some p := by
  obtain ⟨j, hj, hlt⟩ := h.exists_lt i hi
  have hmem := (h.mem i j).2 hj
  have hsorted := h.sorted i
  have hle : ∀ p ∈ preds i, p ≤ r := fun p hp => (h.le p i ((h.mem i p).1 hp)).1
  cases heq : preds i with
  | nil =>
    rw [heq] at hmem
    exact absurd hmem not_mem_nil
  | cons p ps =>
    rw [heq] at hmem hsorted hle
    refine ⟨p, ps, rfl, ?_, hle p mem_cons_self, by rw [first, if_pos hi, heq]; rfl⟩
    rcases mem_cons.1 hmem with rfl | hmem
    · exact hlt
    · exact hlt.trans_le ((pairwise_cons.1 hsorted).1 j hmem)

theorem Flow.of_first (h : Flow E r preds) (hd : first preds r i = some d) :
    i < d ∧ d ≤ r ∧ E d i := by
  have hi : i < r := by
    by_contra hi
    rw [first, if_neg hi] at hd
    cases hd
  obtain ⟨p, ps, heq, hlt, hle, hfirst⟩ := h.preds_eq hi
  rw [hfirst] at hd
  cases hd
  exact ⟨hlt, hle, (h.mem i d).1 (heq ▸ mem_cons_self)⟩

theorem Flow.anc_le (h : Flow E r preds) (ha : Anc (first preds r) a k) (hk : k ≤ r) :
    k ≤ a ∧ a ≤ r := by
  induction ha with
  | refl => exact ⟨le_rfl, hk⟩
  | up hc _ ih =>
    obtain ⟨hlt, hle, -⟩ := h.of_first hc
    obtain ⟨h1, h2⟩ := ih hle
    exact ⟨hlt.le.trans h1, h2⟩

/-- A dominator with a number above `i` dominates `i` if it dominates what is reached from `i` by first
predecessors, since that path has smaller numbers. -/
theorem Flow.dominates_of_anc (h : Flow E r preds) (hi : Anc (first preds r) i k)
    (hd : Dominates E r d k) (hlt : i < d) : Dominates E r d i := by
  induction hi with
  | refl => exact hd
  | @up k c hc hic ih =>
    obtain ⟨hkc, hle, hedge⟩ := h.of_first hc
    have hci := (h.anc_le hic hle).1
    exact ih (hd.of_edge (by omega) hedge)

/-! ### The array -/

/-- The chains that `idoms` has at any time. -/
structure Chains (E : ℕ → ℕ → Prop) (r : ℕ) (preds : ℕ → List ℕ) (idom : ℕ → Option ℕ) :
    Prop where
  root : idom r = some r
  lt : ∀ i < r, ∀ d, idom i = some d → i < d
  known : ∀ i < r, ∀ d, idom i = some d → idom d ≠ none
  chain : ∀ i < r, ∀ d, idom i = some d → Anc (first preds r) d i
  dominators : ∀ i ≤ r, idom i ≠ none → ∀ d, Dominates E r d i → Anc idom d i

theorem Chains.anc (h : Chains E r preds idom) (hflow : Flow E r preds) (ha : Anc idom a k)
    (hk : k ≤ r) : k ≤ a ∧ a ≤ r ∧ Anc (first preds r) a k ∧
      (idom k ≠ none → idom a ≠ none) := by
  induction ha with
  | refl => exact ⟨le_rfl, hk, .refl _, id⟩
  | @up k c hc _ ih =>
    rcases hk.lt_or_eq with hk | rfl
    · have hlt := h.lt k hk c hc
      have hchain := h.chain k hk c hc
      obtain ⟨h1, h2, h3, h4⟩ := ih (hflow.anc_le hchain hk.le).2
      exact ⟨by omega, h2, h3.trans hchain, fun _ => h4 (h.known k hk c hc)⟩
    · rw [h.root] at hc
      cases hc
      exact ih le_rfl

theorem Chains.antisymm (h : Chains E r preds idom) (hflow : Flow E r preds) (ha : Anc idom a k)
    (hk : Anc idom k a) (hr : k ≤ r) : a = k := by
  obtain ⟨h1, h2, -⟩ := h.anc hflow ha hr
  have h3 := (h.anc hflow hk h2).1
  omega

/-- The array before the first pass. -/
theorem Chains.init (E : ℕ → ℕ → Prop) (r : ℕ) (preds : ℕ → List ℕ) :
    Chains E r preds (Function.update (fun _ => none) r (some r)) := by
  have hne {i : ℕ} (hi : i ≠ r) :
      Function.update (fun _ => none) r (some r) i = (none : Option ℕ) :=
    update_of_ne hi _ _
  refine ⟨update_self .., fun i hi d hd => ?_, fun i hi d hd => ?_, fun i hi d hd => ?_,
    fun i hi hknown d hd => ?_⟩
  · rw [hne hi.ne] at hd
    cases hd
  · rw [hne hi.ne] at hd
    cases hd
  · rw [hne hi.ne] at hd
    cases hd
  · have hir : i = r := by
      by_contra hir
      exact hknown (hne hir)
    subst hir
    have hmem := hd [i] .root
    rw [mem_singleton] at hmem
    subst hmem
    exact .refl d

/-! ### Intersection -/

section

variable (h : Chains E r preds idom) (hflow : Flow E r preds)

include h hflow

/-- `up`: the first number on the chain from `f` that is not below `t`. -/
theorem up_eq (hf : f ≤ r) (ht : t ≤ r)
    (hknown : idom f ≠ none) (hfuel : t - f < fuel) : ∃ x, up idom fuel f t = some x ∧
      Anc idom x f ∧ t ≤ x ∧ ∀ a, t ≤ a → Anc idom a f → Anc idom a x := by
  induction fuel generalizing f with
  | zero => omega
  | succ fuel ih =>
    rw [up]
    split_ifs with hlt
    · obtain ⟨c, hc⟩ := ne_none_iff_exists'.1 hknown
      have hfr : f < r := by omega
      have hfc := h.lt f hfr c hc
      have hup : Anc idom c f := .up hc (.refl c)
      obtain ⟨x, hx, hxc, htx, hall⟩ := ih (h.anc hflow hup hf).2.1 (h.known f hfr c hc) (by omega)
      refine ⟨x, by rw [hc]; exact hx, hxc.trans hup, htx, fun a hta ha => hall a hta ?_⟩
      obtain ⟨c', hc', hac'⟩ := ha.of_ne (by omega)
      rw [hc] at hc'
      cases hc'
      exact hac'
    · exact ⟨f, rfl, .refl f, by omega, fun a _ ha => ha⟩

/-- `intersect`: what is above both numbers. -/
theorem intersect_eq {n1 n2 : ℕ} (h1 : n1 ≤ r)
    (h2 : n2 ≤ r) (hk1 : idom n1 ≠ none) (hk2 : idom n2 ≠ none) (hfuel : r < fuel) {turns : ℕ}
    (hturns : 2 * r < n1 + n2 + turns) : ∃ x, intersect idom fuel turns n1 n2 = some x ∧
      ∀ a, Anc idom a x ↔ Anc idom a n1 ∧ Anc idom a n2 := by
  induction turns generalizing n1 n2 with
  | zero => omega
  | succ turns ih =>
    rw [intersect]
    split_ifs with heq
    · subst heq
      exact ⟨n1, rfl, fun a => (and_self_iff).symm⟩
    · obtain ⟨x1, hx1, hanc1, hle1, hall1⟩ := up_eq h hflow h1 h2 hk1 (show _ < fuel by omega)
      obtain ⟨hge1, hr1, -, hknown1⟩ := h.anc hflow hanc1 h1
      obtain ⟨x2, hx2, hanc2, hle2, hall2⟩ := up_eq h hflow h2 hr1 hk2 (show _ < fuel by omega)
      obtain ⟨hge2, hr2, -, hknown2⟩ := h.anc hflow hanc2 h2
      obtain ⟨x, hx, hall⟩ := ih hr1 hr2 (hknown1 hk1) (hknown2 hk2) (by omega)
      refine ⟨x, by simp [hx1, hx2, hx], fun a => (hall a).trans ⟨?_, ?_⟩⟩
      · exact fun ha => ⟨ha.1.trans hanc1, ha.2.trans hanc2⟩
      · intro ha
        have ha1 := hall1 a (h.anc hflow ha.2 h2).1 ha.1
        exact ⟨ha1, hall2 a (h.anc hflow ha1 hr1).1 ha.2⟩

/-- What is above all known predecessors. -/
def IsJoin (preds : ℕ → List ℕ) (idom : ℕ → Option ℕ) (i new : ℕ) : Prop :=
  ∀ a, Anc idom a new ↔ ∀ j ∈ preds i, idom j ≠ none → Anc idom a j

theorem foldlM_intersect
    (hfuel : 2 * r < fuel) {ps : List ℕ} (hps : ∀ j ∈ ps, j ≤ r) {p : ℕ} (hp : p ≤ r)
    (hknown : idom p ≠ none) : ∃ new,
    ps.foldlM (fun new j => if idom j ≠ none then intersect idom fuel fuel new j else some new) p =
      some new ∧
      ∀ a, Anc idom a new ↔ Anc idom a p ∧ ∀ j ∈ ps, idom j ≠ none → Anc idom a j := by
  induction ps generalizing p with
  | nil => exact ⟨p, rfl, by simp⟩
  | cons j ps ih =>
    rw [forall_mem_cons] at hps
    rw [foldlM_cons]
    simp only [forall_mem_cons]
    by_cases hj : idom j = none
    · obtain ⟨new, heq, hall⟩ := ih hps.2 hp hknown
      refine ⟨new, ?_, fun a => ?_⟩
      · rw [if_neg (not_not.2 hj)]
        exact heq
      · rw [hall]
        simp [hj]
    · obtain ⟨x, hx, hxall⟩ := intersect_eq h hflow hp hps.1 hknown hj
        (show _ < fuel by omega) (show _ < _ + fuel by omega)
      have hxp := ((hxall x).1 (.refl x)).1
      obtain ⟨-, hxr, -, hxknown⟩ := h.anc hflow hxp hp
      obtain ⟨new, heq, hall⟩ := ih hps.2 hxr (hxknown hknown)
      refine ⟨new, ?_, fun a => ?_⟩
      · rw [if_pos hj, hx]
        exact heq
      · rw [hall, hxall]
        simp [hj, and_assoc]

theorem join_eq (hi : i < r)
    (hknown : ∀ j ≤ r, i < j → idom j ≠ none) (hfuel : 2 * r < fuel) : ∃ new,
    join idom fuel (preds i) = some new ∧ IsJoin preds idom i new := by
  obtain ⟨p, ps, heq, hlt, hle, -⟩ := hflow.preds_eq hi
  have hps : ∀ j ∈ ps, j ≤ r := fun j hj =>
    (hflow.le j i ((hflow.mem i j).1 (heq ▸ mem_cons_of_mem p hj))).1
  obtain ⟨new, hnew, hall⟩ := foldlM_intersect h hflow hfuel hps hle (hknown p hle hlt)
  refine ⟨new, by rw [heq]; exact hnew, fun a => ?_⟩
  rw [hall, heq]
  simp [hknown p hle hlt]

end

theorem IsJoin.spec (hnew : IsJoin preds idom i new) (h : Chains E r preds idom)
    (hflow : Flow E r preds) (hi : i < r) (hknown : ∀ j ≤ r, i < j → idom j ≠ none) :
    i < new ∧ new ≤ r ∧ idom new ≠ none ∧ Anc (first preds r) new i ∧ ¬Anc idom i new := by
  obtain ⟨p, ps, heq, hlt, hle, hfirst⟩ := hflow.preds_eq hi
  have hanc := (hnew new).1 (.refl new) p (heq ▸ mem_cons_self) (hknown p hle hlt)
  obtain ⟨hge, hr, hchain, hnone⟩ := h.anc hflow hanc hle
  refine ⟨by omega, hr, hnone (hknown p hle hlt), hchain.trans (.up hfirst (.refl p)), ?_⟩
  intro hback
  have := (h.anc hflow hback hr).1
  omega

/-- The chains after the assignment to one number. -/
theorem Chains.update (h : Chains E r preds idom) (hflow : Flow E r preds) (hi : i < r)
    (hknown : ∀ j ≤ r, i < j → idom j ≠ none) (hnew : IsJoin preds idom i new) :
    Chains E r preds (Function.update idom i (some new)) := by
  obtain ⟨hlt, hle, hnone, hchain, hback⟩ := hnew.spec h hflow hi hknown
  have hstill {j : ℕ} (hj : idom j ≠ none) : Function.update idom i (some new) j ≠ none := by
    by_cases hji : j = i
    · rw [hji, update_self]
      exact some_ne_none new
    · rwa [update_of_ne hji]
  refine ⟨?_, fun j hj d hd => ?_, fun j hj d hd => ?_, fun j hj d hd => ?_, fun k hk hkn d hd => ?_⟩
  · rw [update_of_ne hi.ne', h.root]
  · by_cases hji : j = i
    · rw [hji, update_self] at hd
      cases hd
      rwa [hji]
    · rw [update_of_ne hji] at hd
      exact h.lt j hj d hd
  · by_cases hji : j = i
    · rw [hji, update_self] at hd
      cases hd
      exact hstill hnone
    · rw [update_of_ne hji] at hd
      exact hstill (h.known j hj d hd)
  · by_cases hji : j = i
    · rw [hji, update_self] at hd
      cases hd
      rwa [hji]
    · rw [update_of_ne hji] at hd
      exact h.chain j hj d hd
  · have hanti : ∀ x, Anc idom x i → Anc idom i x → x = i := fun x hx hix =>
      h.antisymm hflow hx hix hi.le
    -- a strict dominator of `i` is above all its known predecessors
    have habove {d : ℕ} (hdi : d ≠ i) (hd : Dominates E r d i) : Anc idom d new := by
      refine (hnew d).2 fun j hj hjn => ?_
      have hedge := (hflow.mem i j).1 hj
      exact h.dominators j (hflow.le j i hedge).1 hjn d (hd.of_edge hdi hedge)
    by_cases hki : k = i
    · subst hki
      by_cases hdk : d = k
      · exact hdk ▸ .refl d
      · exact Anc.update_of_new (.refl k) (habove hdk hd) hback hanti
    · rw [update_of_ne hki] at hkn
      have hdk := h.dominators k hk hkn d hd
      by_cases hik : Anc idom i k
      · rcases hik.total hdk with hid | hdi
        · exact hdk.update_of_anc hid hanti
        · by_cases hne : d = i
          · subst hne
            exact hdk.update_of_anc (.refl d) hanti
          · obtain ⟨hle', -⟩ := h.anc hflow hdi hi.le
            obtain ⟨-, -, hchain', -⟩ := h.anc hflow hik hk
            have hdom := hflow.dominates_of_anc hchain' hd (by omega)
            exact Anc.update_of_new hik (habove hne hdom) hback hanti
      · exact hdk.update_of_not hik

/-! ### Separation -/

/-- The chain from `k` has no number that a path with less than `bound k` retreating edges to `k`
avoids. -/
structure Separates (E : ℕ → ℕ → Prop) (r : ℕ) (idom : ℕ → Option ℕ) (bound : ℕ → ℕ) : Prop where
  known : ∀ k ≤ r, 0 < bound k → idom k ≠ none
  avoid : ∀ k ≤ r, ∀ v m, m < bound k → AvoidTo E r v m k → ¬Anc idom v k

/-- The root is its own father, so any bound will do for it. -/
theorem Separates.root {bound bound' : ℕ → ℕ} (hs : Separates E r idom bound)
    (h : Chains E r preds idom) (hflow : Flow E r preds) (heq : ∀ k < r, bound' k = bound k) :
    Separates E r idom bound' := by
  refine ⟨fun k hk hpos => ?_, fun k hk v m hm hav hanc => ?_⟩
  · rcases hk.lt_or_eq with hlt | rfl
    · exact hs.known k hk (heq k hlt ▸ hpos)
    · rw [h.root]
      exact some_ne_none k
  · rcases hk.lt_or_eq with hlt | rfl
    · exact hs.avoid k hk v m (heq k hlt ▸ hm) hav hanc
    · obtain ⟨hge, hle, -⟩ := h.anc hflow hanc le_rfl
      exact hav.ne (le_antisymm hle hge)

/-- The assignment to `i` makes its bound larger than those of its predecessors with smaller numbers. -/
theorem Separates.update {bound : ℕ → ℕ} (hs : Separates E r idom bound)
    (h : Chains E r preds idom) (hflow : Flow E r preds) (hi : i < r)
    (hknown : ∀ j ≤ r, i < j → idom j ≠ none) (hnew : IsJoin preds idom i new)
    (hbound : ∀ k, bound k ≤ n) (habove : ∀ j ≤ r, i < j → n ≤ bound j)
    (hbelow : ∀ j ≤ i, n ≤ bound j + 1) :
    Separates E r (Function.update idom i (some new)) (Function.update bound i n) := by
  obtain ⟨-, -, -, -, hback⟩ := hnew.spec h hflow hi hknown
  have hi' : ∀ v m, m < n → AvoidTo E r v m i → ¬Anc idom v new := by
    intro v m hm hav hanc
    have hpred {j m' : ℕ} (hj : E j i) (hav : AvoidTo E r v m' j) (hm' : m' < bound j) : False := by
      have hjr := (hflow.le j i hj).1
      have hjn := hs.known j hjr (by omega)
      exact hs.avoid j hjr v m' hm' hav ((hnew v).1 hanc j ((hflow.mem i j).2 hj) hjn)
    cases hav with
    | root => exact lt_irrefl _ hi
    | advance path hab hlt hv => exact hpred hab path (hm.trans_le (habove _ (hflow.le _ _ hab).1 hlt))
    | retreat path hab hle hv =>
      have := hbelow _ hle
      exact hpred hab path (by omega)
  refine ⟨fun k hk hpos => ?_, fun k hk v m hm hav hanc => ?_⟩
  · by_cases hki : k = i
    · rw [hki, update_self]
      exact some_ne_none new
    · rw [update_of_ne hki] at hpos ⊢
      exact hs.known k hk hpos
  · by_cases hki : k = i
    · subst hki
      rw [update_self] at hm
      rcases hanc.of_update hback with ⟨hvk, hkk⟩ | ⟨-, hvnew⟩
      · exact hav.ne (h.antisymm hflow hvk (hkk (.refl k)) hk)
      · exact hi' v m hm hav hvnew
    · rw [update_of_ne hki] at hm
      rcases hanc.of_update hback with ⟨hvk, -⟩ | ⟨hik, hvnew⟩
      · exact hs.avoid k hk v m hm hav hvk
      · rcases hav.split i with hav' | ⟨m', hm', hav'⟩
        · exact hs.avoid k hk i m hm hav' hik
        · have hn := hbound k
          exact hi' v m' (by omega) hav' hvnew

/-! ### Passes -/

/-- The chains are those of the dominators. -/
structure Exact (E : ℕ → ℕ → Prop) (r : ℕ) (preds : ℕ → List ℕ) (idom : ℕ → Option ℕ) : Prop where
  chains : Chains E r preds idom
  known : ∀ k ≤ r, idom k ≠ none
  anc : ∀ k ≤ r, ∀ v, Anc idom v k ↔ Dominates E r v k

/-- Chains without any number that a path avoids. -/
theorem Exact.of_separates (h : Chains E r preds idom)
    (hs : ∀ n, Separates E r idom fun _ => n) : Exact E r preds idom where
  chains := h
  known k hk := (hs 1).known k hk one_pos
  anc k hk v := by
    constructor
    · intro hanc
      refine dominates_iff_not_avoidTo.2 fun m hm => ?_
      exact (hs (m + 1)).avoid k hk v m (lt_succ_self m) hm hanc
    · exact h.dominators k hk ((hs 1).known k hk one_pos) v

/-- Nothing changes when the chains are right. -/
theorem Exact.isJoin (h : Exact E r preds idom) (hflow : Flow E r preds) (hi : i < r)
    (hnew : IsJoin preds idom i new) : idom i = some new := by
  obtain ⟨hlt, hle, -, -⟩ := hnew.spec h.chains hflow hi fun j hj _ => h.known j hj
  obtain ⟨d, hd⟩ := ne_none_iff_exists'.1 (h.known i hi.le)
  have hid := h.chains.lt i hi d hd
  have hdi : Anc idom d i := .up hd (.refl d)
  have hdr := (h.chains.anc hflow hdi hi.le).2.1
  have hdnew : Anc idom d new := by
    refine (hnew d).2 fun j hj _ => ?_
    have hedge := (hflow.mem i j).1 hj
    have hdom := ((h.anc i hi.le d).1 hdi).of_edge (by omega) hedge
    exact (h.anc j (hflow.le j i hedge).1 d).2 hdom
  have hnewd : Anc idom new d := by
    have hdom : Dominates E r new i := dominates_of_edges (by omega) fun j hedge => by
      have hj := (hflow.le j i hedge).1
      exact (h.anc j hj new).1 ((hnew new).1 (.refl new) j ((hflow.mem i j).2 hedge) (h.known j hj))
    obtain ⟨c, hc, hnc⟩ := ((h.anc i hi.le new).2 hdom).of_ne (by omega)
    rw [hd] at hc
    cases hc
    exact hnc
  rw [hd, h.chains.antisymm hflow hdnew hnewd hle]

/-- One number of a pass. -/
theorem visit_eq (h : Chains E r preds idom) (hflow : Flow E r preds) (hi : i < r)
    (hknown : ∀ j ≤ r, i < j → idom j ≠ none) (hfuel : 2 * r < fuel) (changed : Bool) :
    ∃ new changed', visit preds fuel i (idom, changed) =
        some (Function.update idom i (some new), changed') ∧
      IsJoin preds idom i new ∧ (idom i = some new → changed' = changed) ∧
      (changed' = false → idom i = some new ∧ changed = false) := by
  obtain ⟨new, heq, hnew⟩ := join_eq h hflow hi hknown hfuel
  by_cases hsame : idom i = some new
  · refine ⟨new, changed, ?_, hnew, fun _ => rfl, fun hc => ⟨hsame, hc⟩⟩
    rw [visit, heq, ← hsame, update_eq_self]
    simp [hsame]
  · refine ⟨new, true, ?_, hnew, fun hc => absurd hc hsame, nofun⟩
    rw [visit, heq]
    simp [hsame]

/-- The bounds when the numbers from `i` on have been visited. -/
def bounds (n i k : ℕ) : ℕ := if i ≤ k then n + 1 else n

theorem pass_separates (hflow : Flow E r preds) (hfuel : 2 * r < fuel) (hi : i ≤ r)
    (h : Chains E r preds idom) (hs : Separates E r idom (bounds n i)) (changed : Bool) :
    ∃ idom' changed', pass preds fuel i (idom, changed) = some (idom', changed') ∧
      Chains E r preds idom' ∧ Separates E r idom' (bounds n 0) ∧
      (Exact E r preds idom → changed' = changed) ∧
      (changed' = false → idom' = idom ∧ changed = false) := by
  induction i generalizing idom changed with
  | zero => exact ⟨idom, changed, rfl, h, hs, fun _ => rfl, fun hc => ⟨rfl, hc⟩⟩
  | succ i ih =>
    have hir : i < r := by omega
    have hbound (k : ℕ) : bounds n (i + 1) k ≤ n + 1 := by
      rw [bounds]
      split <;> omega
    have hhigh (k : ℕ) (hk : i < k) : bounds n (i + 1) k = n + 1 := if_pos hk
    have hlow (k : ℕ) (hk : k ≤ i) : bounds n (i + 1) k = n := if_neg (by omega)
    have hknown : ∀ j ≤ r, i < j → idom j ≠ none := fun j hj hij =>
      hs.known j hj (by rw [hhigh j hij]; omega)
    obtain ⟨new, changed₁, hvisit, hnew, hsame, hfalse⟩ :=
      visit_eq h hflow hir hknown hfuel changed
    have hs₁ := hs.update h hflow hir hknown hnew hbound (fun j _ hij => (hhigh j hij).ge)
      fun j hj => by rw [hlow j hj]
    have hbounds : Function.update (bounds n (i + 1)) i (n + 1) = bounds n i := by
      funext k
      by_cases hki : k = i
      · rw [hki, update_self, bounds, if_pos le_rfl]
      · rw [update_of_ne hki, bounds, bounds]
        split_ifs <;> omega
    rw [hbounds] at hs₁
    obtain ⟨idom', changed', hpass, h', hs', hexact, hfalse'⟩ :=
      ih (by omega) (h.update hflow hir hknown hnew) hs₁ changed₁
    refine ⟨idom', changed', by rw [pass, hvisit]; exact hpass, h', hs', fun hex => ?_, fun hc => ?_⟩
    · have hi := hex.isJoin hflow hir hnew
      rw [← hi, update_eq_self] at hexact
      rw [hexact hex, hsame hi]
    · obtain ⟨heq, hc₁⟩ := hfalse' hc
      obtain ⟨hi, hc⟩ := hfalse hc₁
      exact ⟨by rw [heq, ← hi, update_eq_self], hc⟩

/-- The iteration ends with the chains of the dominators. -/
theorem iterate_exact (hflow : Flow E r preds) : ∃ M, ∀ fuel, 2 * r < fuel → ∀ turns, M < turns →
    ∃ idoms, iterate preds r fuel turns (Function.update (fun _ => none) r (some r)) = some idoms ∧
      Exact E r preds idoms := by
  obtain ⟨M, hM⟩ := exists_avoidTo_bound E r r
  -- paths with more retreating edges tell nothing new
  have hexact {idom : ℕ → Option ℕ} {n : ℕ} (h : Chains E r preds idom)
      (hs : Separates E r idom fun _ => n) (hn : M < n) : Exact E r preds idom := by
    refine .of_separates h fun n' => ⟨fun k hk _ => hs.known k hk (by omega), ?_⟩
    intro k hk v m _ hav hanc
    obtain ⟨m', hm', hav'⟩ := hM v (h.anc hflow hanc hk).2.1 k hk ⟨m, hav⟩
    exact hs.avoid k hk v m' (by omega) hav' hanc
  refine ⟨M + 1, fun fuel hfuel => ?_⟩
  suffices hall : ∀ turns n idom, Chains E r preds idom → Separates E r idom (fun _ => n) →
      M + 1 < n + turns → 0 < turns →
      ∃ idoms, iterate preds r fuel turns idom = some idoms ∧ Exact E r preds idoms by
    intro turns hturns
    exact hall turns 0 _ (.init E r preds) ⟨nofun, nofun⟩ (by omega) (by omega)
  intro turns
  induction turns with
  | zero => exact fun _ _ _ _ _ hpos => absurd hpos (Nat.lt_irrefl 0)
  | succ turns ih =>
    intro n idom h hs hn _
    -- the unchanged array of one pass is that of all later ones
    have hstart (n : ℕ) (hs : Separates E r idom fun _ => n) : Separates E r idom (bounds n r) :=
      hs.root h hflow fun k hk => if_neg (by omega)
    have hzero (n : ℕ) : bounds n 0 = fun _ => n + 1 := funext fun k => if_pos (zero_le k)
    obtain ⟨idom', changed', hpass, h', hs', hsame, hfalse⟩ :=
      pass_separates hflow hfuel le_rfl h (hstart n hs) false
    rw [iterate, hpass]
    cases hc : changed' with
    | false =>
      obtain ⟨rfl, -⟩ := hfalse hc
      refine ⟨idom', rfl, .of_separates h fun m => ?_⟩
      induction m with
      | zero => exact ⟨nofun, nofun⟩
      | succ m ihm =>
        obtain ⟨idom₁, changed₁, hpass₁, -, hs₁, -⟩ :=
          pass_separates hflow hfuel le_rfl h (hstart m ihm) false
        rw [hpass] at hpass₁
        cases hpass₁
        rwa [hzero] at hs₁
    | true =>
      have hle : n ≤ M := by
        by_contra hlt
        rw [hsame (hexact h hs (by omega))] at hc
        cases hc
      rw [hzero] at hs'
      exact ih (n + 1) idom' h' hs' (by omega) (by omega)

end MultiMLton.Basic.Dominators
