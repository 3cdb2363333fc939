import Mathlib.Tactic
import MultiMLton.Lib.Interleave

/-!
# Dedicated I/O processors

`createProcessor`, `executionHelper` and the loop of `main` in `core-cml/non-blocking.sml`. The
counter `numDedicated` is a 32-bit integer, which `createProcessor` advances before it looks whether
there is a processor left.

* `step`: the code of a thread, which has one access to the memory in each step;
* `Exact`: what holds as long as no call of `createProcessor` fails;
* `dedicated_exact`: it holds in every state, and a request waits for no processor that cannot take
  it, if `createProcessor` is called only while a processor is left, and gets the last one only
  while no request is waiting.
-/

namespace MultiMLton.NonBlocking

open Interleave List Function Int

/-- The numbers of processors, which do not change. -/
structure Processors where
  numIOProcessors : ℕ
  numComputeProcessors : ℕ
  isInt32 : numIOProcessors < 2 ^ 31

inductive Chan
  | inputChan
  | dedicated (i : ℤ)
  deriving DecidableEq

structure Mem where
  numDedicated : ℤ
  /-- What the calls of `createProcessor` have returned, the latest first: an index of
  `dedicatedChannels`, or nothing. -/
  results : List (Option ℤ)
  /-- The number of requests that wait in a channel. -/
  waiting : Chan → ℕ

/-- Where a thread is. -/
inductive Local
  /-- Between two calls. -/
  | running
  /-- In `executionHelper`, after the tests. -/
  | sending (ch : Chan)
  /-- `executionHelper` has raised `Fail`. -/
  | refused
  /-- At the top of the loop of `main`, on processor `pn`. -/
  | main (pn : ℤ)
  | receiving (pn : ℤ) (iChan : Chan)
  | serving (pn : ℤ)
  deriving DecidableEq

inductive Call
  | createProcessor
  | execute (ch : Chan)
  deriving DecidableEq

variable (P : Processors)

def createProcessor (m : Mem) : Mem :=
  if P.numIOProcessors = 0 then { m with results := none :: m.results }
  else
    let myChannelIdx := m.numDedicated
    let m := { m with numDedicated := (m.numDedicated + 1).bmod (2 ^ 32) }
    if myChannelIdx < P.numIOProcessors then { m with results := some myChannelIdx :: m.results }
    else { m with results := none :: m.results }

/-- Whether `executionHelper` raises `Fail`. -/
def fails (m : Mem) (ch : Chan) : Bool :=
  P.numIOProcessors == 0 || ch == .inputChan && m.numDedicated == P.numIOProcessors

/-- The channel that `main` receives from. -/
def iChan (m : Mem) (pn : ℤ) : Chan :=
  if pn < P.numComputeProcessors + m.numDedicated then .dedicated (pn - P.numComputeProcessors)
  else .inputChan

def step (k : Call) (m : Mem) : Local → Option (Mem × Local)
  | .running =>
    match k with
    | .createProcessor => some (createProcessor P m, .running)
    | .execute ch => some (m, if fails P m ch then .refused else .sending ch)
  | .sending ch =>
    some ({ m with waiting := Function.update m.waiting ch (m.waiting ch + 1) }, .running)
  | .refused => some (m, .running)
  | .main pn => some (m, .receiving pn (iChan P m pn))
  | .receiving pn ch =>
    if m.waiting ch = 0 then none
    else some ({ m with waiting := Function.update m.waiting ch (m.waiting ch - 1) }, .serving pn)
  | .serving pn => some (m, .main pn)

def process (τ : Type) : Process τ Call Mem Local := ⟨fun _ k m l => step P k m l⟩

/-- At the beginning the threads run, or are at the loop of `main`. -/
def Init {τ : Type} (c : Config τ Mem Local) : Prop :=
  c.shared = ⟨0, [], fun _ => 0⟩ ∧ ∀ t, c.loc t = .running ∨ ∃ pn, c.loc t = .main pn

/-- The processors that `createProcessor` has handed out. -/
def Mem.created (m : Mem) : List ℤ := m.results.filterMap id

def AllDedicated (m : Mem) : Prop := ∀ i : ℤ, 0 ≤ i → i < P.numIOProcessors → i ∈ m.created

structure Exact (m : Mem) : Prop where
  le : m.numDedicated ≤ P.numIOProcessors
  count : m.numDedicated = m.created.length
  /-- No processor is dedicated twice. -/
  nodup : m.created.Nodup
  range : ∀ i ∈ m.created, 0 ≤ i ∧ i < P.numIOProcessors
  create : (createProcessor P m).results = none :: m.results ↔ AllDedicated P m
  execute : fails P m .inputChan = true ↔ AllDedicated P m
  /-- A request that is not refused finds an I/O processor that takes it. -/
  taken : fails P m .inputChan = false → ∃ pn : ℤ, P.numComputeProcessors ≤ pn ∧
    pn < P.numComputeProcessors + P.numIOProcessors ∧ iChan P m pn = .inputChan

/-! ### One call -/

/-- The processors have been handed out in their order. -/
structure Counted (m : Mem) : Prop where
  nonneg : 0 ≤ m.numDedicated
  le : m.numDedicated ≤ P.numIOProcessors
  created : m.created.Perm ((List.range m.numDedicated.toNat).map Int.ofNat)

variable {P} {m : Mem}

namespace Counted

theorem mem_created (h : Counted P m) {i : ℤ} : i ∈ m.created ↔ 0 ≤ i ∧ i < m.numDedicated := by
  rw [h.created.mem_iff, mem_map]
  constructor
  · rintro ⟨n, hn, rfl⟩
    have := h.nonneg
    rw [mem_range] at hn
    constructor
    · exact natCast_nonneg n
    · simp only [ofNat_eq_natCast]
      omega
  · rintro ⟨h0, hlt⟩
    refine ⟨i.toNat, mem_range.2 ?_, toNat_of_nonneg h0⟩
    omega

theorem allDedicated_iff (h : Counted P m) :
    AllDedicated P m ↔ m.numDedicated = P.numIOProcessors := by
  have hnonneg := h.nonneg
  have hle := h.le
  constructor
  · intro hall
    by_contra hne
    have hmem := h.mem_created.1 (hall m.numDedicated hnonneg (by omega))
    omega
  · intro heq i h0 hlt
    exact h.mem_created.2 ⟨h0, by omega⟩

theorem exact (h : Counted P m) : Exact P m where
  le := h.le
  count := by
    rw [h.created.length_eq, length_map, length_range]
    exact (toNat_of_nonneg h.nonneg).symm
  nodup := by
    rw [h.created.nodup_iff]
    exact nodup_range.map ofNat_injective
  range i hi := by
    have hi := h.mem_created.1 hi
    have hle := h.le
    omega
  create := by
    have hle := h.le
    rw [h.allDedicated_iff]
    unfold createProcessor
    dsimp only
    split_ifs with h0 hlt
    · have := h.nonneg
      constructor
      · intro _
        omega
      · intro _
        rfl
    · constructor
      · intro heq
        cases head_eq_of_cons_eq heq
      · intro heq
        omega
    · constructor
      · intro _
        omega
      · intro _
        rfl
  execute := by
    have hnonneg := h.nonneg
    have hle := h.le
    rw [h.allDedicated_iff]
    simp only [fails, beq_self_eq_true, Bool.true_and, Bool.or_eq_true, beq_iff_eq]
    omega
  taken hf := by
    have hnonneg := h.nonneg
    have hle := h.le
    simp only [fails, beq_self_eq_true, Bool.true_and, Bool.or_eq_false_iff, beq_eq_false_iff_ne]
      at hf
    refine ⟨P.numComputeProcessors + m.numDedicated, by omega, by omega, ?_⟩
    unfold iChan
    rw [if_neg (lt_irrefl _)]

theorem of_created (h : Counted P m) {m' : Mem} (hnum : m'.numDedicated = m.numDedicated)
    (hcreated : m'.created = m.created) : Counted P m' := by
  refine ⟨hnum ▸ h.nonneg, hnum ▸ h.le, ?_⟩
  rw [hnum, hcreated]
  exact h.created

theorem createProcessor_eq (h : Counted P m) (h0 : P.numIOProcessors ≠ 0)
    (hlt : m.numDedicated < P.numIOProcessors) :
    NonBlocking.createProcessor P m =
      { m with numDedicated := m.numDedicated + 1, results := some m.numDedicated :: m.results } := by
  have hnonneg := h.nonneg
  have hint := P.isInt32
  have hnext : (m.numDedicated + 1).bmod (2 ^ 32) = m.numDedicated + 1 := by
    refine bmod_eq_of_le ?_ ?_
    · norm_num
      omega
    · norm_num
      omega
  unfold NonBlocking.createProcessor
  dsimp only
  rw [if_neg h0, if_pos hlt, hnext]

/-- A call of `createProcessor` while a processor is left. -/
theorem createProcessor (h : Counted P m)
    (hleft : P.numIOProcessors ≠ 0 → m.numDedicated < P.numIOProcessors) :
    Counted P (createProcessor P m) := by
  have hnonneg := h.nonneg
  by_cases h0 : P.numIOProcessors = 0
  · refine h.of_created ?_ ?_
    · unfold NonBlocking.createProcessor
      rw [if_pos h0]
    · unfold NonBlocking.createProcessor
      rw [if_pos h0]
      rfl
  · have hlt := hleft h0
    have hnat : (m.numDedicated + 1).toNat = m.numDedicated.toNat + 1 := by omega
    have hlast : Int.ofNat m.numDedicated.toNat = m.numDedicated := toNat_of_nonneg hnonneg
    rw [h.createProcessor_eq h0 hlt]
    refine ⟨le_add_one hnonneg, hlt, ?_⟩
    dsimp only [Mem.created]
    rw [hnat, range_succ, map_append, map_singleton, hlast]
    exact (h.created.cons _).trans (perm_append_singleton _ _).symm

end Counted

/-! ### A run -/

variable {τ : Type}

/-- A thread calls `createProcessor`. -/
def Creates (c : Config τ Mem Local) (a : τ × Call) : Prop :=
  c.loc a.1 = .running ∧ a.2 = .createProcessor

variable (P) in
/-- `createProcessor` is called only while there is a processor left. -/
def WhileLeft (c : Config τ Mem Local) (a : τ × Call) : Prop :=
  Creates c a → P.numIOProcessors ≠ 0 → c.shared.numDedicated < P.numIOProcessors

/-- A request for the shared input channel waits there, or is on its way. -/
def Pending (c : Config τ Mem Local) : Prop :=
  0 < c.shared.waiting .inputChan ∨ ∃ t, c.loc t = .sending .inputChan

variable (P) in
/-- The last processor is dedicated only while no request is waiting for one. -/
def WhileQuiet (c : Config τ Mem Local) (a : τ × Call) : Prop :=
  Creates c a → c.shared.numDedicated + 1 = P.numIOProcessors → ¬ Pending c

/-- Only `createProcessor` changes the counter, and only `executionHelper` and `main` the channels. -/
theorem step_cases {k : Call} {l l' : Local} {s : Mem} (h : step P k m l = some (s, l')) :
    (l = .running ∧ k = .createProcessor ∧ s = createProcessor P m ∧ l' = .running) ∨
      (s.numDedicated = m.numDedicated ∧ s.created = m.created ∧
        (s.waiting .inputChan ≤ m.waiting .inputChan ∨ l = .sending .inputChan) ∧
        (l' = .sending .inputChan → fails P m .inputChan = false)) := by
  unfold step at h
  split at h
  case h_1 =>
    cases k with
    | createProcessor =>
      cases h
      exact .inl ⟨rfl, rfl, rfl, rfl⟩
    | execute ch =>
      cases h
      refine .inr ⟨rfl, rfl, .inl le_rfl, fun hl => ?_⟩
      split_ifs at hl with hf
      cases hl
      simpa using hf
  case h_2 ch =>
    cases h
    refine .inr ⟨rfl, rfl, ?_, fun hl => by cases hl⟩
    by_cases hch : ch = .inputChan
    · exact .inr (by rw [hch])
    · exact .inl (update_of_ne (Ne.symm hch) _ _).le
  case h_5 pn ch =>
    split_ifs at h
    cases h
    refine .inr ⟨rfl, rfl, .inl ?_, fun hl => by cases hl⟩
    by_cases hch : ch = .inputChan
    · subst hch
      change Function.update m.waiting .inputChan (m.waiting .inputChan - 1) .inputChan ≤ _
      rw [update_self]
      exact Nat.sub_le _ _
    · exact (update_of_ne (Ne.symm hch) _ _).le
  all_goals
    cases h
    exact .inr ⟨rfl, rfl, .inl le_rfl, fun hl => by cases hl⟩

theorem step_counted {c : Config τ Mem Local} {t : τ} {k : Call} {s : Mem} {l : Local}
    (h : Counted P c.shared) (hleft : WhileLeft P c (t, k))
    (hstep : step P k c.shared (c.loc t) = some (s, l)) : Counted P s := by
  rcases step_cases hstep with ⟨hrun, rfl, rfl, -⟩ | ⟨hnum, hcreated, -⟩
  · exact h.createProcessor (hleft ⟨hrun, rfl⟩)
  · exact h.of_created hnum hcreated

section Run

variable [DecidableEq τ]

theorem counted_of_reachable {c : Config τ Mem Local}
    (h : (process P τ).ReachableWhile (WhileLeft P) Init c) : Counted P c.shared := by
  refine Process.ReachableWhile.invariant (I := fun c => Counted P c.shared) ?_ ?_ h
  · rintro c ⟨hc, -⟩
    rw [hc]
    exact ⟨le_rfl, natCast_nonneg _, .refl _⟩
  · intro c t k s l _ hleft hcounted hstep
    exact step_counted hcounted hleft hstep

/-- A request that is pending after a step was pending before, or has just not been refused. -/
theorem pending_step {c : Config τ Mem Local} {t : τ} {k : Call} {s : Mem} {l : Local}
    (hstep : step P k c.shared (c.loc t) = some (s, l)) (hp : Pending (c.put t s l)) :
    Pending c ∨ (fails P c.shared .inputChan = false ∧ s.numDedicated = c.shared.numDedicated) := by
  rcases step_cases hstep with ⟨-, -, rfl, rfl⟩ | ⟨hnum, -, hwait, hl⟩
  · have hwait : (createProcessor P c.shared).waiting = c.shared.waiting := by
      unfold createProcessor
      dsimp only
      split_ifs
      · rfl
      · rfl
      · rfl
    rcases hp with hp | ⟨u, hu⟩
    · rw [Config.put_shared, hwait] at hp
      exact .inl (.inl hp)
    · rw [Config.put_loc] at hu
      split_ifs at hu
      exact .inl (.inr ⟨u, hu⟩)
  · rcases hp with hp | ⟨u, hu⟩
    · rcases hwait with hwait | hsend
      · exact .inl (.inl (Nat.lt_of_lt_of_le hp hwait))
      · exact .inl (.inr ⟨t, hsend⟩)
    · rw [Config.put_loc] at hu
      split_ifs at hu
      · exact .inr ⟨hl hu, hnum⟩
      · exact .inl (.inr ⟨u, hu⟩)

/-- **Dedicated processors** are counted exactly as long as no call of `createProcessor` fails; and
as long as none of them takes the last processor from a request, no request waits in vain. -/
theorem dedicated_exact (P : Processors) (c : Config τ Mem Local) :
    ((process P τ).ReachableWhile (WhileLeft P) Init c → Exact P c.shared) ∧
      ((process P τ).ReachableWhile (fun c a => WhileLeft P c a ∧ WhileQuiet P c a) Init c →
        Pending c → ¬ AllDedicated P c.shared) := by
  refine ⟨fun h => (counted_of_reachable h).exact, fun h => ?_⟩
  refine Process.ReachableWhile.invariant
    (I := fun c => Pending c → ¬ AllDedicated P c.shared) ?_ ?_ h
  · rintro c ⟨hc, hloc⟩ hp
    rcases hp with hp | ⟨t, ht⟩
    · rw [hc] at hp
      exact absurd hp (lt_irrefl 0)
    · rcases hloc t with h | ⟨pn, h⟩
      · cases h.symm.trans ht
      · cases h.symm.trans ht
  · intro c t k s l hr ⟨hleft, hquiet⟩ ih hstep hp
    have hcounted : Counted P c.shared := counted_of_reachable (hr.weaken fun _ _ _ h => h.1)
    have hcounted' : Counted P s := step_counted hcounted hleft hstep
    rw [Config.put_shared, hcounted'.allDedicated_iff]
    rcases pending_step hstep hp with hpend | ⟨hfails, hnum⟩
    · have hnot := ih hpend
      rw [hcounted.allDedicated_iff] at hnot
      rcases step_cases hstep with ⟨hrun, rfl, rfl, -⟩ | ⟨hnum, -⟩
      · -- it does not take the last processor
        have hle := hcounted.le
        have hnonneg := hcounted.nonneg
        have h0 : P.numIOProcessors ≠ 0 := by omega
        rw [hcounted.createProcessor_eq h0 (by omega)]
        exact fun heq => hquiet ⟨hrun, rfl⟩ heq hpend
      · rwa [hnum]
    · rw [hnum, ← hcounted.allDedicated_iff]
      intro hall
      rw [hcounted.exact.execute.2 hall] at hfails
      cases hfails

end Run

/-! ### One thread -/

/-- A state with one thread, where no request is waiting. -/
def alone (numDedicated : ℤ) (results : List (Option ℤ)) (l : Local) : Config Unit Mem Local :=
  ⟨⟨numDedicated, results, fun _ => 0⟩, fun _ => l⟩

theorem alone_start (P : Processors) (C : Config Unit Mem Local → Unit × Call → Prop) :
    (process P Unit).ReachableWhile C Init (alone 0 [] .running) :=
  .start ⟨rfl, fun _ => .inl rfl⟩

theorem alone_step {P : Processors} {C : Config Unit Mem Local → Unit × Call → Prop}
    {n n' : ℤ} {rs rs' : List (Option ℤ)} {l l' : Local} (k : Call)
    (hr : (process P Unit).ReachableWhile C Init (alone n rs l)) (hC : C (alone n rs l) ((), k))
    (hstep : step P k (alone n rs l).shared l = some (⟨n', rs', fun _ => 0⟩, l')) :
    (process P Unit).ReachableWhile C Init (alone n' rs' l') := by
  have hput : alone n' rs' l' = (alone n rs l).put () ⟨n', rs', fun _ => 0⟩ l' :=
    Config.ext rfl (funext fun _ => (update_self () l' fun _ => l).symm)
  exact .step hr hC (Process.fire_eq_some_iff.2 ⟨_, _, hstep, hput⟩)

def twoProcessors : Processors := ⟨2, 1, by norm_num⟩

/-- One of two processors is dedicated, and a request is on its way to the other. -/
theorem dedicated_exact_two :
    Exact twoProcessors (alone 1 [some 0] (.sending .inputChan)).shared ∧
      ¬ AllDedicated twoProcessors (alone 1 [some 0] (.sending .inputChan)).shared := by
  have h1 : (process twoProcessors Unit).ReachableWhile
      (fun c a => WhileLeft twoProcessors c a ∧ WhileQuiet twoProcessors c a) Init
      (alone 1 [some 0] .running) :=
    alone_step .createProcessor (alone_start _ _)
      ⟨fun _ _ => by decide, fun _ h => absurd h (by decide)⟩ rfl
  have hno : ¬ Creates (alone 1 [some 0] .running) ((), .execute .inputChan) :=
    fun h => Call.noConfusion h.2
  have h2 : (process twoProcessors Unit).ReachableWhile
      (fun c a => WhileLeft twoProcessors c a ∧ WhileQuiet twoProcessors c a) Init
      (alone 1 [some 0] (.sending .inputChan)) :=
    alone_step (.execute .inputChan) h1 ⟨fun h => (hno h).elim, fun h => (hno h).elim⟩ rfl
  exact ⟨(dedicated_exact twoProcessors _).1 (h2.weaken fun _ _ _ h => h.1),
    (dedicated_exact twoProcessors _).2 h2 (.inr ⟨(), rfl⟩)⟩

def oneProcessor : Processors := ⟨1, 1, by norm_num⟩

/-- The second call of `createProcessor` fails, and still advances the counter. Then requests are let
through, which nobody takes. -/
theorem dedicated_not_exact :
    ∃ c : Config Unit Mem Local, (process oneProcessor Unit).Reachable Init c ∧
      ¬ c.shared.numDedicated ≤ oneProcessor.numIOProcessors ∧
      c.shared.numDedicated ≠ c.shared.created.length ∧
      AllDedicated oneProcessor c.shared ∧ fails oneProcessor c.shared .inputChan = false := by
  have h1 : (process oneProcessor Unit).Reachable Init (alone 1 [some 0] .running) :=
    alone_step .createProcessor (alone_start _ _) trivial rfl
  have h2 : (process oneProcessor Unit).Reachable Init (alone 2 [none, some 0] .running) :=
    alone_step .createProcessor h1 trivial rfl
  refine ⟨_, h2, by decide, by decide, fun i h0 hlt => ?_, by decide⟩
  have hi : i = 0 := by
    change i < 1 at hlt
    omega
  rw [hi]
  decide

end MultiMLton.NonBlocking
