import MultiMLton.Pacml.SyncVar.Invariant

/-!
# M-variables as one-place buffers

* `OnePlace`: what a sequential run of a one-place buffer is like, `Run.onePlace`;
* `Coherent`: a step of a run in which every commit leaves the cell as `doSwap` says: a `blockFn`
  that commits on a full cell does so only when its `doSwap` does not change the value, and a relay
  commits a waiter only while the cell still holds the value that it relays;
* `mVar_linearizable`: in every run of such steps the operations are linearizable.

`blockFn` commits on a full cell without running `doSwap`, and `relayMsg` hands the value that was
put to every waiter, also after one of them has taken it: `mVar_taken_twice`.
-/

namespace MultiMLton.SyncVar

open Linearizability Interleave List Option

variable {τ ι α : Type*}

/-! ### Sequential runs of a one-place buffer -/

/-- The value that a call has put into the buffer. -/
def inserted : Call ℕ (Op ι α) (Res α) → Option α
  | ⟨_, .gPut x, .unit⟩ => some x
  | ⟨_, .swap _ (.swap x), .msg _⟩ => some x
  | _ => none

/-- The value that a call has taken out of the buffer. -/
def removed : Call ℕ (Op ι α) (Res α) → Option α
  | ⟨_, .swap _ .take, .msg v⟩ => some v
  | ⟨_, .swap _ (.swap _), .msg v⟩ => some v
  | _ => none

/-- Every value that has been put into the buffer is taken out by one call or is still there, a
take leaves the buffer empty until the next put, and what follows a swap sees the new value. -/
structure OnePlace (value : Option α) (cs : List (Call ℕ (Op ι α) (Res α))) : Prop where
  conserved : ∃ s : Option α,
    (cs.filterMap inserted ++ value.toList).Perm (cs.filterMap removed ++ s.toList)
  emptied : ∀ later mid earlier i via v,
    cs = later ++ (mid ++ ⟨i, .swap via .take, .msg v⟩ :: earlier) →
      (∀ c ∈ mid, ∀ x, ¬ (c.op = .gPut x ∧ c.res = .unit)) →
        Run Buffer value (mid ++ ⟨i, .swap via .take, .msg v⟩ :: earlier) none
  swapped : ∀ later earlier i via d v j via' x w,
    cs = later ++ ⟨i, .swap via d, .msg v⟩ :: ⟨j, .swap via' (.swap x), .msg w⟩ :: earlier → v = x

theorem run_conserved {value s : Option α} {cs : List (Call ℕ (Op ι α) (Res α))}
    (h : Run Buffer value cs s) :
    (cs.filterMap inserted ++ value.toList).Perm (cs.filterMap removed ++ s.toList) := by
  induction h with
  | nil => exact List.Perm.refl _
  | @cons cs c s s' _ hstep ih =>
    obtain ⟨i, op, r⟩ := c
    cases hstep with
    | put x =>
      simp only [filterMap_cons, inserted, removed, toList_none, append_nil,
        toList_some, List.cons_append] at ih ⊢
      exact (ih.cons x).trans (perm_append_singleton x _).symm
    | full x v | empty d | disabled d => simpa [filterMap_cons, inserted, removed] using ih
    | swap via d v =>
      cases d with
      | get => simpa [filterMap_cons, inserted, removed, Swap.doSwap] using ih
      | take =>
        simp only [filterMap_cons, inserted, removed, Swap.doSwap, toList_none,
          append_nil, toList_some] at ih ⊢
        exact ih.trans (perm_append_singleton v _)
      | swap x =>
        simp only [filterMap_cons, inserted, removed, Swap.doSwap, toList_some,
          List.cons_append] at ih ⊢
        refine ((ih.trans (perm_append_singleton v _)).cons x).trans ?_
        exact (perm_append_singleton x _).symm

/-- Only a put fills the empty buffer. -/
theorem run_empty {value s : Option α} {mid ds : List (Call ℕ (Op ι α) (Res α))}
    (h : Run Buffer value (mid ++ ds) s)
    (hput : ∀ c ∈ mid, ∀ x, ¬ (c.op = .gPut x ∧ c.res = .unit))
    (hds : ∀ s', Run Buffer value ds s' → s' = none) : s = none := by
  induction mid generalizing s with
  | nil => exact hds s h
  | cons c mid ih =>
    cases h with
    | cons h hstep =>
      obtain rfl := ih h fun d hd => hput d (mem_cons_of_mem _ hd)
      obtain ⟨i, op, r⟩ := c
      cases hstep with
      | put x => exact absurd ⟨rfl, rfl⟩ (hput _ (mem_cons_self ..) x)
      | empty d => rfl
      | disabled d => rfl

theorem run_onePlace {value s : Option α} {cs : List (Call ℕ (Op ι α) (Res α))}
    (h : Run Buffer value cs s) : OnePlace value cs where
  conserved := ⟨s, run_conserved h⟩
  emptied := by
    rintro later mid earlier i via v rfl hput
    obtain ⟨s', hrun⟩ := Run.of_append h
    have htake : ∀ s'', Run Buffer value (⟨i, .swap via .take, .msg v⟩ :: earlier) s'' →
        s'' = none := by
      intro s'' hrun
      cases hrun with
      | cons _ hstep => cases hstep; rfl
    obtain rfl := run_empty hrun hput htake
    exact hrun
  swapped := by
    rintro later earlier i via d v j via' x w rfl
    obtain ⟨s', hrun⟩ := Run.of_append h
    cases hrun with
    | cons hrun hstep =>
      cases hrun with
      | cons _ hstep' =>
        cases hstep'
        cases hstep
        rfl

/-! ### The cell under the lock -/

/-- The lock is held. -/
def Pc.holds : Pc ι α → Bool
  | .test _ _ => true
  | .tryLp _ _ _ => true
  | .matchLp _ _ _ _ => true
  | .commit _ _ _ _ => true
  | .swap _ _ _ _ => true
  | .matchOwn _ _ _ _ => true
  | .enque _ _ _ => true
  | .unlock _ _ => true
  | _ => false

/-- What a thread knows of the cell. -/
def Pc.Sees (pc : Pc ι α) (m : Mem τ ι α) : Prop :=
  match pc with
  | .swap _ _ _ x => m.value = some x
  | .matchOwn _ _ _ x => m.value = some x
  | .enque _ _ _ => m.value = none
  | .commit _ msg _ _ => m.value = some msg
  | _ => True

/-- A commit of a thread at `pc` leaves the cell as `doSwap` says. -/
def Pc.Coherent (pc : Pc ι α) (m : Mem τ ι α) : Prop :=
  match pc with
  | .matchLp _ msg e _ => m.txid e.tx = 0 → m.value = some msg
  | .matchOwn _ d n x => m.txid (.choice n) = 0 → d.doSwap (some x) = some x
  | _ => True

instance Pc.decidableCoherent [DecidableEq α] (pc : Pc ι α) (m : Mem τ ι α) :
    Decidable (pc.Coherent m) :=
  match pc with
  | .matchLp _ msg e _ => inferInstanceAs (Decidable (m.txid e.tx = 0 → m.value = some msg))
  | .matchOwn _ d n x =>
    inferInstanceAs (Decidable (m.txid (.choice n) = 0 → d.doSwap (some x) = some x))
  | .idle | .lock .. | .test .. | .tryLp .. | .commit .. | .ready .. | .swap .. | .enque ..
  | .unlock .. | .parked .. | .ret .. | .away => .isTrue trivial

theorem Pc.Sees.congr {pc : Pc ι α} {m s : Mem τ ι α} (h : pc.Sees m) (hv : s.value = m.value) :
    pc.Sees s := by
  cases pc <;> simp_all [Pc.Sees]

theorem Pc.sees_of_not_holds {pc : Pc ι α} (m : Mem τ ι α) (h : pc.holds = false) :
    pc.Sees m := by
  cases pc <;> simp_all [Pc.Sees, Pc.holds]

theorem Entry.exists_op_eq (e : Entry ι α) : ∃ via, e.op = .swap via e.doSwap := by
  unfold Entry.op
  split
  · exact ⟨_, rfl⟩
  · exact ⟨_, rfl⟩

section Moves

variable [DecidableEq ι] {t : τ} {m s : Mem τ ι α} {pc l : Pc ι α}

theorem Move.lock_own (h : Move t m pc s l) (hpc : pc.holds = true → m.lock = some t)
    (hl : l.holds = true) : s.lock = some t := by
  cases h with
  | @unlock id after => cases after <;> simp [Then.pc, Pc.holds] at hl
  | _ => simp_all [Pc.holds, Mem.setTx]

/-- The lock is only taken when it is free, and only released by its holder. -/
theorem Move.lock_other (h : Move t m pc s l) (hpc : pc.holds = true → m.lock = some t) {u : τ}
    (hu : u ≠ t) (hm : m.lock = some u) : s.lock = some u := by
  cases h with
  | acquire h => rw [h] at hm; cases hm
  | unlock =>
    rw [hpc rfl] at hm
    exact absurd (Option.some.inj hm).symm hu
  | _ => exact hm

theorem Move.value_eq (h : Move t m pc s l) (hpc : pc.holds = false) : s.value = m.value := by
  cases h <;> simp_all [Pc.holds, Mem.setTx]

theorem Move.sees (h : Move t m pc s l) (hsees : pc.Sees m) (hco : pc.Coherent m) : l.Sees s := by
  cases h with
  | @unlock id after => cases after <;> trivial
  | wait h _ _ => exact h
  | found h _ => exact h
  | foundOwn h => exact h
  | win h => exact hco h
  | againOwn => exact hsees
  | _ => trivial

/-- When an operation takes effect, it does what the buffer does. -/
theorem Move.run {value : Option α} (h : Move t m pc s l) (hsees : pc.Sees m)
    (hco : pc.Coherent m) (hrun : Run Buffer value (points m.trace) m.value) :
    Run Buffer value (points s.trace) s.value := by
  cases h with
  | put h =>
    rw [h] at hrun
    exact .cons hrun (.put _)
  | full h =>
    refine .cons hrun ?_
    simp only [h]
    exact .full _ _
  | empty h =>
    refine .cons hrun ?_
    simp only [h]
    exact .empty _
  | disabled h =>
    refine .cons hrun ?_
    simp only [h]
    exact .disabled _
  | @commit id msg rdy e =>
    obtain ⟨via, hvia⟩ := e.exists_op_eq
    have hv : m.value = some msg := hsees
    refine .cons hrun ?_
    simp only [hv, hvia]
    exact .swap _ _ _
  | @swap id via d x =>
    have hv : m.value = some x := hsees
    refine .cons hrun ?_
    simp only [hv]
    exact .swap _ _ _
  | @winOwn id d n x h =>
    have hv : m.value = some x := hsees
    refine .cons hrun ?_
    have hb : Buffer (.swap (.blockFn n) d) (.msg x) (some x) (d.doSwap (some x)) := .swap _ _ _
    rw [hco h] at hb
    simpa only [Mem.setTx, hv] using hb
  | _ => exact hrun

end Moves

/-! ### Linearizability -/

section Runs

variable [DecidableEq τ] [DecidableEq ι] {c : Config τ (Mem τ ι α) (Pc ι α)}
  {C : Config τ (Mem τ ι α) (Pc ι α) → τ × Choice ι α → Prop} {value : Option α}

theorem lock_of_reachable (h : (cellProcess τ ι α).ReachableWhile C (Initial value) c) (t : τ)
    (ht : (c.loc t).holds = true) : c.shared.lock = some t := by
  refine h.local_assertion (A := fun t l m => l.holds = true → m.lock = some t) ?_ ?_ ?_ t ht
  · intro c hc t ht
    rw [hc.2 t] at ht
    cases ht
  · intro c t k s l _ _ hA hstep hl
    exact (move_of_step hstep).lock_own (hA t) hl
  · intro c t k s l u _ _ hu hA hstep hl
    exact (move_of_step hstep).lock_other (hA t) hu (hA u hl)

/-- Steps whose commits leave the cell as `doSwap` says. -/
def Coherent (c : Config τ (Mem τ ι α) (Pc ι α)) (a : τ × Choice ι α) : Prop :=
  (c.loc a.1).Coherent c.shared

instance decidableCoherent [DecidableEq α] (c : Config τ (Mem τ ι α) (Pc ι α))
    (a : τ × Choice ι α) : Decidable (Coherent c a) :=
  Pc.decidableCoherent _ _

theorem sees_of_reachable
    (h : (cellProcess τ ι α).ReachableWhile Coherent (Initial value) c) (t : τ) :
    (c.loc t).Sees c.shared := by
  refine h.local_assertion (A := fun _ l m => l.Sees m) ?_ ?_ ?_ t
  · intro c hc t
    rw [hc.2 t]
    trivial
  · intro c t k s l _ hco hA hstep
    exact (move_of_step hstep).sees (hA t) hco
  · intro c t k s l u hr _ hu hA hstep
    by_cases hhu : (c.loc u).holds = true
    · -- `u` has the lock, so `t` does not write the cell
      have hht : (c.loc t).holds = false := by
        rw [← Bool.not_eq_true]
        intro hht
        have := (lock_of_reachable hr t hht).symm.trans (lock_of_reachable hr u hhu)
        exact hu (Option.some.inj this).symm
      exact (hA u).congr ((move_of_step hstep).value_eq hht)
    · exact Pc.sees_of_not_holds s (by simpa using hhu)

/-- The operations that have taken effect are a sequential run that ends with the value of the
cell. -/
theorem run_of_reachable
    (h : (cellProcess τ ι α).ReachableWhile Coherent (Initial value) c) :
    Run Buffer value (points c.shared.trace) c.shared.value := by
  refine h.invariant (I := fun c => Run Buffer value (points c.shared.trace) c.shared.value) ?_ ?_
  · intro c hc
    rw [hc.1]
    exact .nil
  · intro c t k s l hr hco hrun hstep
    exact (move_of_step hstep).run (sees_of_reachable hr t) hco hrun

/-- **M-variables are linearizable one-place buffers** in every run in which every commit leaves
the cell as `doSwap` says. -/
theorem mVar_linearizable
    (h : (cellProcess τ ι α).ReachableWhile Coherent (Initial value) c) :
    ∃ cs, Linearizes Buffer value (history c.shared.trace) cs ∧ OnePlace value cs :=
  ⟨points c.shared.trace, (inv_of_reachable h).wf.linearizes (run_of_reachable h),
    run_onePlace (run_of_reachable h)⟩

end Runs

/-! ### Two takes of one value -/

section TakenTwice

/-- Threads `0` and `1` wait in `mTake`, thread `2` puts `5`. -/
def twoTakes : List (ℕ × Choice ℕ ℕ) :=
  let go (t : ℕ) : ℕ × Choice ℕ ℕ := (t, .clean fun _ => true)
  [(0, .start mTake), go 0, go 0, go 0, go 0, (1, .start mTake), go 1, go 1, go 1, go 1,
    (2, .start (mPut 5)), go 2, go 2, go 2, go 2, go 2, go 2, go 2, go 2, go 2, go 2, go 2, go 2,
    go 2, go 2, go 0, go 0, go 1, go 1]

def emptyCell (value : Option ℕ) : Config ℕ (Mem ℕ ℕ ℕ) (Pc ℕ ℕ) :=
  ⟨Mem.init value, fun _ => .idle⟩

theorem emptyCell_reachable (C : Config ℕ (Mem ℕ ℕ ℕ) (Pc ℕ ℕ) → ℕ × Choice ℕ ℕ → Prop)
    (value : Option ℕ) :
    (cellProcess ℕ ℕ ℕ).ReachableWhile C (Initial value) (emptyCell value) :=
  .start ⟨rfl, fun _ => rfl⟩

theorem twoTakes_history :
    ((cellProcess ℕ ℕ ℕ).run twoTakes (emptyCell none)).map (fun c => history c.shared.trace) =
      some [.ret 1 (.msg 5), .ret 0 (.msg 5), .ret 2 .unit, .inv 2 (mPut 5), .inv 1 mTake,
        .inv 0 mTake] := by
  decide +kernel

/-- The value that has been put once is taken twice. -/
theorem mVar_taken_twice :
    ∃ c, (cellProcess ℕ ℕ ℕ).Reachable (Initial none) c ∧
      history c.shared.trace = [.ret 1 (.msg 5), .ret 0 (.msg 5), .ret 2 .unit, .inv 2 (mPut 5),
        .inv 1 mTake, .inv 0 mTake] ∧
      ¬ ∃ cs, Linearizes Buffer none (history c.shared.trace) cs := by
  obtain ⟨c, hrun, hh⟩ := Option.map_eq_some_iff.mp twoTakes_history
  refine ⟨c, Process.reachable_of_run (emptyCell_reachable _ none) hrun, hh, ?_⟩
  rw [hh]
  rintro ⟨cs, hcs⟩
  obtain ⟨s, hs⟩ := hcs.legal
  -- both takes are calls of the sequential run
  have htake : ∀ i, i < 2 → ⟨i, mTake, .msg 5⟩ ∈ cs := by
    intro i hi
    obtain ⟨op, hop⟩ := hcs.completed i (.msg 5) (by interval_cases i <;> simp)
    have hinv := hcs.invoked _ hop
    obtain rfl : op = mTake := by
      interval_cases i
      all_goals simpa using hinv
    exact hop
  have hremoved : 2 ≤ (cs.filterMap removed).length := by
    have hsub : [⟨0, mTake, .msg 5⟩, ⟨1, mTake, .msg 5⟩].Subperm cs := by
      refine List.subperm_of_subset (by simp) ?_
      simp [htake 0 (by omega), htake 1 (by omega)]
    rw [List.length_filterMap_eq_countP]
    calc 2 = List.countP (fun d => (removed d).isSome)
            [⟨0, (mTake : Op ℕ ℕ), .msg 5⟩, ⟨1, mTake, .msg 5⟩] := rfl
      _ ≤ cs.countP fun d => (removed d).isSome := hsub.countP_le _
  -- and there is one put
  have hinserted : (cs.filterMap inserted).length ≤ 1 := by
    have hput : ∀ d ∈ cs, (inserted d).isSome = true → d.id == 2 := by
      rintro ⟨i, op, r⟩ hd hsome
      have hinv := hcs.invoked _ hd
      simp only [List.mem_cons, reduceCtorEq, Act.inv.injEq, List.not_mem_nil, or_false,
        false_or] at hinv
      rcases hinv with ⟨rfl, rfl⟩ | ⟨rfl, rfl⟩ | ⟨rfl, rfl⟩
      · rfl
      · simp [inserted, mTake] at hsome
      · simp [inserted, mTake] at hsome
    calc (cs.filterMap inserted).length
        = cs.countP fun d => (inserted d).isSome := List.length_filterMap_eq_countP
      _ ≤ cs.countP fun d => d.id == 2 := List.countP_mono_left hput
      _ = (cs.map Call.id).count 2 := by rw [List.count, List.countP_map]; rfl
      _ ≤ 1 := List.nodup_iff_count_le_one.mp hcs.nodup 2
  have hlength := (run_conserved hs).length_eq
  simp only [List.length_append, Option.toList_none, List.length_nil] at hlength
  omega

/-- Thread `0` puts `5`, then thread `1` takes it. -/
def putThenTake : List (ℕ × Choice ℕ ℕ) :=
  let go (t : ℕ) : ℕ × Choice ℕ ℕ := (t, .clean fun _ => true)
  [(0, .start (mPut 5)), go 0, go 0, go 0, go 0, go 0, go 0, (1, .start mTake), go 1, go 1, go 1,
    go 1, go 1]

theorem mVar_linearizable_putThenTake :
    ∃ c, (cellProcess ℕ ℕ ℕ).ReachableWhile Coherent (Initial none) c ∧
      history c.shared.trace = [.ret 1 (.msg 5), .inv 1 mTake, .ret 0 .unit, .inv 0 (mPut 5)] ∧
      ∃ cs, Linearizes Buffer none (history c.shared.trace) cs ∧ OnePlace none cs := by
  have hrun : ((cellProcess ℕ ℕ ℕ).runWhile Coherent putThenTake (emptyCell none)).map
      (fun c => history c.shared.trace) =
        some [.ret 1 (.msg 5), .inv 1 mTake, .ret 0 .unit, .inv 0 (mPut 5)] := by
    decide +kernel
  obtain ⟨c, hrun, hh⟩ := Option.map_eq_some_iff.mp hrun
  have hr := Process.reachableWhile_of_runWhile (emptyCell_reachable Coherent none) hrun
  exact ⟨c, hr, hh, mVar_linearizable hr⟩

end TakenTwice

end MultiMLton.SyncVar
