import Mathlib.Data.List.Basic
import Mathlib.Tactic

/-!
# Parallel moves

`move` of `backend/parallel-move.fun`, which puts moves that happen at the same time in an order.

* `move`: the statements, latest first while they are collected;
* `Machine`, `Executes`, `Supply`: what statements do to what registers hold, and where temporaries
  come from;
* `move_faithful`: every destination gets the value that its source had at the beginning, and
  nothing else changes.

Registers are of a type `ρ`, statements of a type `σ`; `τ` is the state of the function that returns
new temporaries.
-/

namespace MultiMLton.Backend.ParallelMove

open List Function Nat


variable {ρ σ τ : Type}

structure Move (ρ : Type) where
  src : ρ
  dst : ρ
  deriving DecidableEq

section Code

variable (equals : ρ → ρ → Bool) (stm : Move ρ → σ) (interfere : ρ → ρ → Bool)
  (temp : ρ → τ → ρ × τ)

def isHard (dst : ρ) (l : List (Move ρ)) : Bool := l.any fun mv => interfere dst mv.src

/-- `loop`, up to the end of the moves: those that are hard, the statements, and whether a move has
been emitted. -/
def loop : List (Move ρ) → List (Move ρ) → List σ → Bool → List (Move ρ) × List σ × Bool
  | [], hard, moves, changed => (hard, moves, changed)
  | mv :: mvs, hard, moves, changed =>
    if isHard interfere mv.dst mvs || isHard interfere mv.dst hard then
      loop mvs (mv :: hard) moves changed
    else loop mvs hard (stm mv :: moves) true

/-- Saves a source, if a write to `dst` would overwrite it. -/
def saveOne (dst : ρ) (ac : List (Move ρ) × List σ × τ) (mv : Move ρ) :
    List (Move ρ) × List σ × τ :=
  let (hard, moves, s) := ac
  if interfere dst mv.src then
    let (t, s) := temp mv.src s
    (⟨t, mv.dst⟩ :: hard, stm ⟨mv.src, t⟩ :: moves, s)
  else (mv :: hard, moves, s)

def save (dst : ρ) (hard : List (Move ρ)) (moves : List σ) (s : τ) : List (Move ρ) × List σ × τ :=
  hard.foldl (saveOne stm interfere temp dst) ([], moves, s)

theorem length_loop (mvs hard : List (Move ρ)) (moves : List σ) (changed : Bool) :
    (loop stm interfere mvs hard moves changed).1.length ≤ mvs.length + hard.length ∧
      ((loop stm interfere mvs hard moves changed).2.2 = true → changed = true ∨
        (loop stm interfere mvs hard moves changed).1.length < mvs.length + hard.length) := by
  induction mvs generalizing hard moves changed with
  | nil =>
    unfold loop
    exact ⟨by simp, .inl⟩
  | cons mv mvs ih =>
    unfold loop
    split_ifs
    · obtain ⟨hle, hlt⟩ := ih (mv :: hard) moves changed
      rw [length_cons] at hle hlt ⊢
      exact ⟨by omega, fun hc => (hlt hc).imp id fun h => by omega⟩
    · obtain ⟨hle, -⟩ := ih hard (stm mv :: moves) true
      rw [length_cons]
      exact ⟨by omega, fun _ => .inr (by omega)⟩

theorem length_save (dst : ρ) (hard : List (Move ρ)) (moves : List σ) (s : τ) :
    (save stm interfere temp dst hard moves s).1.length = hard.length := by
  have hfold : ∀ (l : List (Move ρ)) (ac : List (Move ρ) × List σ × τ),
      (l.foldl (saveOne stm interfere temp dst) ac).1.length = l.length + ac.1.length := by
    intro l
    induction l with
    | nil => simp
    | cons mv l ih =>
      intro ac
      rw [foldl_cons, ih]
      unfold saveOne
      split_ifs
      · simp only [length_cons]
        omega
      · simp only [length_cons]
        omega
  exact hfold hard ([], moves, s)

def loopTop (mvs : List (Move ρ)) (moves : List σ) (s : τ) : List σ × τ :=
  match _h : loop stm interfere mvs [] moves false with
  | ([], moves', _) => (moves'.reverse, s)
  | (mv :: hard, moves', changed) =>
    if changed then loopTop (mv :: hard) moves' s
    else
      let r := save stm interfere temp mv.dst hard moves' s
      loopTop r.1 (stm mv :: r.2.1) r.2.2
termination_by mvs.length
decreasing_by
  all_goals
    have hlen := length_loop stm interfere mvs [] moves false
    rw [_h] at hlen
    simp only [List.length_cons, List.length_nil] at hlen ⊢
  · rename_i hchanged
    have := hlen.2 hchanged
    simp only [Bool.false_eq_true, false_or] at this
    omega
  · rw [length_save]
    omega

/-- The statements for some moves. -/
def move (moves : List (Move ρ)) (s : τ) : List σ × τ :=
  let mvs := moves.foldl (fun mvs mv => if equals mv.src mv.dst then mvs else mv :: mvs) []
  loopTop stm interfere temp mvs [] s

end Code

/-- What executes statements, and what registers hold in its states. -/
structure Machine (ρ σ V : Type) where
  State : Type
  read : State → ρ → V
  exec : σ → State → State

variable {V : Type}

/-- The statement for a move copies a register to one that it fits, and changes what is read from
others only where the write interferes with the read. -/
structure Executes (M : Machine ρ σ V) (equals : ρ → ρ → Bool) (stm : Move ρ → σ)
    (interfere : ρ → ρ → Bool) (fits : ρ → ρ → Prop) : Prop where
  equals : ∀ a b m, equals a b = true → M.read m a = M.read m b
  move : ∀ mv m, fits mv.src mv.dst → M.read (M.exec (stm mv) m) mv.dst = M.read m mv.src
  frame : ∀ mv m z, fits mv.src mv.dst → interfere mv.dst z = false →
    M.read (M.exec (stm mv) m) z = M.read m z

/-- A new temporary interferes with no register that there is. -/
structure Supply (interfere : ρ → ρ → Bool) (fits : ρ → ρ → Prop) (temp : ρ → τ → ρ × τ)
    (old : τ → ρ → Prop) : Prop where
  new : ∀ r s, old (temp r s).2 (temp r s).1
  kept : ∀ r s z, old s z → old (temp r s).2 z
  apart : ∀ r s z, old s z →
    interfere (temp r s).1 z = false ∧ interfere z (temp r s).1 = false
  like : ∀ r s, fits r (temp r s).1
  fits : ∀ r s d, fits r d → fits (temp r s).1 d

/-- Two destinations do not interfere with each other. -/
def Apart (interfere : ρ → ρ → Bool) (o o' : Move ρ) : Prop :=
  interfere o.dst o'.dst = false ∧ interfere o'.dst o.dst = false

section Correct

variable {M : Machine ρ σ V} {equals : ρ → ρ → Bool} {stm : Move ρ → σ} {interfere : ρ → ρ → Bool}
  {fits : ρ → ρ → Prop} {temp : ρ → τ → ρ × τ} {old : τ → ρ → Prop}

/-- The state after some statements, of which the first is the latest. -/
def Machine.after (M : Machine ρ σ V) (m : M.State) (moves : List σ) : M.State :=
  moves.foldr M.exec m

/-- The moves `done` have been made. Those that are still to be made are in pairs `p` with the moves
that they stand for: the source of `p.2` holds what that of `p.1` has held at the beginning. -/
structure Inv (M : Machine ρ σ V) (interfere : ρ → ρ → Bool) (fits : ρ → ρ → Prop)
    (old : τ → ρ → Prop) (orig : List (Move ρ)) (m0 : M.State) (s0 : τ) (done : List (Move ρ))
    (todo : List (Move ρ × Move ρ)) (moves : List σ) (s : τ) : Prop where
  perm : (done ++ todo.map Prod.fst).Perm orig
  apart : (done ++ todo.map Prod.fst).Pairwise (Apart interfere)
  dst : ∀ p ∈ todo, p.2.dst = p.1.dst
  src : ∀ p ∈ todo, M.read (M.after m0 moves) p.2.src = M.read m0 p.1.src
  fits : ∀ p ∈ todo, fits p.2.src p.2.dst
  known : ∀ p ∈ todo, old s p.2.src ∧ old s p.2.dst
  done : ∀ o ∈ done, M.read (M.after m0 moves) o.dst = M.read m0 o.src ∧ old s o.dst
  frame : ∀ z, old s0 z → (∀ o ∈ orig, interfere o.dst z = false) →
    M.read (M.after m0 moves) z = M.read m0 z ∧ old s z

namespace Inv

variable {orig done : List (Move ρ)} {m0 : M.State} {s0 s : τ} {todo todo' : List (Move ρ × Move ρ)}
  {moves : List σ}

theorem apart_symm {o o' : Move ρ} (h : Apart interfere o o') : Apart interfere o' o :=
  ⟨h.2, h.1⟩

theorem of_perm (h : Inv M interfere fits old orig m0 s0 done todo moves s)
    (hp : todo.Perm todo') : Inv M interfere fits old orig m0 s0 done todo' moves s where
  perm := ((hp.map Prod.fst).append_left done).symm.trans h.perm
  apart := (((hp.map Prod.fst).append_left done).pairwise_iff apart_symm).1 h.apart
  dst p hp' := h.dst p (hp.mem_iff.2 hp')
  src p hp' := h.src p (hp.mem_iff.2 hp')
  fits p hp' := h.fits p (hp.mem_iff.2 hp')
  known p hp' := h.known p (hp.mem_iff.2 hp')
  done := h.done
  frame := h.frame

section

variable (hM : Executes M equals stm interfere fits)

include hM

/-- A move that overwrites the source of no other one. -/
theorem emit {p : Move ρ × Move ρ}
    (h : Inv M interfere fits old orig m0 s0 done (p :: todo) moves s)
    (hfree : ∀ q ∈ todo, interfere p.2.dst q.2.src = false) :
    Inv M interfere fits old orig m0 s0 (p.1 :: done) todo (stm p.2 :: moves) s := by
  have hp : p ∈ p :: todo := mem_cons_self
  have hfits := h.fits p hp
  have hmiddle : (p.1 :: done ++ todo.map Prod.fst).Perm (done ++ (p :: todo).map Prod.fst) :=
    perm_middle.symm
  have hframe (z : ρ) (hz : interfere p.2.dst z = false) :
      M.read (M.after m0 (stm p.2 :: moves)) z = M.read (M.after m0 moves) z :=
    hM.frame p.2 _ z hfits hz
  refine ⟨hmiddle.trans h.perm, (hmiddle.pairwise_iff apart_symm).2 h.apart, ?_, ?_, ?_, ?_, ?_, ?_⟩
  · exact fun q hq => h.dst q (mem_cons_of_mem _ hq)
  · intro q hq
    rw [hframe _ (hfree q hq)]
    exact h.src q (mem_cons_of_mem _ hq)
  · exact fun q hq => h.fits q (mem_cons_of_mem _ hq)
  · exact fun q hq => h.known q (mem_cons_of_mem _ hq)
  · intro o ho
    rcases mem_cons.1 ho with rfl | ho
    · rw [← h.dst p hp]
      exact ⟨(hM.move p.2 _ hfits).trans (h.src p hp), (h.known p hp).2⟩
    · obtain ⟨hread, hold⟩ := h.done o ho
      have hapart : Apart interfere o p.1 :=
        (pairwise_append.1 h.apart).2.2 o ho p.1 (mem_map_of_mem hp)
      rw [hframe _ (by rw [h.dst p hp]; exact hapart.2)]
      exact ⟨hread, hold⟩
  · intro z hz hno
    obtain ⟨hread, hold⟩ := h.frame z hz hno
    have horig : p.1 ∈ orig := h.perm.subset (mem_append_right _ (mem_map_of_mem hp))
    rw [hframe _ (by rw [h.dst p hp]; exact hno p.1 horig)]
    exact ⟨hread, hold⟩

/-- A source that is saved. -/
theorem saveOne (hT : Supply interfere fits temp old)
    {q : Move ρ × Move ρ} (h : Inv M interfere fits old orig m0 s0 done (q :: todo) moves s) :
    Inv M interfere fits old orig m0 s0 done ((q.1, ⟨(temp q.2.src s).1, q.2.dst⟩) :: todo)
      (stm ⟨q.2.src, (temp q.2.src s).1⟩ :: moves) (temp q.2.src s).2 := by
  have hframe (z : ρ) (hz : old s z) :
      M.read (M.after m0 (stm ⟨q.2.src, (temp q.2.src s).1⟩ :: moves)) z =
        M.read (M.after m0 moves) z :=
    hM.frame _ _ z (hT.like _ _) (hT.apart _ _ z hz).1
  have hq : q ∈ q :: todo := mem_cons_self
  refine ⟨h.perm, h.apart, ?_, ?_, ?_, ?_, ?_, ?_⟩
  · intro p hp
    rcases mem_cons.1 hp with rfl | hp
    · exact h.dst q hq
    · exact h.dst p (mem_cons_of_mem _ hp)
  · intro p hp
    rcases mem_cons.1 hp with rfl | hp
    · exact (hM.move _ _ (hT.like _ _)).trans (h.src q hq)
    · rw [hframe _ (h.known p (mem_cons_of_mem _ hp)).1]
      exact h.src p (mem_cons_of_mem _ hp)
  · intro p hp
    rcases mem_cons.1 hp with rfl | hp
    · exact hT.fits _ _ _ (h.fits q hq)
    · exact h.fits p (mem_cons_of_mem _ hp)
  · intro p hp
    rcases mem_cons.1 hp with rfl | hp
    · exact ⟨hT.new _ _, hT.kept _ _ _ (h.known q hq).2⟩
    · have hk := h.known p (mem_cons_of_mem _ hp)
      exact ⟨hT.kept _ _ _ hk.1, hT.kept _ _ _ hk.2⟩
  · intro o ho
    obtain ⟨hread, hold⟩ := h.done o ho
    exact ⟨(hframe _ hold).trans hread, hT.kept _ _ _ hold⟩
  · intro z hz hno
    obtain ⟨hread, hold⟩ := h.frame z hz hno
    exact ⟨(hframe _ hold).trans hread, hT.kept _ _ _ hold⟩

theorem loop {mvs hard : List (Move ρ × Move ρ)}
    (h : Inv M interfere fits old orig m0 s0 done (mvs ++ hard) moves s) (changed : Bool) :
    ∃ done' hard' moves' changed',
      ParallelMove.loop stm interfere (mvs.map Prod.snd) (hard.map Prod.snd) moves changed =
        (hard'.map Prod.snd, moves', changed') ∧
      Inv M interfere fits old orig m0 s0 done' hard' moves' s := by
  induction mvs generalizing done hard moves changed with
  | nil => exact ⟨done, hard, moves, changed, rfl, h⟩
  | cons p mvs ih =>
    rw [map_cons, ParallelMove.loop]
    split_ifs with hhard
    · have hperm : Inv M interfere fits old orig m0 s0 done (mvs ++ p :: hard) moves s :=
        h.of_perm perm_middle.symm
      exact ih hperm changed
    · rw [Bool.or_eq_true, not_or] at hhard
      refine ih (h.emit hM fun q hq => ?_) true
      unfold isHard at hhard
      simp only [any_eq_true, mem_map, not_exists, not_and] at hhard
      rcases mem_append.1 hq with hq | hq
      · simpa using hhard.1 q.2 ⟨q, hq, rfl⟩
      · simpa using hhard.2 q.2 ⟨q, hq, rfl⟩

/-- When no move could be emitted, the first one is after the sources that it overwrites have been
saved. -/
theorem save (hT : Supply interfere fits temp old)
    {p : Move ρ × Move ρ} {hard : List (Move ρ × Move ρ)}
    (h : Inv M interfere fits old orig m0 s0 done (p :: hard) moves s) : ∃ hard' moves' s',
      ParallelMove.save stm interfere temp p.2.dst (hard.map Prod.snd) moves s =
        (hard'.map Prod.snd, moves', s') ∧
      Inv M interfere fits old orig m0 s0 (p.1 :: done) hard' (stm p.2 :: moves') s' := by
  -- `ac` are those that have been looked at
  have hfold : ∀ (l ac : List (Move ρ × Move ρ)) (moves : List σ) (s : τ),
      Inv M interfere fits old orig m0 s0 done (p :: (ac ++ l)) moves s →
      (∀ q ∈ ac, interfere p.2.dst q.2.src = false) →
      ∃ hard' moves' s',
        (l.map Prod.snd).foldl (ParallelMove.saveOne stm interfere temp p.2.dst)
            (ac.map Prod.snd, moves, s) =
          (hard'.map Prod.snd, moves', s') ∧
        Inv M interfere fits old orig m0 s0 done (p :: hard') moves' s' ∧
        ∀ q ∈ hard', interfere p.2.dst q.2.src = false := by
    intro l
    induction l with
    | nil =>
      intro ac moves s h hac
      rw [append_nil] at h
      exact ⟨ac, moves, s, rfl, h, hac⟩
    | cons q l ih =>
      intro ac moves s h hac
      have hperm : (p :: (ac ++ q :: l)).Perm (q :: p :: (ac ++ l)) :=
        (perm_middle.cons p).trans (.swap _ _ _)
      rw [map_cons, foldl_cons]
      unfold ParallelMove.saveOne
      dsimp only
      split_ifs with hq
      · have h' := ((h.of_perm hperm).saveOne hM hT).of_perm (.swap _ _ _)
        have hold := (h.known p mem_cons_self).2
        refine ih ((q.1, ⟨(temp q.2.src s).1, q.2.dst⟩) :: ac) _ _ h' fun r hr => ?_
        rcases mem_cons.1 hr with rfl | hr
        · exact (hT.apart q.2.src s _ hold).2
        · exact hac r hr
      · refine ih (q :: ac) moves s (h.of_perm (perm_middle.cons p)) fun r hr => ?_
        rcases mem_cons.1 hr with rfl | hr
        · simpa using hq
        · exact hac r hr
  obtain ⟨hard', moves', s', heq, h', hfree⟩ := hfold hard [] moves s h (by simp)
  exact ⟨hard', moves', s', heq, h'.emit hM hfree⟩

theorem loopTop (hT : Supply interfere fits temp old) (n : ℕ) (hn : todo.length ≤ n)
    (h : Inv M interfere fits old orig m0 s0 done todo moves s) :
    ∃ done' moves' s', ParallelMove.loopTop stm interfere temp (todo.map Prod.snd) moves s =
        (moves'.reverse, s') ∧
      Inv M interfere fits old orig m0 s0 done' [] moves' s' := by
  induction n generalizing done todo moves s with
  | zero =>
    obtain rfl := eq_nil_of_length_eq_zero (le_zero.1 hn)
    rw [ParallelMove.loopTop]
    exact ⟨done, moves, s, rfl, h⟩
  | succ n ih =>
    obtain ⟨done', hard', moves', changed', heq, h'⟩ :=
      loop hM (show Inv M interfere fits old orig m0 s0 done (todo ++ []) moves s by
        rwa [append_nil]) false
    have hlen := length_loop stm interfere (todo.map Prod.snd) [] moves false
    rw [ParallelMove.loopTop]
    rw [map_nil] at heq
    rw [heq] at hlen ⊢
    simp only [List.length_map, List.length_nil, Bool.false_eq_true, false_or] at hlen
    cases hard' with
    | nil => exact ⟨done', moves', s, rfl, h'⟩
    | cons p hard =>
      rw [length_cons] at hlen
      change ∃ done' moves2 s2,
        (if changed' = true then
          ParallelMove.loopTop stm interfere temp ((p :: hard).map Prod.snd) moves' s
        else
          let r := ParallelMove.save stm interfere temp p.2.dst (hard.map Prod.snd) moves' s
          ParallelMove.loopTop stm interfere temp r.1 (stm p.2 :: r.2.1) r.2.2) =
            (moves2.reverse, s2) ∧
          Inv M interfere fits old orig m0 s0 done' [] moves2 s2
      split_ifs with hc
      · have hle : (p :: hard).length ≤ n := by
          rw [length_cons]
          have := hlen.2 hc
          omega
        exact ih hle h'
      · obtain ⟨hard2, moves2, s2, heq2, h2⟩ := h'.save hM hT
        have hlen2 := length_save stm interfere temp p.2.dst (hard.map Prod.snd) moves' s
        rw [heq2] at hlen2 ⊢
        simp only [List.length_map] at hlen2
        exact ih (by omega) h2

end

end Inv

/-- The state after some statements, in their order. -/
def Machine.run (M : Machine ρ σ V) (stms : List σ) (m : M.State) : M.State :=
  stms.foldl (fun m st => M.exec st m) m

/-- **Parallel moves.** After the statements, every destination holds what its source has held
before, and what interferes with no destination is as it was. -/
theorem move_faithful (hM : Executes M equals stm interfere fits)
    (hT : Supply interfere fits temp old) (moves : List (Move ρ)) (s : τ)
    (hapart : moves.Pairwise (Apart interfere)) (hfits : ∀ mv ∈ moves, fits mv.src mv.dst)
    (hold : ∀ mv ∈ moves, old s mv.src ∧ old s mv.dst) (m : M.State) :
    (∀ mv ∈ moves, M.read (M.run (move equals stm interfere temp moves s).1 m) mv.dst =
        M.read m mv.src) ∧
      ∀ z, old s z → (∀ mv ∈ moves, interfere mv.dst z = false) →
        M.read (M.run (move equals stm interfere temp moves s).1 m) z = M.read m z := by
  set same : Move ρ → Bool := fun mv => equals mv.src mv.dst with hsame
  set rest := (moves.filter fun mv => !same mv).reverse with hrest
  have hmvs : moves.foldl
      (fun mvs mv => if equals mv.src mv.dst then mvs else mv :: mvs) [] = rest := by
    have hfold : ∀ (l ac : List (Move ρ)),
        l.foldl (fun mvs mv => if equals mv.src mv.dst then mvs else mv :: mvs) ac =
          (l.filter fun mv => !same mv).reverse ++ ac := by
      intro l
      induction l with
      | nil => simp
      | cons mv l ih =>
        intro ac
        rw [List.foldl_cons, ih, List.filter_cons]
        by_cases hmv : equals mv.src mv.dst = true
        · simp [hsame, hmv]
        · simp [hsame, hmv]
    rw [hfold, List.append_nil]
  have hperm : (moves.filter same ++ rest).Perm moves :=
    ((List.reverse_perm _).append_left _).trans (List.filter_append_perm same moves)
  have hmap : (rest.map fun mv => (mv, mv)).map Prod.fst = rest := by
    simp [Function.comp_def]
  have hmem (p : Move ρ × Move ρ) (hp : p ∈ rest.map fun mv => (mv, mv)) :
      p.1 = p.2 ∧ p.2 ∈ moves := by
    obtain ⟨mv, hmv, rfl⟩ := List.mem_map.1 hp
    exact ⟨rfl, hperm.subset (List.mem_append_right _ hmv)⟩
  have hinv : Inv M interfere fits old moves m s (moves.filter same)
      (rest.map fun mv => (mv, mv)) [] s :=
    { perm := by rwa [hmap]
      apart := by
        rw [hmap]
        exact (hperm.pairwise_iff Inv.apart_symm).2 hapart
      dst := fun p hp => by rw [(hmem p hp).1]
      src := fun p hp => by rw [(hmem p hp).1]; rfl
      fits := fun p hp => hfits _ (hmem p hp).2
      known := fun p hp => hold _ (hmem p hp).2
      done := by
        intro o ho
        obtain ⟨ho, heq⟩ := List.mem_filter.1 ho
        exact ⟨(hM.equals _ _ m heq).symm, (hold o ho).2⟩
      frame := fun z hz _ => ⟨rfl, hz⟩ }
  obtain ⟨done, moves', s', heq, h⟩ := hinv.loopTop hM hT _ le_rfl
  have hstms : (move equals stm interfere temp moves s).1 = moves'.reverse := by
    unfold move
    dsimp only
    have hsnd : (rest.map fun mv => (mv, mv)).map Prod.snd = rest := by
      simp [Function.comp_def]
    rw [hmvs, ← hsnd, heq]
  have hrun : M.run (move equals stm interfere temp moves s).1 m = M.after m moves' := by
    unfold Machine.run Machine.after
    rw [hstms, List.foldl_reverse]
  rw [hrun]
  refine ⟨fun mv hmv => (h.done mv ?_).1, fun z hz hno => (h.frame z hz hno).1⟩
  have hdone := h.perm
  rw [List.map_nil, List.append_nil] at hdone
  exact hdone.mem_iff.2 hmv

end Correct

/-! ### Stack slots and registers -/

/-- The operands that are moved in a frame, with their sizes: slots of the stack, and registers. -/
inductive Slot
  | stack (offset bytes : ℕ)
  | register (index bytes : ℕ)
  deriving DecidableEq

namespace Slot

def bytes : Slot → ℕ
  | stack _ bytes => bytes
  | register _ bytes => bytes

/-- `Operand.interfere`, at stack slots and registers. -/
def interfere : Slot → Slot → Bool
  | stack b n, stack b' n' => b + n > b' && b' + n' > b
  | register r _, register r' _ => r == r'
  | _, _ => false

/-- A new register like another operand, with the number that is next. -/
def temp (z : Slot) (n : ℕ) : Slot × ℕ := (register n z.bytes, n + 1)

/-- The registers of a state have been made before. -/
def Old (n : ℕ) : Slot → Prop
  | stack _ _ => True
  | register r _ => r < n

end Slot

structure Memory where
  stack : ℕ → ℕ
  registers : ℕ → ℕ → ℕ

namespace Memory

def byte (m : Memory) : Slot → ℕ → ℕ
  | .stack offset _, i => m.stack (offset + i)
  | .register r _, i => m.registers r i

def write (m : Memory) (v : ℕ → ℕ) : Slot → Memory
  | .stack offset bytes =>
    { m with
      stack := fun a => if offset ≤ a ∧ a < offset + bytes then v (a - offset) else m.stack a }
  | .register r _ => { m with registers := Function.update m.registers r v }

end Memory

/-- The moves themselves are the statements. -/
def frame : Machine Slot (Move Slot) (List ℕ) where
  State := Memory
  read m z := (List.range z.bytes).map (m.byte z)
  exec mv m := m.write (m.byte mv.src) mv.dst

theorem frame_executes :
    Executes frame (fun z z' => z == z') id Slot.interfere fun z z' => z.bytes = z'.bytes where
  equals a b m h := by rw [eq_of_beq h]
  move mv m hfits := by
    obtain ⟨src, dst⟩ := mv
    change (List.range dst.bytes).map ((m.write (m.byte src) dst).byte dst) =
      (List.range src.bytes).map (m.byte src)
    rw [show src.bytes = dst.bytes from hfits]
    refine map_congr_left fun i hi => ?_
    rw [mem_range] at hi
    cases dst with
    | stack offset bytes =>
      have hin : offset ≤ offset + i ∧ offset + i < offset + bytes :=
        ⟨Nat.le_add_right _ _, Nat.add_lt_add_left hi _⟩
      simp only [Memory.byte, Memory.write, if_pos hin, Nat.add_sub_cancel_left]
    | register r bytes => simp only [Memory.byte, Memory.write, update_self]
  frame mv m z _ hz := by
    obtain ⟨src, dst⟩ := mv
    refine map_congr_left fun i hi => ?_
    rw [mem_range] at hi
    change (m.write (m.byte src) dst).byte z i = m.byte z i
    cases dst with
    | stack offset bytes =>
      cases z with
      | stack offset' bytes' =>
        simp only [Slot.interfere, Slot.bytes, Bool.and_eq_false_iff,
          decide_eq_false_iff_not] at hz hi
        simp only [Memory.byte, Memory.write]
        rw [if_neg (by omega)]
      | register r' bytes' => rfl
    | register r bytes =>
      cases z with
      | stack offset' bytes' => rfl
      | register r' bytes' =>
        have hne : r' ≠ r := by
          rintro rfl
          simp [Slot.interfere] at hz
        simp only [Memory.byte, Memory.write, update_of_ne hne]

theorem temp_supply :
    Supply Slot.interfere (fun z z' => z.bytes = z'.bytes) Slot.temp Slot.Old where
  new z n := lt_succ_self n
  kept z n y hy := by
    cases y with
    | stack offset bytes => trivial
    | register r bytes => exact lt_succ_of_lt hy
  apart z n y hy := by
    cases y with
    | stack offset bytes => exact ⟨rfl, rfl⟩
    | register r bytes =>
      have hlt : r < n := hy
      simp only [Slot.temp, Slot.interfere, beq_eq_false_iff_ne]
      omega
  like z n := rfl
  fits z n d h := h

/-- Two slots that overlap the sources of each other, and a register. -/
def overlapping : List (Move Slot) :=
  [⟨.stack 4 8, .stack 0 8⟩, ⟨.stack 0 8, .stack 8 8⟩, ⟨.stack 4 8, .register 0 8⟩]

theorem move_overlapping :
    (overlapping.map fun mv => frame.read
      (frame.run (move (fun z z' => z == z') id Slot.interfere Slot.temp overlapping 1).1
        ⟨id, fun _ _ => 0⟩) mv.dst) = overlapping.map fun mv => frame.read ⟨id, fun _ _ => 0⟩ mv.src :=
  List.map_congr_left (move_faithful frame_executes temp_supply overlapping 1
    (by simp [overlapping, Apart, Slot.interfere]) (by simp [overlapping, Slot.bytes])
    (by simp [overlapping, Slot.Old]) ⟨id, fun _ _ => 0⟩).1

end MultiMLton.Backend.ParallelMove
