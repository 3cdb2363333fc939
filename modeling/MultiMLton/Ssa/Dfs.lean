import MultiMLton.Lib.Folds
import MultiMLton.Ssa.Scope

/-!
# Depth-first search over the blocks of a function

`Function.dfs` of `ssa/ssa-tree.fun`. A pass gives a function that is applied to each block that is
visited, and one that is applied when it is left. Whatever they do, the blocks are visited and left
in one order, so passes of different states can be compared: `dfs_eq_foldl`.

* `visits`: the blocks in the order they are visited, each with the blocks that have not been left;
* `Searched`: every block that can be reached is visited once.
-/

namespace MultiMLton.Ssa

open MultiMLton.Lib

/-- `Function.dfs`; the state of the pass follows the array `visited`. -/
def Function.dfs {σ : Type} (f : Function) (v v' : Block → σ → σ) :
    ℕ → Label → (Label → Bool) × σ → Option ((Label → Bool) × σ)
  | 0, _, _ => none
  | fuel + 1, l, (visited, s) =>
    if visited l then some (visited, s)
    else
      (f.blocks.find? (·.label = l)).bind fun b => do
        let (visited, s) ← b.transfer.labels.foldlM (fun st l => dfs f v v' fuel l st)
          (Function.update visited l true, v b s)
        some (visited, v' b s)

namespace Dfs

/-- A block is visited, or left. -/
inductive Event
  | enter (b : Block)
  | leave (b : Block)

/-- What a pass does. -/
def act {σ : Type} (v v' : Block → σ → σ) (s : σ) : Event → σ
  | .enter b => v b s
  | .leave b => v' b s

/-- What a search from the start of a function does. -/
def events (f : Function) : List Event :=
  ((f.dfs (fun b es => es ++ [.enter b]) (fun b es => es ++ [.leave b]) (f.blocks.length + 1) f.start
    (fun _ => false, [])).map Prod.snd).getD []

/-- The blocks that are visited. -/
def entered (es : List Event) : List Block :=
  es.filterMap fun
    | .enter b => some b
    | .leave _ => none

/-- The blocks that are visited, with those that have not been left then. -/
def visits : (Label → Bool) → List Event → List (Block × (Label → Bool))
  | _, [] => []
  | active, .enter b :: es =>
    (b, Function.update active b.label true) :: visits (Function.update active b.label true) es
  | active, .leave b :: es => visits (Function.update active b.label false) es

@[simp] theorem entered_append (es es' : List Event) :
    entered (es ++ es') = entered es ++ entered es' := List.filterMap_append

theorem map_fst_visits (active : Label → Bool) (es : List Event) :
    (visits active es).map Prod.fst = entered es := by
  induction es generalizing active with
  | nil => rfl
  | cons e es ih =>
    cases e with
    | enter b => exact congrArg (b :: ·) (ih _)
    | leave b => exact ih _

/-- A block has not been left when it is visited. -/
theorem active_of_mem_visits {active : Label → Bool} {es : List Event} {b : Block}
    {k : Label → Bool} (h : (b, k) ∈ visits active es) : k b.label = true := by
  induction es generalizing active with
  | nil => cases h
  | cons e es ih =>
    cases e with
    | enter c =>
      rcases List.mem_cons.1 h with heq | h
      · cases heq
        exact Function.update_self ..
      · exact ih h
    | leave c => exact ih h

/-! ### What a search does -/

variable {f : Function} {l : Label} {ls : List Label} {es es' : List Event}
  {visited visited' visited'' : Label → Bool}

/-- The blocks below some labels that have not been visited are visited once. -/
structure Searched (f : Function) (ls : List Label) (visited : Label → Bool) (es : List Event)
    (visited' : Label → Bool) : Prop where
  iff : ∀ l, visited' l = true ↔ visited l = true ∨ ∃ b ∈ entered es, b.label = l
  mem : ∀ b ∈ entered es, b ∈ f.blocks ∧ visited b.label = false
  nodup : ((entered es).map Block.label).Nodup
  succ : ∀ b ∈ entered es, ∀ l ∈ b.transfer.labels, visited' l = true
  self : ∀ l ∈ ls, visited' l = true
  reach : ∀ b ∈ entered es, ∃ l ∈ ls, Relation.ReflTransGen f.Edge l b.label

theorem Searched.nil (f : Function) (visited : Label → Bool) :
    Searched f [] visited [] visited where
  iff l := by simp [entered]
  mem := nofun
  nodup := List.nodup_nil
  succ := nofun
  self := nofun
  reach := nofun

/-- One search after the other. -/
theorem Searched.append (h : Searched f [l] visited es visited')
    (h' : Searched f ls visited' es' visited'') : Searched f (l :: ls) visited (es ++ es') visited'' where
  iff k := by
    rw [h'.iff, h.iff, entered_append]
    simp only [List.mem_append, or_and_right, exists_or, or_assoc]
  mem b hb := by
    rw [entered_append] at hb
    rcases List.mem_append.1 hb with hb | hb
    · exact h.mem b hb
    · obtain ⟨hmem, hnot⟩ := h'.mem b hb
      refine ⟨hmem, ?_⟩
      by_contra htrue
      rw [(h.iff _).2 (.inl (by simpa using htrue))] at hnot
      cases hnot
  nodup := by
    rw [entered_append, List.map_append]
    refine List.nodup_append.2 ⟨h.nodup, h'.nodup, ?_⟩
    rintro k hk _ hk' rfl
    obtain ⟨b, hb, rfl⟩ := List.mem_map.1 hk
    obtain ⟨b', hb', heq⟩ := List.mem_map.1 hk'
    have hnot := (h'.mem b' hb').2
    rw [heq, (h.iff _).2 (.inr ⟨b, hb, rfl⟩)] at hnot
    cases hnot
  succ b hb k hk := by
    rw [entered_append] at hb
    rcases List.mem_append.1 hb with hb | hb
    · exact (h'.iff k).2 (.inl (h.succ b hb k hk))
    · exact h'.succ b hb k hk
  self k hk := by
    rcases List.mem_cons.1 hk with rfl | hk
    · exact (h'.iff k).2 (.inl (h.self k List.mem_cons_self))
    · exact h'.self k hk
  reach b hb := by
    rw [entered_append] at hb
    rcases List.mem_append.1 hb with hb | hb
    · obtain ⟨k, hk, hreach⟩ := h.reach b hb
      exact ⟨k, List.mem_cons.2 (.inl (List.mem_singleton.1 hk)), hreach⟩
    · obtain ⟨k, hk, hreach⟩ := h'.reach b hb
      exact ⟨k, List.mem_cons_of_mem _ hk, hreach⟩

/-- A block, and what is below its labels. -/
theorem Searched.block {b : Block} (hb : b ∈ f.blocks) (hl : visited b.label = false)
    (h : Searched f b.transfer.labels (Function.update visited b.label true) es visited') :
    Searched f [b.label] visited (.enter b :: es ++ [.leave b]) visited' := by
  have hentered : entered (.enter b :: es ++ [.leave b]) = b :: entered es := by
    simp [entered]
  have hself : visited' b.label = true := (h.iff _).2 (.inl (Function.update_self ..))
  have hne {c : Block} (hc : c ∈ entered es) : c.label ≠ b.label := by
    intro heq
    have hnot := (h.mem c hc).2
    rw [heq, Function.update_self] at hnot
    cases hnot
  refine ⟨fun k => ?_, fun c hc => ?_, ?_, fun c hc => ?_, fun k hk => ?_, fun c hc => ?_⟩
  · rw [h.iff, hentered, List.exists_mem_cons_iff, Function.update_apply]
    by_cases hk : k = b.label
    · subst hk
      simp
    · simp [hk, Ne.symm hk]
  · rw [hentered] at hc
    rcases List.mem_cons.1 hc with rfl | hc
    · exact ⟨hb, hl⟩
    · obtain ⟨hmem, hnot⟩ := h.mem c hc
      rw [Function.update_of_ne (hne hc)] at hnot
      exact ⟨hmem, hnot⟩
  · rw [hentered, List.map_cons, List.nodup_cons]
    refine ⟨fun hmem => ?_, h.nodup⟩
    obtain ⟨c, hc, heq⟩ := List.mem_map.1 hmem
    exact hne hc heq
  · rw [hentered] at hc
    rcases List.mem_cons.1 hc with rfl | hc
    · exact h.self
    · exact h.succ c hc
  · rw [List.mem_singleton.1 hk]
    exact hself
  · rw [hentered] at hc
    refine ⟨b.label, List.mem_singleton_self _, ?_⟩
    rcases List.mem_cons.1 hc with rfl | hc
    · exact .refl
    · obtain ⟨k, hk, hreach⟩ := h.reach c hc
      exact .head ⟨b, hb, rfl, hk⟩ hreach

/-- The blocks that have not been visited. -/
def unvisited (f : Function) (visited : Label → Bool) : List Block :=
  f.blocks.filter fun b => !visited b.label

theorem length_unvisited_le (h : ∀ l, visited l = true → visited' l = true) :
    (unvisited f visited').length ≤ (unvisited f visited).length := by
  refine (List.monotone_filter_right f.blocks fun b hb => ?_).length_le
  rw [Bool.not_eq_true'] at hb ⊢
  by_contra htrue
  rw [h _ (by simpa using htrue)] at hb
  cases hb

theorem length_unvisited_lt {b : Block} (hb : b ∈ f.blocks) (hl : visited b.label = false) :
    (unvisited f (Function.update visited b.label true)).length < (unvisited f visited).length := by
  have hle : (unvisited f (Function.update visited b.label true)).Sublist (unvisited f visited) := by
    refine List.monotone_filter_right f.blocks fun c hc => ?_
    rw [Bool.not_eq_true', Function.update_apply] at hc
    split_ifs at hc
    rwa [Bool.not_eq_true']
  refine lt_of_le_of_ne hle.length_le fun heq => ?_
  have hmem : b ∈ unvisited f visited := List.mem_filter.2 ⟨hb, by simp [hl]⟩
  rw [← hle.eq_of_length heq] at hmem
  have hnot := (List.mem_filter.1 hmem).2
  rw [Function.update_self] at hnot
  cases hnot

section Run

variable (hclosed : ∀ b ∈ f.blocks, ∀ l ∈ b.transfer.labels, ∃ b' ∈ f.blocks, b'.label = l)

include hclosed

/-- A search returns with more fuel than there are blocks to visit, and does the same for all passes. -/
theorem dfs_eq_foldl (fuel : ℕ) (hl : ∃ b ∈ f.blocks, b.label = l)
    (hfuel : (unvisited f visited).length < fuel) : ∃ es visited',
    (∀ {σ : Type} (v v' : Block → σ → σ) (s : σ),
      f.dfs v v' fuel l (visited, s) = some (visited', es.foldl (act v v') s)) ∧
      Searched f [l] visited es visited' := by
  induction fuel generalizing l visited with
  | zero => exact absurd hfuel (Nat.not_lt_zero _)
  | succ fuel ih =>
    by_cases hvisited : visited l = true
    · refine ⟨[], visited, fun v v' s => ?_, ?_⟩
      · rw [Function.dfs, if_pos hvisited]
        rfl
      · exact ⟨fun k => by simp [entered], nofun, List.nodup_nil, nofun,
          fun k hk => by rwa [List.mem_singleton.1 hk], nofun⟩
    · rw [Bool.not_eq_true] at hvisited
      obtain ⟨c, hc, hcl⟩ := hl
      obtain ⟨b, hfind⟩ : ∃ b, f.blocks.find? (·.label = l) = some b := by
        rw [← Option.isSome_iff_exists, List.find?_isSome]
        exact ⟨c, hc, by simpa using hcl⟩
      obtain ⟨hb, rfl⟩ := find?_key hfind
      have hlt := length_unvisited_lt hb hvisited
      -- the labels of the transfer one after the other
      have hfold (ls : List Label) : ∀ visited, (∀ k ∈ ls, k ∈ b.transfer.labels) →
          (unvisited f visited).length < fuel → ∃ es visited',
          (∀ {σ : Type} (v v' : Block → σ → σ) (s : σ),
            ls.foldlM (fun st l => f.dfs v v' fuel l st) (visited, s) =
              some (visited', es.foldl (act v v') s)) ∧ Searched f ls visited es visited' := by
        induction ls with
        | nil => exact fun visited _ _ => ⟨[], visited, fun _ _ _ => rfl, .nil f visited⟩
        | cons k ls ihls =>
          intro visited hls hfuel
          rw [List.forall_mem_cons] at hls
          obtain ⟨es₁, visited₁, hrun₁, hs₁⟩ := ih (hclosed b hb k hls.1) hfuel
          have hle : (unvisited f visited₁).length ≤ (unvisited f visited).length :=
            length_unvisited_le fun k hk => (hs₁.iff k).2 (.inl hk)
          obtain ⟨es₂, visited₂, hrun₂, hs₂⟩ := ihls visited₁ hls.2 (by omega)
          refine ⟨es₁ ++ es₂, visited₂, fun v v' s => ?_, hs₁.append hs₂⟩
          rw [List.foldlM_cons, hrun₁, List.foldl_append]
          exact hrun₂ v v' _
      obtain ⟨es, visited', hrun, hs⟩ := hfold b.transfer.labels
        (Function.update visited b.label true) (fun _ hk => hk) (by omega)
      refine ⟨.enter b :: es ++ [.leave b], visited', fun v v' s => ?_, .block hb hvisited hs⟩
      rw [Function.dfs, if_neg (by simp [hvisited]), hfind, Option.bind_some, hrun]
      simp [act]

omit hclosed in
theorem dfs_mono {σ : Type} {v v' : Block → σ → σ} {fuel fuel' : ℕ} (hle : fuel ≤ fuel')
    {st st' : (Label → Bool) × σ} (h : f.dfs v v' fuel l st = some st') :
    f.dfs v v' fuel' l st = some st' := by
  induction fuel generalizing fuel' l st st' with
  | zero => exact absurd h nofun
  | succ fuel ih =>
    obtain ⟨fuel', rfl⟩ := Nat.exists_eq_add_of_lt hle
    obtain ⟨visited, s⟩ := st
    rw [Function.dfs] at h ⊢
    split_ifs at h ⊢ with hvisited
    · exact h
    · obtain ⟨b, hb, h⟩ := Option.bind_eq_some_iff.1 h
      rw [Option.bind_eq_bind, Option.bind_eq_some_iff] at h
      obtain ⟨a, hfold, h⟩ := h
      rw [hb, Option.bind_some, Option.bind_eq_bind,
        foldlM_mono (fun k _ st st' hst => ih (by omega) hst) hfold]
      exact h

/-- The search from the start. -/
theorem exists_events (hstart : ∃ b ∈ f.blocks, b.label = f.start) : ∃ es visited,
    (∀ fuel, f.blocks.length < fuel → ∀ {σ : Type} (v v' : Block → σ → σ) (s : σ),
      f.dfs v v' fuel f.start (fun _ => false, s) = some (visited, es.foldl (act v v') s)) ∧
      Searched f [f.start] (fun _ => false) es visited := by
  obtain ⟨es, visited, hrun, hs⟩ := dfs_eq_foldl hclosed
    (f.blocks.length + 1) hstart (Nat.lt_succ_of_le (List.length_filter_le _ _))
  exact ⟨es, visited, fun fuel hfuel _ v v' s => dfs_mono hfuel (hrun v v' s), hs⟩

omit hclosed in
theorem foldl_log (es es' : List Event) :
    es.foldl (act (fun b es => es ++ [.enter b]) fun b es => es ++ [.leave b]) es' = es' ++ es := by
  induction es generalizing es' with
  | nil => rw [List.append_nil, List.foldl_nil]
  | cons e es ih => cases e <;> rw [List.foldl_cons, ih, act, List.append_assoc] <;> rfl

/-- A pass does what the events say. -/
theorem dfs_events (hstart : ∃ b ∈ f.blocks, b.label = f.start) : ∃ visited,
    (∀ fuel, f.blocks.length < fuel → ∀ {σ : Type} (v v' : Block → σ → σ) (s : σ),
      f.dfs v v' fuel f.start (fun _ => false, s) =
        some (visited, (events f).foldl (act v v') s)) ∧
      Searched f [f.start] (fun _ => false) (events f) visited := by
  obtain ⟨es, visited, hrun, hs⟩ := exists_events hclosed hstart
  have hevents : events f = es := by
    rw [events, hrun _ (Nat.lt_succ_self _), foldl_log]
    rfl
  rw [hevents]
  exact ⟨visited, hrun, hs⟩

end Run

end Dfs

end MultiMLton.Ssa
