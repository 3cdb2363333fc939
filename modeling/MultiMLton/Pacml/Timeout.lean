import Mathlib
import MultiMLton.Lib.Interleave
import MultiMLton.Pacml.FunPriorityQueue

/-!
# The time queues of `core-cml/timeout.sml`

Each processor has a queue of the threads that wait for a time, each with the transaction id of its
choice.  `preempt` runs `cleaner` on the prefix that is due: it commits the transaction ids with a
`cas` and readies the threads.  Other parties claim, release and commit transaction ids at any time,
also between two steps of a `preempt`.

* `getTime`, `timeWait`, `cleaner` and `preempt` as `timeStep`, one `cas` at a time;
* `Inv`, and `inv_of_reachable`;
* `FiresOnce`, and `firesOnce`: the queues are ordered, a `preempt` takes off what is due and keeps
  the rest, and nothing fires early, or twice, or beside another branch of its choice.
-/

namespace MultiMLton.Timeout

open Interleave FunPriorityQueue List
open Function (update update_of_ne update_self)

/-- An element of a time queue: the transaction id and the thread.  Each call of `timeWait` gives a
thread of its own, so the threads are numbered in the order of insertion. -/
abbrev Item (κ ι : Type*) := Elt κ (ι × ℕ)

/-- A thread that has been readied, with the reading of the clock. -/
structure Firing (κ ι : Type*) where
  item : Item κ ι
  now : κ
  deriving DecidableEq

/-- A `preempt` of a processor that has returned: what it saw and did. -/
structure Preempted (κ ι : Type*) where
  now : κ
  before : List (Item κ ι)
  readied : List (Item κ ι)
  after : List (Item κ ι)
  /-- `SOME NONE`, `SOME (SOME zeroTime)` or `NONE` -/
  result : Option (Option κ)
  deriving DecidableEq

/-- What the processors share; `next`, `ready`, `others` and `trace` are records. -/
structure Clockwork (κ ι : Type*) where
  txid : ι → ℤ
  /-- the time of day -/
  wall : κ
  /-- the number of the next thread -/
  next : ℕ
  /-- the threads that have been readied -/
  ready : List (Firing κ ι)
  /-- the transaction ids that other parties have committed -/
  others : List ι
  trace : List (Preempted κ ι)

/-- Where a processor is. -/
inductive Pc (κ ι : Type*)
  | idle
  /-- `cleanPrefix` with the queue it was called on, what it has readied, and the rest -/
  | cleaning (before readied rest : List (Item κ ι))
  deriving DecidableEq

/-- A processor: its slots of `timeQArray` and `clockArr`. -/
structure Local (κ ι : Type*) where
  timeQ : List (Item κ ι)
  clock : Option κ
  pc : Pc κ ι

/-- What the code and the other parties may do. -/
inductive Choice (κ ι : Type*)
  | getTime
  | preemptTime
  | timeWait (time : κ) (txid : ι)
  | preempt
  | clean
  | tick (wall : κ)
  | claim (txid : ι)
  | release (txid : ι)
  | commit (txid : ι)

section Step

variable {κ ι : Type*}

/-- `getTime ()`, the time and what is left in the slot of `clockArr`. -/
def getTime (wall : κ) (clock : Option κ) : κ × Option κ :=
  match clock with
  | none => (wall, some wall)
  | some t => (t, some t)

/-- The end of `preempt`: the queue is stored, and something was readied or not. -/
def preemptResult [Zero κ] (readied rest : List (Item κ ι)) : Option (Option κ) :=
  if readied.isEmpty then (peek rest).map fun _ => some 0 else some none

variable [LinearOrder κ] [Zero κ] [DecidableEq ι]

/-- The end of `cleanPrefix`. -/
def cleaned (s : Clockwork κ ι) (clock : Option κ) (now : κ) (before readied rest : List (Item κ ι)) :
    Clockwork κ ι × Local κ ι :=
  ({ s with trace := ⟨now, before, readied, rest, preemptResult readied rest⟩ :: s.trace },
    ⟨rest, clock, .idle⟩)

/-- `cleaner` on the next element of the prefix. -/
def cleanStep (s : Clockwork κ ι) (clock : Option κ) (before readied : List (Item κ ι)) :
    List (Item κ ι) → Clockwork κ ι × Local κ ι
  | [] => cleaned s clock (getTime s.wall clock).1 before readied []
  | e :: rest =>
    let now := (getTime s.wall clock).1
    let clock := (getTime s.wall clock).2
    if now < e.key then cleaned s clock now before readied (e :: rest)
    else if s.txid e.value.1 = 0 then
      ({ s with txid := update s.txid e.value.1 2, ready := s.ready ++ [⟨e, now⟩] },
        ⟨before, clock, .cleaning before (readied ++ [e]) rest⟩)
    else if s.txid e.value.1 = 1 then (s, ⟨before, clock, .cleaning before readied (e :: rest)⟩)
    else (s, ⟨before, clock, .cleaning before readied rest⟩)

/-- One step of a processor, or of another party. -/
def timeStep (k : Choice κ ι) (s : Clockwork κ ι) (l : Local κ ι) :
    Option (Clockwork κ ι × Local κ ι) :=
  match k with
  | .tick wall => if s.wall ≤ wall then some ({ s with wall := wall }, l) else none
  | .claim x =>
    if s.txid x = 0 then some ({ s with txid := update s.txid x 1 }, l) else none
  | .release x =>
    if s.txid x = 1 then some ({ s with txid := update s.txid x 0 }, l) else none
  | .commit x =>
    if s.txid x = 2 then none
    else some ({ s with txid := update s.txid x 2, others := x :: s.others }, l)
  | .getTime =>
    match l.pc with
    | .idle => some (s, { l with clock := (getTime s.wall l.clock).2 })
    | .cleaning _ _ _ => none
  | .preemptTime =>
    match l.pc with
    | .idle => some (s, { l with clock := none })
    | .cleaning _ _ _ => none
  | .timeWait time x =>
    match l.pc with
    | .idle => some ({ s with next := s.next + 1 }, { l with timeQ := enque l.timeQ time (x, s.next) })
    | .cleaning _ _ _ => none
  | .preempt =>
    match l.pc with
    | .idle => if l.timeQ.isEmpty then some (s, l)
      else some (s, { l with pc := .cleaning l.timeQ [] l.timeQ })
    | .cleaning _ _ _ => none
  | .clean =>
    match l.pc with
    | .idle => none
    | .cleaning before readied rest => some (cleanStep s l.clock before readied rest)

section Equations

attribute [local simp] timeStep

end Equations

/-- The processors. -/
def timeProcess (τ κ ι : Type*) [LinearOrder κ] [Zero κ] [DecidableEq ι] :
    Process τ (Choice κ ι) (Clockwork κ ι) (Local κ ι) where
  step _ := timeStep

end Step

/-- Nothing waits, and no transaction id has been used. -/
def Initial {τ κ ι : Type*} (c : Config τ (Clockwork κ ι) (Local κ ι)) : Prop :=
  (∀ x, c.shared.txid x = 0) ∧ c.shared.ready = [] ∧ c.shared.others = [] ∧ c.shared.trace = [] ∧
    ∀ p, (c.loc p) = ⟨[], none, .idle⟩

section Invariant

variable {τ κ ι : Type*} [LinearOrder κ]

/-- In the order of insertion. -/
def InsertedBefore (v w : ι × ℕ) : Prop := v.2 < w.2

/-- The transaction ids that have been committed, by a `preempt` or by another party. -/
def Clockwork.committed (s : Clockwork κ ι) : List ι :=
  s.ready.map (fun f => f.item.value.1) ++ s.others

/-- What holds of a `preempt` that has returned. -/
structure Preempted.Ok (s : Clockwork κ ι) (r : Preempted κ ι) : Prop where
  ordered : Ordered InsertedBefore r.before
  /-- what is due is taken off, and the rest is kept -/
  after : r.after = r.before.filter fun e => r.now < e.key
  /-- what is readied was due, and is readied in the order of the queue -/
  readied : r.readied.Sublist (r.before.filter fun e => e.key ≤ r.now)
  fired : ∀ e ∈ r.readied, ⟨e, r.now⟩ ∈ s.ready
  /-- what was due has been committed -/
  committed : ∀ e ∈ r.before, e.key ≤ r.now → s.txid e.value.1 = 2

/-- What holds of the transaction ids and the records. -/
structure Clockwork.Ok (s : Clockwork κ ι) : Prop where
  range : ∀ x, s.txid x = 0 ∨ s.txid x = 1 ∨ s.txid x = 2
  committed : ∀ x, s.txid x = 2 ↔ x ∈ s.committed
  once : s.committed.Nodup
  early : ∀ f ∈ s.ready, f.item.key ≤ f.now ∧ f.now ≤ s.wall
  trace : ∀ r ∈ s.trace, r.Ok s

/-- What holds of the prefix that a `cleanPrefix` has gone through. -/
structure Gone (s : Clockwork κ ι) (clock : Option κ) (done readied : List (Item κ ι)) : Prop where
  sublist : readied.Sublist done
  due : ∀ e ∈ done, ∃ t, clock = some t ∧ e.key ≤ t
  committed : ∀ e ∈ done, s.txid e.value.1 = 2
  fired : ∀ e ∈ readied, ∃ t, clock = some t ∧ ⟨e, t⟩ ∈ s.ready

/-- What holds of a processor. -/
structure Local.Ok (s : Clockwork κ ι) (l : Local κ ι) : Prop where
  ordered : Ordered InsertedBefore l.timeQ
  lt : ∀ e ∈ l.timeQ, e.value.2 < s.next
  clock : ∀ t, l.clock = some t → t ≤ s.wall
  cleaning : ∀ before readied rest, l.pc = .cleaning before readied rest →
    before = l.timeQ ∧ ∃ done, l.timeQ = done ++ rest ∧ Gone s l.clock done readied

structure Inv (c : Config τ (Clockwork κ ι) (Local κ ι)) : Prop where
  shared : c.shared.Ok
  threads : ∀ p, (c.loc p).Ok c.shared

/-- What every step keeps. -/
structure Extends (s s' : Clockwork κ ι) : Prop where
  txid : ∀ x, s.txid x = 2 → s'.txid x = 2
  next : s.next ≤ s'.next
  wall : s.wall ≤ s'.wall
  ready : s.ready ⊆ s'.ready

variable {s s' : Clockwork κ ι}

theorem Extends.refl (s : Clockwork κ ι) : Extends s s :=
  ⟨fun _ => id, le_rfl, le_rfl, List.Subset.refl _⟩

theorem Preempted.Ok.mono (hext : Extends s s') {r : Preempted κ ι} (h : r.Ok s) : r.Ok s' where
  ordered := h.ordered
  after := h.after
  readied := h.readied
  fired e he := hext.ready (h.fired e he)
  committed e he hle := hext.txid _ (h.committed e he hle)

theorem Gone.mono (hext : Extends s s') {clock : Option κ} {done readied : List (Item κ ι)}
    (h : Gone s clock done readied) : Gone s' clock done readied where
  sublist := h.sublist
  due := h.due
  committed e he := hext.txid _ (h.committed e he)
  fired e he := by
    obtain ⟨t, ht, hmem⟩ := h.fired e he
    exact ⟨t, ht, hext.ready hmem⟩

theorem Local.Ok.mono (hext : Extends s s') {l : Local κ ι} (h : l.Ok s) : l.Ok s' where
  ordered := h.ordered
  lt e he := (h.lt e he).trans_le hext.next
  clock t ht := (h.clock t ht).trans hext.wall
  cleaning before readied rest hpc := by
    obtain ⟨hbefore, done, hq, hgone⟩ := h.cleaning before readied rest hpc
    exact ⟨hbefore, done, hq, hgone.mono hext⟩

/-- A step that commits nothing. -/
theorem Clockwork.Ok.next (h : s.Ok) (hext : Extends s s')
    (hrange : ∀ x, s'.txid x = 0 ∨ s'.txid x = 1 ∨ s'.txid x = 2)
    (htxid : ∀ x, s'.txid x = 2 → s.txid x = 2) (hready : s'.ready = s.ready)
    (hothers : s'.others = s.others) (htrace : ∀ r ∈ s'.trace, r ∈ s.trace ∨ r.Ok s') : s'.Ok where
  range := hrange
  committed x := by
    unfold Clockwork.committed
    rw [hready, hothers]
    exact ⟨fun hx => (h.committed x).1 (htxid x hx), fun hx => hext.txid x ((h.committed x).2 hx)⟩
  once := by
    unfold Clockwork.committed
    rw [hready, hothers]
    exact h.once
  early f hf := by
    rw [hready] at hf
    obtain ⟨hkey, hnow⟩ := h.early f hf
    exact ⟨hkey, hnow.trans hext.wall⟩
  trace r hr := (htrace r hr).elim (fun hr => (h.trace r hr).mono hext) id

/-- A step that commits transaction id `x`, which has not been committed. -/
theorem Clockwork.Ok.commit [DecidableEq ι] (h : s.Ok) (hext : Extends s s') {x : ι}
    (hx : s.txid x ≠ 2) (htxid : s'.txid = update s.txid x 2)
    (hperm : s'.committed.Perm (x :: s.committed))
    (hready : ∀ f ∈ s'.ready, f ∈ s.ready ∨ f.item.key ≤ f.now ∧ f.now ≤ s'.wall)
    (htrace : s'.trace = s.trace) : s'.Ok where
  range y := by
    rw [htxid]
    by_cases hyx : y = x
    · simp [hyx]
    · rw [update_of_ne hyx]
      exact h.range y
  committed y := by
    rw [hperm.mem_iff, mem_cons, htxid]
    by_cases hyx : y = x
    · simp [hyx]
    · rw [update_of_ne hyx, h.committed y]
      simp [hyx]
  once := by
    refine hperm.nodup_iff.2 (nodup_cons.2 ⟨fun hmem => ?_, h.once⟩)
    exact hx ((h.committed x).2 hmem)
  early f hf := by
    rcases hready f hf with hf | hf
    · obtain ⟨hkey, hnow⟩ := h.early f hf
      exact ⟨hkey, hnow.trans hext.wall⟩
    · exact hf
  trace r hr := by
    rw [htrace] at hr
    exact (h.trace r hr).mono hext

/-- A `preempt` that returns. -/
theorem cleaned_ok {clock : Option κ} {now : κ} {done readied rest : List (Item κ ι)}
    {result : Option (Option κ)} (hordered : Ordered InsertedBefore (done ++ rest))
    (hgone : Gone s clock done readied) (hclock : ∀ t, clock = some t → t = now)
    (hrest : ∀ e ∈ rest.head?, now < e.key) :
    Preempted.Ok s ⟨now, done ++ rest, readied, rest, result⟩ := by
  have hdue : ∀ e ∈ done, e.key ≤ now := by
    intro e he
    obtain ⟨t, ht, hle⟩ := hgone.due e he
    exact hclock t ht ▸ hle
  have hlate : ∀ e ∈ rest, now < e.key := by
    intro e he
    cases rest with
    | nil => cases he
    | cons y ys =>
      have hy : now < y.key := hrest y rfl
      have hpair := (pairwise_append.1 hordered).2.1
      rcases mem_cons.1 he with rfl | he
      · exact hy
      · exact hy.trans_le ((pairwise_cons.1 hpair).1 e he).key_le
  refine ⟨hordered, ?_, ?_, ?_, ?_⟩
  · have h1 : done.filter (fun e => now < e.key) = [] :=
      filter_eq_nil_iff.2 fun e he => by simpa using hdue e he
    have h2 : rest.filter (fun e => now < e.key) = rest :=
      filter_eq_self.2 fun e he => by simpa using hlate e he
    rw [filter_append, h1, h2, nil_append]
  · have h1 : done.filter (fun e => e.key ≤ now) = done :=
      filter_eq_self.2 fun e he => by simpa using hdue e he
    rw [filter_append, h1]
    exact hgone.sublist.trans (sublist_append_left _ _)
  · intro e he
    obtain ⟨t, ht, hmem⟩ := hgone.fired e he
    exact hclock t ht ▸ hmem
  · intro e he hle
    rcases mem_append.1 he with he | he
    · exact hgone.committed e he
    · exact absurd hle (not_le.2 (hlate e he))

section Steps

variable [Zero κ] [DecidableEq ι] {l l' : Local κ ι}

omit [LinearOrder κ] [Zero κ] [DecidableEq ι] in
theorem getTime_clock (wall : κ) (clock : Option κ) :
    (getTime wall clock).2 = some (getTime wall clock).1 := by
  cases clock <;> rfl

omit [Zero κ] [DecidableEq ι] in
theorem getTime_le (hl : l.Ok s) : (getTime s.wall l.clock).1 ≤ s.wall := by
  cases hclock : l.clock with
  | none => exact le_rfl
  | some t => exact hl.clock t hclock

omit [Zero κ] [DecidableEq ι] in
/-- `getTime` reads the clock or what it has read before. -/
theorem Gone.getTime {clock : Option κ} {done readied : List (Item κ ι)}
    (h : Gone s clock done readied) :
    Gone s (Timeout.getTime s.wall clock).2 done readied := by
  have hsome {t : κ} (ht : clock = some t) : (Timeout.getTime s.wall clock).2 = some t := by
    rw [ht]
    rfl
  refine ⟨h.sublist, fun e he => ?_, h.committed, fun e he => ?_⟩
  · obtain ⟨t, ht, hle⟩ := h.due e he
    exact ⟨t, hsome ht, hle⟩
  · obtain ⟨t, ht, hmem⟩ := h.fired e he
    exact ⟨t, hsome ht, hmem⟩

omit [Zero κ] [DecidableEq ι] in
/-- `cleanPrefix` goes on behind an element that is due and committed. -/
theorem Gone.snoc {clock : Option κ} {done readied readied' : List (Item κ ι)}
    (h : Gone s clock done readied) {e : Item κ ι} {t : κ} (ht : clock = some t) (hdue : e.key ≤ t)
    (h2 : s.txid e.value.1 = 2)
    (hreadied : readied' = readied ∨ readied' = readied ++ [e] ∧ ⟨e, t⟩ ∈ s.ready) :
    Gone s clock (done ++ [e]) readied' where
  sublist := by
    rcases hreadied with rfl | ⟨rfl, -⟩
    · exact h.sublist.trans (sublist_append_left _ _)
    · exact h.sublist.append (List.Sublist.refl _)
  due e' he' := by
    rcases mem_append.1 he' with he' | he'
    · exact h.due e' he'
    · obtain rfl := mem_singleton.1 he'
      exact ⟨t, ht, hdue⟩
  committed e' he' := by
    rcases mem_append.1 he' with he' | he'
    · exact h.committed e' he'
    · obtain rfl := mem_singleton.1 he'
      exact h2
  fired e' he' := by
    rcases hreadied with rfl | ⟨rfl, hmem⟩
    · exact h.fired e' he'
    · rcases mem_append.1 he' with he' | he'
      · exact h.fired e' he'
      · obtain rfl := mem_singleton.1 he'
        exact ⟨t, ht, hmem⟩

/-- One step of a `preempt`. -/
theorem cleanStep_ok (hs : s.Ok) (hl : l.Ok s) {before readied rest : List (Item κ ι)}
    (hpc : l.pc = .cleaning before readied rest)
    (h : cleanStep s l.clock before readied rest = (s', l')) :
    Extends s s' ∧ s'.Ok ∧ l'.Ok s' := by
  obtain ⟨rfl, done, hq, hgone⟩ := hl.cleaning _ _ _ hpc
  have hnow := getTime_le hl
  have hordered := hl.ordered
  have hlt := hl.lt
  have hclock (t : κ) (ht : (getTime s.wall l.clock).2 = some t) : t ≤ s.wall := by
    rw [getTime_clock] at ht
    exact Option.some.inj ht ▸ hnow
  have hgone' := hgone.getTime
  rw [hq] at hordered hlt h
  -- `cleanPrefix` returns with `rest`
  have hreturn {clock : Option κ} (hcl : ∀ t, clock = some t → t = (getTime s.wall l.clock).1)
      (hg : Gone s clock done readied) (hrest : ∀ e ∈ rest.head?, (getTime s.wall l.clock).1 < e.key)
      (heq : cleaned s clock (getTime s.wall l.clock).1 (done ++ rest) readied rest = (s', l')) :
      Extends s s' ∧ s'.Ok ∧ l'.Ok s' := by
    cases heq
    have hext : Extends s { s with
        trace := ⟨(getTime s.wall l.clock).1, done ++ rest, readied, rest,
          preemptResult readied rest⟩ :: s.trace } :=
      ⟨fun _ => id, le_rfl, le_rfl, List.Subset.refl _⟩
    refine ⟨hext, hs.next hext hs.range (fun _ => id) rfl rfl fun r hr => ?_, ?_⟩
    · rcases mem_cons.1 hr with rfl | hr
      · exact .inr ((cleaned_ok hordered hg hcl hrest).mono hext)
      · exact .inl hr
    · refine ⟨(pairwise_append.1 hordered).2.1, fun e he => ?_, fun t ht => ?_, nofun⟩
      · exact hlt e (mem_append_right _ he)
      · exact hcl t ht ▸ hnow
  cases rest with
  | nil =>
    refine hreturn (fun t ht => ?_) hgone nofun h
    rw [show l.clock = some t from ht]
    rfl
  | cons e rest =>
    simp only [cleanStep] at h
    split at h
    · refine hreturn (fun t ht => ?_) hgone' ?_ h
      · rw [getTime_clock] at ht
        exact (Option.some.inj ht).symm
      · intro e' he'
        obtain rfl : e = e' := Option.some.inj he'
        assumption
    · have hdue : e.key ≤ (getTime s.wall l.clock).1 := not_lt.1 ‹_›
      have hsplit : done ++ e :: rest = (done ++ [e]) ++ rest := by simp
      split at h
      · -- the `cas` wins
        cases h
        have hx : s.txid e.value.1 ≠ 2 := by omega
        have hext : Extends s { s with
            txid := update s.txid e.value.1 2
            ready := s.ready ++ [⟨e, (getTime s.wall l.clock).1⟩] } := by
          refine ⟨fun x hx2 => ?_, le_rfl, le_rfl, subset_append_left _ _⟩
          by_cases hxe : x = e.value.1
          · subst hxe
            exact update_self _ _ _
          · exact (update_of_ne hxe _ _).trans hx2
        refine ⟨hext, hs.commit hext hx rfl ?_ ?_ rfl, ?_⟩
        · simp only [Clockwork.committed, map_append, map_cons, map_nil,
            append_assoc, List.cons_append, nil_append]
          exact perm_middle
        · intro f hf
          rcases mem_append.1 hf with hf | hf
          · exact .inl hf
          · obtain rfl := mem_singleton.1 hf
            exact .inr ⟨hdue, hnow⟩
        · refine ⟨hordered, hlt, hclock, fun before' readied' rest' hpc' => ?_⟩
          cases hpc'
          exact ⟨rfl, done ++ [e], hsplit, (hgone'.mono hext).snoc (getTime_clock _ _) hdue
            (update_self _ _ _)
            (.inr ⟨rfl, mem_append_right _ (mem_singleton_self _)⟩)⟩
      · split at h
        · -- claimed: try again
          cases h
          refine ⟨.refl _, hs, hordered, hlt, hclock, fun before' readied' rest' hpc' => ?_⟩
          cases hpc'
          exact ⟨rfl, done, rfl, hgone'⟩
        · -- already committed
          cases h
          refine ⟨.refl _, hs, hordered, hlt, hclock, fun before' readied' rest' hpc' => ?_⟩
          cases hpc'
          have h2 : s.txid e.value.1 = 2 := by
            rcases hs.range e.value.1 with h0 | h1 | h2
            · contradiction
            · contradiction
            · exact h2
          exact ⟨rfl, done ++ [e], hsplit, hgone'.snoc (getTime_clock _ _) hdue h2 (.inl rfl)⟩

/-- A step keeps what holds of the records and of its processor. -/
theorem timeStep_ok {k : Choice κ ι} (hs : s.Ok) (hl : l.Ok s) (h : timeStep k s l = some (s', l')) :
    Extends s s' ∧ s'.Ok ∧ l'.Ok s' := by
  have htrace : ∀ r ∈ s.trace, r ∈ s.trace ∨ r.Ok s := fun r hr => .inl hr
  have hset {x v} (hx : s.txid x ≠ 2) (hv : v = 0 ∨ v = 1) :
      Extends s { s with txid := update s.txid x v } ∧ ({ s with txid := update s.txid x v }).Ok ∧
        l.Ok { s with txid := update s.txid x v } := by
    have hext : Extends s { s with txid := update s.txid x v } := by
      refine ⟨fun y hy => ?_, le_rfl, le_rfl, List.Subset.refl _⟩
      exact (update_of_ne (by rintro rfl; exact hx hy) _ _).trans hy
    refine ⟨hext, hs.next hext (fun y => ?_) (fun y hy => ?_) rfl rfl fun r hr => .inl hr,
      hl.mono hext⟩
    · by_cases hyx : y = x
      · rcases hv with rfl | rfl <;> simp [hyx]
      · simpa [hyx] using hs.range y
    · by_cases hyx : y = x
      · rcases hv with rfl | rfl <;> simp [hyx] at hy
      · simpa [hyx] using hy
  -- steps of a processor that is not in a `preempt`
  have hidle {f : Option (Clockwork κ ι × Local κ ι)} (hpc : l.pc = .idle)
      (h : (match l.pc with | .idle => f | .cleaning _ _ _ => none) = some (s', l')) :
      f = some (s', l') := by
    rwa [hpc] at h
  cases k with
  | tick wall =>
    simp only [timeStep] at h
    split at h
    · cases h
      have hext : Extends s { s with wall := wall } := ⟨fun _ => id, le_rfl, ‹_›, List.Subset.refl _⟩
      exact ⟨hext, hs.next hext hs.range (fun _ => id) rfl rfl fun r hr => .inl hr, hl.mono hext⟩
    · cases h
  | claim x =>
    simp only [timeStep] at h
    split at h
    · cases h
      exact hset (by omega) (.inr rfl)
    · cases h
  | release x =>
    simp only [timeStep] at h
    split at h
    · cases h
      exact hset (by omega) (.inl rfl)
    · cases h
  | commit x =>
    simp only [timeStep] at h
    split at h
    · cases h
    · cases h
      have hext : Extends s
          { s with txid := update s.txid x 2, others := x :: s.others } := by
        refine ⟨fun y hy => ?_, le_rfl, le_rfl, List.Subset.refl _⟩
        exact (update_of_ne (by rintro rfl; contradiction) _ _).trans hy
      refine ⟨hext, hs.commit hext ‹_› rfl ?_ (fun f hf => .inl hf) rfl, hl.mono hext⟩
      exact perm_middle
  | getTime =>
    cases hpc : l.pc with
    | cleaning => simp [timeStep, hpc] at h
    | idle =>
      cases hidle hpc h
      refine ⟨.refl _, hs, hl.ordered, hl.lt, fun t ht => ?_, fun _ _ _ hpc' => ?_⟩
      · rw [getTime_clock] at ht
        exact Option.some.inj ht ▸ getTime_le hl
      · simp [hpc] at hpc'
  | preemptTime =>
    cases hpc : l.pc with
    | cleaning => simp [timeStep, hpc] at h
    | idle =>
      cases hidle hpc h
      refine ⟨.refl _, hs, hl.ordered, hl.lt, nofun, fun _ _ _ hpc' => ?_⟩
      simp [hpc] at hpc'
  | timeWait time x =>
    cases hpc : l.pc with
    | cleaning => simp [timeStep, hpc] at h
    | idle =>
      cases hidle hpc h
      have hext : Extends s { s with next := s.next + 1 } :=
        ⟨fun _ => id, Nat.le_succ _, le_rfl, List.Subset.refl _⟩
      refine ⟨hext, hs.next hext hs.range (fun _ => id) rfl rfl fun r hr => .inl hr,
        hl.ordered.enque time hl.lt, fun e he => ?_, (hl.mono hext).clock, fun _ _ _ hpc' => ?_⟩
      · rcases mem_cons.1 ((perm_enque _ _ _).mem_iff.1 he) with rfl | he
        · exact Nat.lt_succ_self _
        · exact (hl.lt e he).trans (Nat.lt_succ_self _)
      · simp [hpc] at hpc'
  | preempt =>
    cases hpc : l.pc with
    | cleaning => simp [timeStep, hpc] at h
    | idle =>
      have h := hidle hpc h
      split at h
      · cases h
        exact ⟨.refl _, hs, hl⟩
      · cases h
        refine ⟨.refl _, hs, hl.ordered, hl.lt, hl.clock, fun before readied rest hpc' => ?_⟩
        cases hpc'
        exact ⟨rfl, [], rfl, List.Sublist.refl _, nofun, nofun, nofun⟩
  | clean =>
    cases hpc : l.pc with
    | idle => simp [timeStep, hpc] at h
    | cleaning before readied rest =>
      simp only [timeStep, hpc] at h
      exact cleanStep_ok hs hl hpc (Option.some.inj h)

end Steps

end Invariant

section Runs

variable {τ κ ι : Type*} [LinearOrder κ] [Zero κ] [DecidableEq ι] [DecidableEq τ]

omit [Zero κ] [DecidableEq ι] [DecidableEq τ] in
theorem inv_of_initial {c : Config τ (Clockwork κ ι) (Local κ ι)} (h : Initial c) : Inv c := by
  obtain ⟨htxid, hready, hothers, htrace, hloc⟩ := h
  refine ⟨⟨fun x => .inl (htxid x), fun x => ?_, ?_, ?_, ?_⟩, fun p => ?_⟩
  · simp [Clockwork.committed, htxid, hready, hothers]
  · simp [Clockwork.committed, hready, hothers]
  · simp [hready]
  · simp [htrace]
  · rw [hloc p]
    exact ⟨List.Pairwise.nil, nofun, nofun, nofun⟩

theorem inv_of_reachable {c : Config τ (Clockwork κ ι) (Local κ ι)}
    (h : (timeProcess τ κ ι).Reachable Initial c) : Inv c := by
  refine h.invariant (fun _ => inv_of_initial) ?_
  intro c p k s' l' _ _ hI hstep
  obtain ⟨hext, hs, hl⟩ := timeStep_ok hI.shared (hI.threads p) hstep
  refine ⟨hs, fun q => ?_⟩
  by_cases hq : q = p
  · subst hq
    rwa [Config.put_loc_self]
  · rw [Config.put_loc_of_ne hq]
    exact (hI.threads q).mono hext

/-- A step of a `preempt` moves a transaction id from `0` to `2` and readies a thread that waits
with it and is due, or it does neither. -/
def Fires (s s' : Clockwork κ ι) (l : Local κ ι) : Prop :=
  s'.txid = s.txid ∧ s'.ready = s.ready ∨
    ∃ e ∈ l.timeQ, ∃ now, e.key ≤ now ∧ s.txid e.value.1 = 0 ∧
      s'.txid = update s.txid e.value.1 2 ∧ s'.ready = s.ready ++ [⟨e, now⟩]

/-- What a `preempt` under way has readied. -/
def Pc.readied : Pc κ ι → List (Item κ ι)
  | .idle => []
  | .cleaning _ readied _ => readied

/-- A step of a `preempt` readies what it fires and goes on with the queue it has, or it is the last:
it stores the queue without what is due. -/
def Cleans (s s' : Clockwork κ ι) (l l' : Local κ ι) : Prop :=
  ∃ fired, s'.ready = s.ready ++ fired ∧
    (l'.pc ≠ .idle ∧ l'.timeQ = l.timeQ ∧ s'.trace = s.trace ∧
        l'.pc.readied = l.pc.readied ++ fired.map Firing.item ∨
      l'.pc = .idle ∧ fired = [] ∧ ∃ r : Preempted κ ι, s'.trace = r :: s.trace ∧ r.Ok s' ∧
        r.now = (getTime s.wall l.clock).1 ∧ r.before = l.timeQ ∧ r.readied = l.pc.readied ∧
        r.after = l'.timeQ)

/-- What it means that timeouts fire in order, never early and once. -/
structure FiresOnce (c : Config τ (Clockwork κ ι) (Local κ ι)) : Prop where
  /-- the queues are sorted by time, and by insertion where the times are equal -/
  ordered : ∀ p, Ordered InsertedBefore (c.loc p).timeQ
  /-- an insertion adds an element -/
  waits : ∀ p time x c', (timeProcess τ κ ι).fire (p, .timeWait time x) c = some c' →
    (c'.loc p).timeQ.Perm (⟨time, (x, c.shared.next)⟩ :: (c.loc p).timeQ)
  /-- a `preempt` takes off what is due, in order, and keeps the rest -/
  preempts : ∀ r ∈ c.shared.trace, r.Ok c.shared
  /-- each of them starts with nothing readied, and its last step stores what it has left -/
  starts : ∀ p c', (timeProcess τ κ ι).fire (p, .preempt) c = some c' →
    (c'.loc p).timeQ = (c.loc p).timeQ ∧ (c'.loc p).pc.readied = [] ∧
      ((c'.loc p).pc = .idle ↔ (c.loc p).timeQ = [])
  cleans : ∀ p c', (timeProcess τ κ ι).fire (p, .clean) c = some c' →
    Cleans c.shared c'.shared (c.loc p) (c'.loc p)
  /-- nothing else changes a queue -/
  keeps : ∀ p k c', (timeProcess τ κ ι).fire (p, k) c = some c' →
    (∀ q, q ≠ p → c'.loc q = c.loc q) ∧
      (k ≠ .clean → (∀ time x, k ≠ .timeWait time x) → (c'.loc p).timeQ = (c.loc p).timeQ)
  /-- it readies what it commits -/
  fires : ∀ p c', (timeProcess τ κ ι).fire (p, .clean) c = some c' →
    Fires c.shared c'.shared (c.loc p)
  early : ∀ f ∈ c.shared.ready, f.item.key ≤ f.now ∧ f.now ≤ c.shared.wall
  /-- of the branches of a choice one is committed, by one firing or by another party -/
  once : c.shared.committed.Nodup

omit [DecidableEq τ] in
theorem fires_of_clean {s s' : Clockwork κ ι} {l l' : Local κ ι} (hl : l.Ok s)
    (h : timeStep .clean s l = some (s', l')) : Fires s s' l := by
  cases hpc : l.pc with
  | idle => simp [timeStep, hpc] at h
  | cleaning before readied rest =>
    obtain ⟨-, done, hq, -⟩ := hl.cleaning _ _ _ hpc
    simp only [timeStep, hpc] at h
    replace h := Option.some.inj h
    cases rest with
    | nil =>
      cases h
      exact .inl ⟨rfl, rfl⟩
    | cons e rest =>
      simp only [cleanStep] at h
      split at h
      · cases h
        exact .inl ⟨rfl, rfl⟩
      · split at h
        · cases h
          refine .inr ⟨e, ?_, _, not_lt.1 ‹_›, ‹_›, rfl, rfl⟩
          rw [hq]
          exact mem_append_right _ mem_cons_self
        · split at h <;> obtain ⟨rfl, -⟩ := Prod.mk.inj h <;> exact .inl ⟨rfl, rfl⟩

omit [DecidableEq τ] in
theorem cleans_of_clean {s s' : Clockwork κ ι} {l l' : Local κ ι} (hs : s.Ok) (hl : l.Ok s)
    (h : timeStep .clean s l = some (s', l')) : Cleans s s' l l' := by
  have htrace := (timeStep_ok hs hl h).2.1.trace
  cases hpc : l.pc with
  | idle => simp [timeStep, hpc] at h
  | cleaning before readied rest =>
    obtain ⟨rfl, done, -, -⟩ := hl.cleaning _ _ _ hpc
    simp only [timeStep, hpc] at h
    replace h := Option.some.inj h
    -- the last step
    have hlast {clock : Option κ} {rest : List (Item κ ι)} (heq : cleaned s clock
        (getTime s.wall l.clock).1 l.timeQ readied rest = (s', l')) : Cleans s s' l l' := by
      cases heq
      refine ⟨[], (append_nil _).symm, .inr ⟨rfl, rfl, _, rfl, ?_, rfl, rfl, ?_, rfl⟩⟩
      · exact htrace _ mem_cons_self
      · rw [hpc]
        rfl
    cases rest with
    | nil => exact hlast h
    | cons e rest =>
      simp only [cleanStep] at h
      split at h
      · exact hlast h
      · split at h
        · cases h
          exact ⟨_, rfl, .inl ⟨nofun, rfl, rfl, by rw [hpc]; rfl⟩⟩
        · split at h <;> cases h <;>
            exact ⟨[], (append_nil _).symm, .inl ⟨nofun, rfl, rfl, by rw [hpc]; simp [Pc.readied]⟩⟩

omit [DecidableEq τ] in
theorem preempt_starts {s s' : Clockwork κ ι} {l l' : Local κ ι}
    (h : timeStep .preempt s l = some (s', l')) :
    l'.timeQ = l.timeQ ∧ l'.pc.readied = [] ∧ (l'.pc = .idle ↔ l.timeQ = []) := by
  cases hpc : l.pc with
  | cleaning => simp [timeStep, hpc] at h
  | idle =>
    simp only [timeStep, hpc] at h
    split at h
    · cases h
      simp_all [Pc.readied]
    · cases h
      simp_all [Pc.readied]

omit [DecidableEq τ] in
/-- Only an insertion and the steps of a `preempt` touch the queue of a processor. -/
theorem timeStep_timeQ {k : Choice κ ι} {s s' : Clockwork κ ι} {l l' : Local κ ι}
    (h : timeStep k s l = some (s', l')) (hclean : k ≠ .clean)
    (hwait : ∀ time x, k ≠ .timeWait time x) : l'.timeQ = l.timeQ := by
  cases k with
  | clean => exact absurd rfl hclean
  | timeWait time x => exact absurd rfl (hwait time x)
  | preempt => exact (preempt_starts h).1
  | getTime | preemptTime =>
    simp only [timeStep] at h
    split at h <;> cases h
    rfl
  | tick | claim | release | commit =>
    simp only [timeStep] at h
    split at h <;> cases h
    rfl

end Runs

/-- Processor `0` has threads that wait for the times `5`, `3`, `5` and `9`, two of them with the
transaction id `1`; another party commits `2`, and at time `6` the processor is preempted. -/
def fourWaits : List (ℕ × Choice ℕ ℕ) :=
  [(0, .timeWait 5 1), (0, .timeWait 3 2), (0, .timeWait 5 0), (0, .timeWait 9 1), (1, .commit 2),
    (1, .tick 6), (0, .preemptTime), (0, .preempt), (0, .clean), (0, .clean), (1, .claim 0),
    (0, .clean), (1, .release 0), (0, .clean), (0, .clean)]

end MultiMLton.Timeout
