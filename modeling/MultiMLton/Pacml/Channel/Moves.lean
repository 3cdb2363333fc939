import Mathlib.Tactic
import MultiMLton.Pacml.Channel.Network

/-!
# What a step of the threads can do

* `Quiet`: the steps of the code of an operation that touch neither a queue nor a transaction id
  nor the scheduler;
* `Move`: all steps, one by one, and `move_of_step`.
-/

namespace MultiMLton.Channel

open List Option

variable {κ τ α : Type*}

/-- Steps that only take and release the lock, set the priority, or wait. -/
inductive Quiet (op : Op κ α) : Pc ℕ ℕ α → Pc ℕ ℕ α → Prop
  | start : Quiet op .begin .getLock
  | getLock : Quiet op .getLock .tryLp
  | again (e : Entry ℕ ℕ α) : Quiet op (.matchLp e) (.matchLp e)
  | lost (e : Entry ℕ ℕ α) (hmode : op.mode = .block) : Quiet op (.matchLp e) (.undeque e)
  | won (e : Entry ℕ ℕ α) (hmode : op.mode ≠ .block) : Quiet op (.won e) (.wonRelease e)
  | wonBlock (e : Entry ℕ ℕ α) (hmode : op.mode = .block) : Quiet op (.won e) (.commit e)
  | release (e : Entry ℕ ℕ α) : Quiet op (.wonRelease e) (.ready e)
  | releaseBlock (e : Entry ℕ ℕ α) (hmode : op.mode = .block) : Quiet op (.wonRelease e) (.reify e)
  | reify (e : Entry ℕ ℕ α) : Quiet op (.reify e) (.ready e)
  | lostRelease : Quiet op .lostRelease .away
  | parkRelease : Quiet op .parkRelease .parked
  | resumed (v : Option α) : Quiet op (.resumed v) (.reifyResumed v)
  | reifyResumed (v : Option α) : Quiet op (.reifyResumed v) (.done (.ret v))
  | failRelease : Quiet op .failRelease (.done .doitFail)

section Memory

variable [DecidableEq κ] {m m' : Mem κ ℕ ℕ τ α}

theorem Mem.setQueue_queue (c c' : κ) (d d' : Side) (q : List (Entry ℕ ℕ α)) :
    ((m.setQueue c d q).chan c').queue d' =
      if c' = c ∧ d' = d then q else (m.chan c').queue d' := by
  unfold Mem.setQueue Mem.setChan
  by_cases hc : c' = c
  · subst hc
    by_cases hd : d' = d
    · subst hd
      simp
    · simp [hd]
  · simp [hc]

/-- The memories differ in locks and priorities only. -/
structure SameQueues (m m' : Mem κ ℕ ℕ τ α) : Prop where
  queue : ∀ c d, (m'.chan c).queue d = (m.chan c).queue d
  txid : m'.txid = m.txid
  ready : m'.ready = m.ready

omit [DecidableEq κ] in
theorem SameQueues.refl (m : Mem κ ℕ ℕ τ α) : SameQueues m m := ⟨fun _ _ => rfl, rfl, rfl⟩

omit [DecidableEq κ] in
theorem SameQueues.trans {m'' : Mem κ ℕ ℕ τ α} (h : SameQueues m m') (h' : SameQueues m' m'') :
    SameQueues m m'' :=
  ⟨fun c d => (h'.queue c d).trans (h.queue c d), h'.txid.trans h.txid, h'.ready.trans h.ready⟩

theorem sameQueues_setChan {c : κ} {ch : Chan ℕ ℕ τ α} (h : ch.queue = (m.chan c).queue) :
    SameQueues m (m.setChan c ch) := by
  refine ⟨fun c' d => ?_, rfl, rfl⟩
  unfold Mem.setChan
  by_cases hc : c' = c
  · subst hc
    simp [h]
  · simp [hc]

variable [DecidableEq τ]

theorem sameQueues_getLock {c : κ} {self : τ} (h : m.getLock c self = some m') :
    SameQueues m m' := by
  unfold Mem.getLock at h
  split at h
  · cases h
    exact sameQueues_setChan rfl
  · split at h
    · cases h
      exact sameQueues_setChan rfl
    · cases h

theorem sameQueues_releaseLock {c : κ} {self : τ} (h : m.releaseLock c self = some m') :
    SameQueues m m' := by
  unfold Mem.releaseLock at h
  split at h
  · cases h
  · split at h
    · cases h
      exact sameQueues_setChan rfl
    · cases h

end Memory

variable [DecidableEq κ]

/-- The steps, one by one. -/
inductive Move (n : Net κ τ α) : Local κ α → Net κ τ α → Local κ α → Prop
  | call (op : Op κ α) (hmode : op.mode = .call ∨ op.mode = .poll) :
      Move n .idle { n with
        next := n.next + 1, own := Function.update n.own n.next n.next
        req := Function.update n.req n.next [⟨op.chan, op.offer⟩] }
        (.run .call n.next n.next op .begin)
  | sync (bevts : List (BaseEvt κ α)) :
      Move n .idle { n with
        next := n.next + 1, own := Function.update n.own n.next n.next
        req := Function.update n.req n.next bevts } (.sync n.next bevts)
  | spawn (x : ℕ) (b : BaseEvt κ α) (hx : x ∈ n.choices) (hb : b ∈ n.req x) :
      Move n .idle { n with next := n.next + 1, own := Function.update n.own n.next x }
        (.run .par x n.next b.blockFn .getLock)
  | startOther (x : ℕ) (hx : x ∈ n.choices) : Move n .idle n (.other x)
  | poll {x : ℕ} {bevts : List (BaseEvt κ α)} {m m' : Mem κ ℕ ℕ τ α} (c : κ) (d : Side)
      (q dropped : List (Entry ℕ ℕ α)) (hm : SameQueues n.mem m)
      (hm' : SameQueues (m.setQueue c d q) m') (hq : (n.mem.chan c).queue d = dropped ++ q)
      (hdropped : ∀ e ∈ dropped, n.mem.txid e.txid = 2) :
      Move n (.sync x bevts) { n with mem := m' } (.sync x bevts)
  | doit {x : ℕ} {bevts : List (BaseEvt κ α)} (b : BaseEvt κ α) (hb : b ∈ bevts) :
      Move n (.sync x bevts) n (.run (.doit bevts) x x b.doitFn .getLock)
  | blockOne {x : ℕ} (b : BaseEvt κ α) :
      Move n (.sync x [b]) { n with exposed := x :: n.exposed }
        (.run .host x x b.blockFn .getLock)
  | blockMany {x : ℕ} (bevts : List (BaseEvt κ α)) :
      Move n (.sync x bevts) { n with exposed := x :: n.exposed, choices := x :: n.choices }
        (.waiting x)
  | quiet {role : Role κ α} {x h : ℕ} {op : Op κ α} {pc pc' : Pc ℕ ℕ α} {m : Mem κ ℕ ℕ τ α}
      (hpc : Quiet op pc pc') (hm : SameQueues n.mem m) :
      Move n (.run role x h op pc) { n with mem := m } (.run role x h op pc')
  | deque {role : Role κ α} {x h : ℕ} {op : Op κ α} (e : Entry ℕ ℕ α)
      (q dropped : List (Entry ℕ ℕ α))
      (hq : (n.mem.chan op.chan).queue op.theirs = dropped ++ e :: q)
      (hdropped : ∀ e ∈ dropped, n.mem.txid e.txid = 2)
      (hother : op.mode = .block → x ≠ e.txid) :
      Move n (.run role x h op .tryLp) { n with mem := n.mem.setQueue op.chan op.theirs q }
        (.run role x h op (.matchLp e))
  | same {role : Role κ α} {x h : ℕ} {op : Op κ α} (e : Entry ℕ ℕ α)
      (q dropped : List (Entry ℕ ℕ α))
      (hq : (n.mem.chan op.chan).queue op.theirs = dropped ++ e :: q)
      (hdropped : ∀ e ∈ dropped, n.mem.txid e.txid = 2)
      (hfirst : (cleanAndDeque n.mem ((n.mem.chan op.chan).queue op.theirs)).1 = some e)
      (hmode : op.mode = .block) (hown : x = e.txid) :
      Move n (.run role x h op .tryLp) { n with mem := n.mem.setQueue op.chan op.theirs q }
        (.run role x h op (.done .sameEvent))
  | nobody {role : Role κ α} {x h : ℕ} {op : Op κ α} {pc' : Pc ℕ ℕ α}
      (hdropped : ∀ e ∈ (n.mem.chan op.chan).queue op.theirs, n.mem.txid e.txid = 2)
      (hpc : pc' = .enque ∧ (op.mode = .call ∨ op.mode = .block) ∨
        pc' = .done .refused ∧ op.mode = .poll ∨ pc' = .failRelease ∧ op.mode = .doit) :
      Move n (.run role x h op .tryLp) { n with mem := n.mem.setQueue op.chan op.theirs [] }
        (.run role x h op pc')
  | claim {role : Role κ α} {x h : ℕ} {op : Op κ α} (e : Entry ℕ ℕ α) (hmode : op.mode = .block)
      (h0 : n.mem.txid x = 0) :
      Move n (.run role x h op (.matchLp e)) { n with mem := n.mem.setTxid x 1 }
        (.run role x h op (.claimed e))
  | winCall {role : Role κ α} {x h : ℕ} {op : Op κ α} (e : Entry ℕ ℕ α) (hmode : op.mode ≠ .block)
      (h0 : n.mem.txid e.txid = 0) :
      Move n (.run role x h op (.matchLp e)) { n with
        mem := n.mem.setTxid e.txid 2, log := op.commit x e :: n.log }
        (.run role x h op (.won e))
  | dropCall {role : Role κ α} {x h : ℕ} {op : Op κ α} (e : Entry ℕ ℕ α)
      (hmode : op.mode ≠ .block) (h0 : n.mem.txid e.txid ≠ 0) (h1 : n.mem.txid e.txid ≠ 1) :
      Move n (.run role x h op (.matchLp e)) n (.run role x h op .tryLp)
  | winBlock {role : Role κ α} {x h : ℕ} {op : Op κ α} (e : Entry ℕ ℕ α)
      (h0 : n.mem.txid e.txid = 0) :
      Move n (.run role x h op (.claimed e)) { n with
        mem := n.mem.setTxid e.txid 2, log := op.commit x e :: n.log }
        (.run role x h op (.won e))
  | retryBlock {role : Role κ α} {x h : ℕ} {op : Op κ α} (e : Entry ℕ ℕ α) :
      Move n (.run role x h op (.claimed e)) n (.run role x h op (.unclaim (some e)))
  | dropBlock {role : Role κ α} {x h : ℕ} {op : Op κ α} (e : Entry ℕ ℕ α)
      (h0 : n.mem.txid e.txid ≠ 0) (h1 : n.mem.txid e.txid ≠ 1) :
      Move n (.run role x h op (.claimed e)) n (.run role x h op (.unclaim none))
  | unclaim {role : Role κ α} {x h : ℕ} {op : Op κ α} (e : Option (Entry ℕ ℕ α)) :
      Move n (.run role x h op (.unclaim e)) { n with mem := n.mem.setTxid x 0 }
        (.run role x h op (e.elim .tryLp .matchLp))
  | commit {role : Role κ α} {x h : ℕ} {op : Op κ α} (e : Entry ℕ ℕ α) :
      Move n (.run role x h op (.commit e)) { n with mem := n.mem.setTxid x 2 }
        (.run role x h op (.wonRelease e))
  | ready {role : Role κ α} {x h : ℕ} {op : Op κ α} (e : Entry ℕ ℕ α) :
      Move n (.run role x h op (.ready e)) { n with mem := n.mem.pushReady e.thread op.offer }
        (.run role x h op (.done (.ret e.msg)))
  | undeque {role : Role κ α} {x h : ℕ} {op : Op κ α} (e : Entry ℕ ℕ α) :
      Move n (.run role x h op (.undeque e)) { n with
        mem := n.mem.setQueue op.chan op.theirs (e :: (n.mem.chan op.chan).queue op.theirs) }
        (.run role x h op .lostRelease)
  | enque {role : Role κ α} {x h : ℕ} {op : Op κ α} (kept dropped : List (Entry ℕ ℕ α))
      (hq : (n.mem.chan op.chan).queue op.ours = kept ++ dropped)
      (hdropped : ∀ e ∈ dropped, n.mem.txid e.txid = 2) :
      Move n (.run role x h op .enque) { n with
        mem := n.mem.setQueue op.chan op.ours (kept ++ [⟨x, h, op.offer⟩])
        exposed := x :: n.exposed } (.run role x h op .parkRelease)
  | resume {role : Role κ α} {x h : ℕ} {op : Op κ α} (v : Option α)
      (hv : (h, v) ∈ n.mem.ready) {ready : List (ℕ × Option α)}
      (hready : n.mem.ready.Perm ((h, v) :: ready)) {pc' : Pc ℕ ℕ α}
      (hpc : pc' = .resumed v ∧ op.mode = .block ∨ pc' = .done (.ret v)) :
      Move n (.run role x h op .parked) { n with mem := { n.mem with ready := ready } }
        (.run role x h op pc')
  | finishCall {x h : ℕ} {op : Op κ α} (r : Outcome α) :
      Move n (.run .call x h op (.done r)) { n with results := (x, r) :: n.results } .idle
  | finishSync {role : Role κ α} {x h : ℕ} {op : Op κ α} (v : Option α) :
      Move n (.run role x h op (.done (.ret v))) { n with results := (x, .ret v) :: n.results }
        .idle
  | retryDoit {bevts : List (BaseEvt κ α)} {x h : ℕ} {op : Op κ α} :
      Move n (.run (.doit bevts) x h op (.done .doitFail)) n (.sync x bevts)
  | finishPar {x h : ℕ} {op : Op κ α} (v : Option α) :
      Move n (.run .par x h op (.done (.ret v))) { n with woken := (x, v) :: n.woken } .idle
  | resumeHost {x : ℕ} (v : Option α) {woken : List (ℕ × Option α)} (hv : (x, v) ∈ n.woken)
      (hwoken : n.woken.Perm ((x, v) :: woken)) :
      Move n (.waiting x) { n with woken := woken, results := (x, .ret v) :: n.results } .idle
  | claimOther {x : ℕ} (h0 : n.mem.txid x = 0) :
      Move n (.other x) { n with mem := n.mem.setTxid x 1 } (.otherClaimed x)
  | lateOther {x : ℕ} : Move n (.other x) n .idle
  | commitOther {x : ℕ} (h0 : n.mem.txid x = 0) :
      Move n (.other x) { n with mem := n.mem.setTxid x 2, log := .other x :: n.log } .idle
  | commitClaimed {x : ℕ} :
      Move n (.otherClaimed x) { n with mem := n.mem.setTxid x 2, log := .other x :: n.log } .idle
  | giveBack {x : ℕ} : Move n (.otherClaimed x) { n with mem := n.mem.setTxid x 0 } .idle

section Split

variable {m : Mem κ ℕ ℕ τ α}

omit [DecidableEq κ] in
theorem cleaner_iff {e : Entry ℕ ℕ α} : m.cleaner e = true ↔ m.txid e.txid = 2 := by
  simp [Mem.cleaner]

omit [DecidableEq κ] in
/-- `cleanAndDeque` takes the committed elements off the head, and the first that is not. -/
theorem cleanAndDeque_split (q : List (Entry ℕ ℕ α)) :
    ∃ dropped, (∀ e ∈ dropped, m.txid e.txid = 2) ∧
      q = dropped ++ ((cleanAndDeque m q).1.toList ++ (cleanAndDeque m q).2) := by
  refine ⟨q.takeWhile m.cleaner, fun e he => cleaner_iff.1 (mem_takeWhile_imp he), ?_⟩
  have htail : (q.dropWhile m.cleaner).head?.toList ++ (q.dropWhile m.cleaner).tail =
      q.dropWhile m.cleaner := by
    cases q.dropWhile m.cleaner <;> rfl
  unfold cleanAndDeque
  rw [htail, takeWhile_append_dropWhile]

omit [DecidableEq κ] in
/-- `cleanAndEnque` takes the committed elements off the tail. -/
theorem cleanAndEnque_split (q : List (Entry ℕ ℕ α)) (e : Entry ℕ ℕ α) :
    ∃ kept dropped, q = kept ++ dropped ∧ (∀ e ∈ dropped, m.txid e.txid = 2) ∧
      cleanAndEnque m q e = kept ++ [e] := by
  refine ⟨q.rdropWhile m.cleaner, q.rtakeWhile m.cleaner, ?_, ?_, rfl⟩
  · rw [rdropWhile_append_rtakeWhile]
  · intro e he
    rw [rtakeWhile, mem_reverse] at he
    exact cleaner_iff.1 (mem_takeWhile_imp he)

end Split

section Step

variable [DecidableEq τ]

theorem poll_split {b : BaseEvt κ α} {self : τ} {m m' : Mem κ ℕ ℕ τ α} {v : Option ℤ}
    (h : b.pollFn self m = some (m', v)) :
    ∃ (c : κ) (d : Side) (q dropped : List (Entry ℕ ℕ α)) (m₁ : Mem κ ℕ ℕ τ α),
      SameQueues m m₁ ∧ SameQueues (m₁.setQueue c d q) m' ∧ (m.chan c).queue d = dropped ++ q ∧
        ∀ e ∈ dropped, m.txid e.txid = 2 := by
  obtain ⟨m₁, hlock, h⟩ := bind_eq_some_iff.1 h
  obtain ⟨m₂, hrelease, he⟩ := map_eq_some_iff.1 h
  cases he
  have hlock := sameQueues_getLock hlock
  have hrelease := sameQueues_releaseLock hrelease
  refine ⟨b.chan, b.doitFn.theirs, ((m₁.chan b.chan).queue b.doitFn.theirs).dropWhile m₁.cleaner,
    ((m₁.chan b.chan).queue b.doitFn.theirs).takeWhile m₁.cleaner, m₁, hlock, ?_, ?_, ?_⟩
  · refine .trans ?_ hrelease
    unfold cleanAndChk
    dsimp only
    split
    · exact .refl _
    · exact sameQueues_setChan rfl
  · rw [takeWhile_append_dropWhile, hlock.queue]
  · intro e he
    rw [← hlock.txid]
    exact cleaner_iff.1 (mem_takeWhile_imp he)

variable [DecidableEq α]

/-- The steps of the code of an operation. -/
theorem move_of_access {self : τ} {role : Role κ α} {x h : ℕ} {op : Op κ α} {pc pc' : Pc ℕ ℕ α}
    {n : Net κ τ α} {m' : Mem κ ℕ ℕ τ α} (hs : step self h x op n.mem pc = some (m', pc')) :
    Move n (.run role x h op pc) (n.access x op pc m') (.run role x h op pc') := by
  cases pc with
  | begin =>
    cases hs
    exact .quiet .start (.refl _)
  | getLock =>
    obtain ⟨m, hm, he⟩ := map_eq_some_iff.1 hs
    cases he
    exact .quiet .getLock (sameQueues_getLock hm)
  | tryLp =>
    cases hs
    obtain ⟨dropped, hdropped, hq⟩ :=
      cleanAndDeque_split (m := n.mem) ((n.mem.chan op.chan).queue op.theirs)
    cases hfirst : (cleanAndDeque n.mem ((n.mem.chan op.chan).queue op.theirs)).1 with
    | none =>
      have hrest : (cleanAndDeque n.mem ((n.mem.chan op.chan).queue op.theirs)).2 = [] := by
        unfold cleanAndDeque at hfirst ⊢
        rw [head?_eq_none_iff.1 hfirst]
        rfl
      rw [hrest]
      refine .nobody (fun e he => hdropped e ?_) ?_
      · rw [hq, hfirst, hrest] at he
        simpa using he
      · rcases op with ⟨c, o, _ | _ | _ | _⟩ <;> simp [afterDeque]
    | some e =>
      rw [hfirst] at hq
      by_cases hsame : op.mode = .block ∧ x = e.txid
      · rw [afterDeque, if_pos hsame]
        exact .same e _ dropped hq hdropped hfirst hsame.1 hsame.2
      · rw [afterDeque, if_neg hsame]
        exact .deque e _ dropped hq hdropped fun hb hx => hsame ⟨hb, hx⟩
  | matchLp e =>
    by_cases hb : op.mode = .block
    · obtain ⟨rfl, rfl⟩ : _ = m' ∧ _ = pc' := by simpa [step, hb] using hs
      have hw : wins n.mem op (.matchLp e) = none := by simp [wins, hb]
      by_cases h0 : n.mem.txid x = 0
      · simpa [Net.access, hw, Mem.cas, h0] using Move.claim e hb h0
      · by_cases h1 : n.mem.txid x = 1
        · simpa [Net.access, hw, Mem.cas, h0, h1] using
            Move.quiet (Quiet.again e : Quiet op _ _) (.refl n.mem)
        · simpa [Net.access, hw, Mem.cas, h0, h1] using
            Move.quiet (Quiet.lost e hb) (.refl n.mem)
    · obtain ⟨rfl, rfl⟩ : _ = m' ∧ _ = pc' := by simpa [step, hb] using hs
      by_cases h0 : n.mem.txid e.txid = 0
      · simpa [Net.access, wins, Mem.cas, h0, hb] using Move.winCall e hb h0
      · have hw : wins n.mem op (.matchLp e) = none := by simp [wins, h0]
        by_cases h1 : n.mem.txid e.txid = 1
        · simpa [Net.access, hw, Mem.cas, h0, h1] using
            Move.quiet (Quiet.again e : Quiet op _ _) (.refl n.mem)
        · simpa [Net.access, hw, Mem.cas, h0, h1] using Move.dropCall e hb h0 h1
  | claimed e =>
    cases hs
    by_cases h0 : n.mem.txid e.txid = 0
    · simpa [Net.access, wins, Mem.cas, h0] using Move.winBlock e h0
    · have hw : wins n.mem op (.claimed e) = none := by simp [wins, h0]
      by_cases h1 : n.mem.txid e.txid = 1
      · simpa [Net.access, hw, Mem.cas, h0, h1] using Move.retryBlock e
      · simpa [Net.access, hw, Mem.cas, h0, h1] using Move.dropBlock e h0 h1
  | unclaim e =>
    cases hs
    exact .unclaim e
  | won e =>
    cases hs
    split
    · exact .quiet (.wonBlock e ‹_›) (sameQueues_setChan rfl)
    · exact .quiet (.won e ‹_›) (sameQueues_setChan rfl)
  | commit e =>
    cases hs
    exact .commit e
  | wonRelease e =>
    obtain ⟨m, hm, he⟩ := map_eq_some_iff.1 hs
    cases he
    split
    · exact .quiet (.releaseBlock e ‹_›) (sameQueues_releaseLock hm)
    · exact .quiet (.release e) (sameQueues_releaseLock hm)
  | reify e =>
    cases hs
    exact .quiet (.reify e) (.refl _)
  | ready e =>
    cases hs
    exact .ready e
  | undeque e =>
    cases hs
    exact .undeque e
  | lostRelease =>
    obtain ⟨m, hm, he⟩ := map_eq_some_iff.1 hs
    cases he
    exact .quiet .lostRelease (sameQueues_releaseLock hm)
  | away | done r => simp [step] at hs
  | enque =>
    cases hs
    obtain ⟨kept, dropped, hq, hdropped, he⟩ := cleanAndEnque_split (m := n.mem)
      ((n.mem.chan op.chan).queue op.ours) ⟨x, h, op.offer⟩
    rw [he]
    exact .enque kept dropped hq hdropped
  | parkRelease =>
    obtain ⟨m, hm, he⟩ := map_eq_some_iff.1 hs
    cases he
    exact .quiet .parkRelease (sameQueues_releaseLock hm)
  | parked =>
    obtain ⟨⟨h', v⟩, hr, he⟩ := map_eq_some_iff.1 hs
    cases he
    obtain rfl : h' = h := by simpa using find?_some hr
    have hmem := mem_of_find?_eq_some hr
    refine .resume v hmem (perm_cons_erase hmem) ?_
    split
    · exact .inl ⟨rfl, ‹_›⟩
    · exact .inr rfl
  | resumed v =>
    cases hs
    exact .quiet (.resumed v) (.refl _)
  | reifyResumed v =>
    cases hs
    exact .quiet (.reifyResumed v) (.refl _)
  | failRelease =>
    obtain ⟨m, hm, he⟩ := map_eq_some_iff.1 hs
    cases he
    exact .quiet .failRelease (sameQueues_releaseLock hm)

omit [DecidableEq τ] [DecidableEq α] in
theorem move_of_finish {role : Role κ α} {x h : ℕ} {op : Op κ α} {r : Outcome α}
    {n n' : Net κ τ α} {l' : Local κ α} (hs : n.finish x r role = some (n', l')) :
    Move n (.run role x h op (.done r)) n' l' := by
  cases role with
  | call =>
    cases hs
    exact .finishCall r
  | doit bevts =>
    cases r with
    | ret v =>
      cases hs
      exact .finishSync v
    | doitFail =>
      cases hs
      exact .retryDoit
    | refused | sameEvent => simp [Net.finish] at hs
  | host =>
    cases r with
    | ret v =>
      cases hs
      exact .finishSync v
    | refused | doitFail | sameEvent => simp [Net.finish] at hs
  | par =>
    cases r with
    | ret v =>
      cases hs
      exact .finishPar v
    | refused | doitFail | sameEvent => simp [Net.finish] at hs

/-- What a step of a thread can do. -/
theorem move_of_step {t : τ} {k : Choice κ α} {n n' : Net κ τ α} {l l' : Local κ α}
    (h : netStep t k n l = some (n', l')) : Move n l n' l' := by
  cases l with
  | idle =>
    cases k with
    | call op =>
      simp only [netStep] at h
      split at h
      · cases h
        have hstart : (op.start : Pc ℕ ℕ α) = .begin := by
          rcases op with ⟨c, o, _ | _ | _ | _⟩ <;> simp_all [Op.start]
        rw [hstart]
        exact .call op ‹_›
      · cases h
    | sync bevts =>
      cases h
      exact .sync bevts
    | spawn x b =>
      simp only [netStep] at h
      split at h
      · cases h
        obtain ⟨hx, hb⟩ := ‹_ ∧ _›
        exact .spawn x b hx hb
      · cases h
    | other x =>
      simp only [netStep] at h
      split at h
      · cases h
        exact .startOther x ‹_›
      · cases h
    | _ => simp [netStep] at h
  | run role x h' op pc =>
    by_cases hdone : ∃ r, pc = .done r
    · obtain ⟨r, rfl⟩ := hdone
      exact move_of_finish h
    · have hs : netStep t k n (.run role x h' op pc) =
          (step t h' x op n.mem pc).map fun r => (n.access x op pc r.1, .run role x h' op r.2) := by
        cases pc with
        | done r => exact absurd ⟨r, rfl⟩ hdone
        | _ => rfl
      rw [hs] at h
      obtain ⟨⟨m', pc'⟩, hr, he⟩ := map_eq_some_iff.1 h
      cases he
      exact move_of_access hr
  | sync x bevts =>
    cases k with
    | poll b =>
      simp only [netStep] at h
      split at h
      · obtain ⟨⟨m', v⟩, hr, he⟩ := map_eq_some_iff.1 h
        cases he
        obtain ⟨c, d, q, dropped, m₁, h₁, h₂, hq, hdropped⟩ := poll_split hr
        exact .poll c d q dropped h₁ h₂ hq hdropped
      · cases h
    | doit b =>
      simp only [netStep] at h
      split at h
      · cases h
        exact .doit b ‹_›
      · cases h
    | block =>
      rcases bevts with _ | ⟨b, _ | ⟨b', bevts⟩⟩
      · simp [netStep] at h
      · cases h
        exact .blockOne b
      · cases h
        exact .blockMany _
    | _ => simp [netStep] at h
  | waiting x =>
    obtain ⟨⟨x', v⟩, hr, he⟩ := map_eq_some_iff.1 h
    cases he
    obtain rfl : x' = x := by simpa using find?_some hr
    have hmem := mem_of_find?_eq_some hr
    exact .resumeHost v hmem (perm_cons_erase hmem)
  | other x =>
    cases k with
    | claim =>
      simp only [netStep] at h
      split at h <;> cases h
      · exact .claimOther ‹_›
      · exact .lateOther
    | commit =>
      simp only [netStep] at h
      split at h <;> cases h
      · exact .commitOther ‹_›
      · exact .lateOther
    | _ => simp [netStep] at h
  | otherClaimed x =>
    cases k with
    | commit =>
      cases h
      exact .commitClaimed
    | giveBack =>
      cases h
      exact .giveBack
    | _ => simp [netStep] at h

end Step

end MultiMLton.Channel
