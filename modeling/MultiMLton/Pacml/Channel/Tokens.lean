import MultiMLton.Pacml.Channel.Moves

/-!
# Who may commit a transaction

The right to commit a transaction, to give it back and to deliver its result is a token, which
moves from thread to thread with the code.

* `Tok`: the tokens; `Local.toks` and `Net.toks`: where they are; `Tok.Holds`: what a token says
  about the transaction id and the log;
* `Effect`: what a step does to the transaction ids and the log, and with which token;
* `holds_of_effect`: no step disturbs what the tokens of the other threads say;
* `Move.effect`, `Move.toks`: every step is such an effect, and only moves, drops and creates
  tokens.
-/

namespace MultiMLton.Channel

open Interleave List
open Function (update update_of_ne update_self)

variable {κ τ α : Type*}

/-- `virgin x`: to start a transaction for operation `x`, whose id nobody else knows; `claim x`: to
commit its claimed id or to give it back; `settle x`: to write `2` to its claimed id, after the
commit; `win x`: to deliver its result. -/
inductive Tok
  | virgin (x : ℕ)
  | claim (x : ℕ)
  | settle (x : ℕ)
  | win (x : ℕ)
  deriving DecidableEq

/-- The operations that have been committed. -/
def Net.parties (n : Net κ τ α) : List ℕ := n.log.flatMap Commit.parties

/-- What has been delivered to operations: to a thread in the ready list, to `blockHelper`, and as
the result. -/
def Net.delivered (n : Net κ τ α) : List (ℕ × Option α) :=
  n.mem.ready.map (fun r => (n.own r.1, r.2)) ++ (n.woken ++
    n.results.filterMap fun r =>
      match r.2 with
      | .ret v => some (r.1, v)
      | _ => none)

def Net.toks (n : Net κ τ α) : List Tok := n.delivered.map fun r => .win r.1

/-- The tokens of the code of an operation. -/
def Pc.toks (op : Op κ α) (x : ℕ) : Pc ℕ ℕ α → List Tok
  | .claimed _ | .unclaim _ => [.claim x]
  | .won e => if op.mode = .block then [.settle x, .win x, .win e.txid] else [.win x, .win e.txid]
  | .commit e => [.settle x, .win x, .win e.txid]
  | .wonRelease e | .reify e | .ready e => [.win x, .win e.txid]
  | .resumed _ | .reifyResumed _ | .done (.ret _) => [.win x]
  | .undeque _ | .lostRelease | .away | .parkRelease | .parked => []
  | _ => if op.mode = .block then [] else [.virgin x]

section Equations

attribute [local simp] Pc.toks

end Equations

def Local.toks : Local κ α → List Tok
  | .run _ x _ op pc => pc.toks op x
  | .sync x _ => [.virgin x]
  | .otherClaimed x => [.claim x]
  | .idle | .waiting _ | .other _ => []

/-- What holding a token says. -/
def Tok.Holds (n : Net κ τ α) : Tok → Prop
  | .virgin x => x < n.next ∧ x ∉ n.exposed ∧ x ∉ n.parties
  | .claim x => x ∈ n.exposed ∧ n.mem.txid x = 1 ∧ x ∉ n.parties
  | .settle x => x ∈ n.exposed ∧ n.mem.txid x = 1 ∧ x ∈ n.parties
  | .win x => x ∈ n.parties

/-- Writes to a transaction id that commit nothing; `held` are the tokens of the writing thread. -/
inductive Write (n : Net κ τ α) (held : List Tok) (x : ℕ) : ℤ → Prop
  | claim (hx : x ∈ n.exposed) (h0 : n.mem.txid x = 0) : Write n held x 1
  | unclaim (hx : .claim x ∈ held) : Write n held x 0
  | settle (hx : .settle x ∈ held) : Write n held x 2

/-- What a step does to the transaction ids, to what is known of them and to the log. -/
inductive Effect (n : Net κ τ α) (held : List Tok) (n' : Net κ τ α) : Prop
  | same (htxid : n'.mem.txid = n.mem.txid) (hexposed : n'.exposed = n.exposed)
      (hlog : n'.log = n.log)
  | publish (x : ℕ) (hx : .virgin x ∈ held ∨ x ∈ n.exposed) (htxid : n'.mem.txid = n.mem.txid)
      (hexposed : n'.exposed = x :: n.exposed) (hlog : n'.log = n.log)
  | write (x : ℕ) (v : ℤ) (hx : Write n held x v)
      (htxid : n'.mem.txid = update n.mem.txid x v) (hexposed : n'.exposed = n.exposed)
      (hlog : n'.log = n.log)
  -- `y` is the transaction id that the step sets, of the other parties the thread has a token
  | commit (k : Commit κ α) (y : ℕ) (hy : y ∈ k.parties) (hnodup : k.parties.Nodup)
      (hexp : y ∈ n.exposed) (hfree : n.mem.txid y = 0 ∨ .claim y ∈ held)
      (hself : ∀ x ∈ k.parties, x ≠ y → .virgin x ∈ held ∨ .claim x ∈ held)
      (htxid : n'.mem.txid = update n.mem.txid y 2) (hexposed : n'.exposed = n.exposed)
      (hlog : n'.log = k :: n.log)

/-- What holds of the transaction ids. -/
structure Net.Ids (n : Net κ τ α) : Prop where
  range : ∀ x, n.mem.txid x = 0 ∨ n.mem.txid x = 1 ∨ n.mem.txid x = 2
  hidden : ∀ x, x ∉ n.exposed → n.mem.txid x = 0
  waiting : ∀ x ∈ n.exposed, n.mem.txid x = 0 → x ∉ n.parties
  committed : ∀ x, n.mem.txid x = 2 → x ∈ n.parties
  once : n.parties.Nodup

section Effects

variable {n n' : Net κ τ α} {held : List Tok}

theorem parties_cons {k : Commit κ α} (hlog : n'.log = k :: n.log) :
    n'.parties = k.parties ++ n.parties := by
  unfold Net.parties
  rw [hlog, flatMap_cons]

theorem parties_congr (hlog : n'.log = n.log) : n'.parties = n.parties := by
  unfold Net.parties
  rw [hlog]

/-- A committed party was not committed before. -/
theorem Effect.notMem_of_party {k : Commit κ α} {y x : ℕ} (hn : n.Ids)
    (hheld : ∀ tok ∈ held, tok.Holds n) (hexp : y ∈ n.exposed)
    (hfree : n.mem.txid y = 0 ∨ .claim y ∈ held)
    (hself : ∀ x ∈ k.parties, x ≠ y → .virgin x ∈ held ∨ .claim x ∈ held) (hx : x ∈ k.parties) :
    x ∉ n.parties := by
  by_cases hxy : x = y
  · subst hxy
    rcases hfree with h0 | hc
    · exact hn.waiting x hexp h0
    · exact (hheld _ hc).2.2
  · rcases hself x hx hxy with hv | hc
    · exact (hheld _ hv).2.2
    · exact (hheld _ hc).2.2

theorem Write.exposed {x : ℕ} {v : ℤ} (hheld : ∀ tok ∈ held, tok.Holds n)
    (h : Write n held x v) : x ∈ n.exposed := by
  cases h with
  | claim hx _ => exact hx
  | unclaim hx | settle hx => exact (hheld _ hx).1

theorem ids_of_effect (hn : n.Ids) (hheld : ∀ tok ∈ held, tok.Holds n)
    (h : Effect n held n') : n'.Ids := by
  cases h with
  | same htxid hexposed hlog =>
    have hp := parties_congr hlog
    refine ⟨?_, ?_, ?_, ?_, hp ▸ hn.once⟩ <;> rw [htxid]
    · exact hn.range
    · rw [hexposed]
      exact hn.hidden
    · rw [hexposed, hp]
      exact hn.waiting
    · rw [hp]
      exact hn.committed
  | publish x hx htxid hexposed hlog =>
    have hp := parties_congr hlog
    refine ⟨?_, fun y hy => ?_, fun y hy h0 => ?_, ?_, hp ▸ hn.once⟩
    · rw [htxid]
      exact hn.range
    · rw [hexposed, mem_cons, not_or] at hy
      rw [htxid]
      exact hn.hidden y hy.2
    · rw [htxid] at h0
      rw [hexposed] at hy
      rw [hp]
      rcases mem_cons.1 hy with rfl | hy
      · rcases hx with hv | he
        · exact (hheld _ hv).2.2
        · exact hn.waiting y he h0
      · exact hn.waiting y hy h0
    · rw [htxid, hp]
      exact hn.committed
  | write x v hx htxid hexposed hlog =>
    have hp := parties_congr hlog
    have hexp := hx.exposed hheld
    refine ⟨fun y => ?_, fun y hy => ?_, fun y hy hy0 => ?_, fun y hy => ?_, hp ▸ hn.once⟩
    · rcases eq_or_ne y x with rfl | hne
      · rw [htxid, update_self]
        cases hx <;> simp
      · simpa [htxid, hne] using hn.range y
    · rw [hexposed] at hy
      rw [htxid, update_of_ne (by rintro rfl; exact hy hexp)]
      exact hn.hidden y hy
    · rw [hp]
      rcases eq_or_ne y x with rfl | hne
      · rw [htxid, update_self] at hy0
        cases hx with
        | unclaim hx => exact (hheld _ hx).2.2
        | claim | settle => cases hy0
      · rw [htxid, update_of_ne hne] at hy0
        exact hn.waiting y (hexposed ▸ hy) hy0
    · rw [hp]
      rcases eq_or_ne y x with rfl | hne
      · rw [htxid, update_self] at hy
        cases hx with
        | settle hx => exact (hheld _ hx).2.2
        | claim | unclaim => cases hy
      · rw [htxid, update_of_ne hne] at hy
        exact hn.committed y hy
  | commit k x hx hnodup hexp hfree hself htxid hexposed hlog =>
    have hp := parties_cons hlog
    have hnew : ∀ y ∈ k.parties, y ∉ n.parties := fun y hy =>
      Effect.notMem_of_party hn hheld hexp hfree hself hy
    refine ⟨fun y => ?_, fun y hy => ?_, fun y hy hy0 => ?_, fun y hy => ?_, ?_⟩
    · rcases eq_or_ne y x with rfl | hne
      · simp [htxid]
      · simpa [htxid, hne] using hn.range y
    · rw [hexposed] at hy
      rw [htxid, update_of_ne (by rintro rfl; exact hy hexp)]
      exact hn.hidden y hy
    · rcases eq_or_ne y x with rfl | hne
      · simp [htxid] at hy0
      · rw [htxid, update_of_ne hne] at hy0
        rw [hexposed] at hy
        rw [hp, mem_append, not_or]
        refine ⟨fun hk => ?_, hn.waiting y hy hy0⟩
        -- the other party is a thread that has not waited yet or has claimed its id
        rcases hself y hk hne with hv | hc
        · exact (hheld _ hv).2.1 hy
        · have h1 := (hheld _ hc).2.1
          omega
    · rw [hp, mem_append]
      rcases eq_or_ne y x with rfl | hne
      · exact .inl hx
      · rw [htxid, update_of_ne hne] at hy
        exact .inr (hn.committed y hy)
    · rw [hp]
      exact nodup_append.2 ⟨hnodup, hn.once, fun y hy z hz hyz => hnew y hy (hyz ▸ hz)⟩

/-- Only the holder of the token of a claimed id writes to it. -/
theorem txid_of_effect (h : Effect n held n') {x : ℕ}
    (h1 : n.mem.txid x = 1) (hclaim : .claim x ∉ held) (hsettle : .settle x ∉ held) :
    n'.mem.txid x = 1 := by
  cases h with
  | same htxid | publish _ _ htxid => rw [htxid, h1]
  | write y v hy htxid =>
    have hne : x ≠ y := by
      rintro rfl
      cases hy with
      | claim _ h0 => omega
      | unclaim hx => exact hclaim hx
      | settle hx => exact hsettle hx
    rw [htxid, update_of_ne hne, h1]
  | commit k y _ _ _ hfree _ htxid =>
    have hne : x ≠ y := by
      rintro rfl
      rcases hfree with h0 | hc
      · omega
      · exact hclaim hc
    rw [htxid, update_of_ne hne, h1]

theorem exposed_of_effect (h : Effect n held n') : n.exposed ⊆ n'.exposed := by
  cases h with
  | same _ hexposed | write _ _ _ _ hexposed | commit _ _ _ _ _ _ _ _ hexposed =>
    rw [hexposed]
    exact List.Subset.refl _
  | publish x _ _ hexposed =>
    rw [hexposed]
    exact subset_cons_self _ _

theorem parties_of_effect (h : Effect n held n') : n.parties ⊆ n'.parties := by
  cases h with
  | same _ _ hlog | publish _ _ _ _ hlog | write _ _ _ _ _ hlog =>
    rw [parties_congr hlog]
    exact List.Subset.refl _
  | commit k _ _ _ _ _ _ _ _ hlog =>
    rw [parties_cons hlog]
    exact subset_append_right _ _

/-- An operation is committed with a token that its thread holds, or while it waits. -/
theorem notMem_parties_of_effect (h : Effect n held n') {x : ℕ} (hx : x ∉ n.parties)
    (hvirgin : .virgin x ∉ held) (hclaim : .claim x ∉ held)
    (hwaits : x ∈ n.exposed → n.mem.txid x ≠ 0) : x ∉ n'.parties := by
  cases h with
  | same _ _ hlog | publish _ _ _ _ hlog | write _ _ _ _ _ hlog => rwa [parties_congr hlog]
  | commit k y _ _ hexp hfree hself _ _ hlog =>
    rw [parties_cons hlog, mem_append, not_or]
    refine ⟨fun hk => ?_, hx⟩
    by_cases hxy : x = y
    · subst hxy
      rcases hfree with h0 | hc
      · exact hwaits hexp h0
      · exact hclaim hc
    · rcases hself x hk hxy with hv | hc
      · exact hvirgin hv
      · exact hclaim hc

/-- No step disturbs what the tokens of the other threads say. -/
theorem holds_of_effect (hheld : ∀ tok ∈ held, tok.Holds n) (h : Effect n held n')
    (hnext : n.next ≤ n'.next) {tok : Tok} (htok : tok.Holds n) (hother : tok ∉ held) :
    tok.Holds n' := by
  cases tok with
  | virgin x =>
    obtain ⟨hlt, hexp, hx⟩ := htok
    have hclaim : Tok.claim x ∉ held := fun hc => hexp (hheld _ hc).1
    refine ⟨by omega, ?_, notMem_parties_of_effect h hx hother hclaim fun he => absurd he hexp⟩
    cases h with
    | same _ hexposed | write _ _ _ _ hexposed | commit _ _ _ _ _ _ _ _ hexposed =>
      rwa [hexposed]
    | publish y hy _ hexposed =>
      rw [hexposed, mem_cons, not_or]
      refine ⟨?_, hexp⟩
      rintro rfl
      rcases hy with hv | he
      · exact hother hv
      · exact hexp he
  | claim x =>
    obtain ⟨hexp, h1, hx⟩ := htok
    have hvirgin : Tok.virgin x ∉ held := fun hv => (hheld _ hv).2.1 hexp
    have hsettle : Tok.settle x ∉ held := fun hs => hx (hheld _ hs).2.2
    exact ⟨exposed_of_effect h hexp, txid_of_effect h h1 hother hsettle,
      notMem_parties_of_effect h hx hvirgin hother fun _ => by omega⟩
  | settle x =>
    obtain ⟨hexp, h1, hx⟩ := htok
    have hclaim : Tok.claim x ∉ held := fun hc => (hheld _ hc).2.2 hx
    exact ⟨exposed_of_effect h hexp, txid_of_effect h h1 hclaim hother,
      parties_of_effect h hx⟩
  | win x => exact parties_of_effect h htok

end Effects

/-! ### What the threads and the queues have -/

/-- An entry for the queue `d` of channel `c`: made by an operation that waits, for what it
offers. -/
structure EntryOk (n : Net κ τ α) (c : κ) (d : Side) (e : Entry ℕ ℕ α) : Prop where
  exposed : e.txid ∈ n.exposed
  owner : n.own e.thread = e.txid
  lt : e.thread < n.next
  offer : ⟨c, e.msg⟩ ∈ n.req e.txid
  side : d = if e.msg.isSome then .outQ else .inQ

/-- What operation `x` has been delivered comes from its commit: a receiver has the message of the
sender that it is committed with, a sender has none. -/
def Delivered (n : Net κ τ α) (x : ℕ) : Option α → Prop
  | some m => ∃ s c, .pair s x c (some m) ∈ n.log
  | none => ∃ r c m, .pair x r c (some m) ∈ n.log

/-- The waiting element that a thread has taken off a queue. -/
def Pc.hand : Pc ℕ ℕ α → Option (Entry ℕ ℕ α)
  | .matchLp e | .claimed e | .won e | .commit e | .wonRelease e | .reify e | .ready e
  | .undeque e => some e
  | .unclaim e => e
  | _ => none

section Equations

attribute [local simp] Pc.hand

end Equations

/-- The waiting element that a thread has committed with. -/
def Pc.taken : Pc ℕ ℕ α → Option (Entry ℕ ℕ α)
  | .won e | .commit e | .wonRelease e | .reify e | .ready e => some e
  | _ => none

/-- The value that a thread has got. -/
def Pc.value : Pc ℕ ℕ α → Option (Option α)
  | .resumed v | .reifyResumed v | .done (.ret v) => some v
  | _ => none

/-- The roles in which an operation is run for `x`. -/
def Role.Ok (n : Net κ τ α) (x : ℕ) (op : Op κ α) : Role κ α → Prop
  | .call => op.mode = .call ∨ op.mode = .poll
  | .doit bevts => op.mode = .doit ∧ ∀ b ∈ bevts, b ∈ n.req x
  | .host | .par => op.mode = .block

/-- What a thread is doing belongs to an operation that has been started. -/
structure RunOk (n : Net κ τ α) (role : Role κ α) (x h : ℕ) (op : Op κ α) (pc : Pc ℕ ℕ α) :
    Prop where
  fits : Fits op pc
  lt : x < n.next
  lt_run : h < n.next
  self : n.own x = x
  owner : n.own h = x
  offer : ⟨op.chan, op.offer⟩ ∈ n.req x
  role : role.Ok n x op
  exposed : op.mode = .block → x ∈ n.exposed
  hand : ∀ e, pc.hand = some e → EntryOk n op.chan op.theirs e
  taken : ∀ e, pc.taken = some e → op.commit x e ∈ n.log
  value : ∀ v, pc.value = some v → Delivered n x v

def Local.Ok (n : Net κ τ α) : Local κ α → Prop
  | .idle => True
  | .run role x h op pc => RunOk n role x h op pc
  | .sync x bevts => x < n.next ∧ n.own x = x ∧ ∀ b ∈ bevts, b ∈ n.req x
  | .waiting x | .other x | .otherClaimed x => x ∈ n.exposed

/-- What holds of the queues and the records. -/
structure Net.Ok (n : Net κ τ α) : Prop where
  lt : ∀ x ∈ n.exposed, x < n.next
  exposed : ∀ x ∈ n.exposed, n.own x = x
  choices : ∀ x ∈ n.choices, x ∈ n.exposed
  queue : ∀ c d, ∀ e ∈ (n.mem.chan c).queue d, EntryOk n c d e
  ready : ∀ r ∈ n.mem.ready, r.1 < n.next
  delivered : ∀ r ∈ n.delivered, Delivered n r.1 r.2
  parties : ∀ x ∈ n.parties, x < n.next
  offered : ∀ s r c m, .pair s r c m ∈ n.log →
    ∃ v, m = some v ∧ ⟨c, some v⟩ ∈ n.req s ∧ ⟨c, none⟩ ∈ n.req r

/-! ### The steps -/

section Moves

variable [DecidableEq κ] {n n' : Net κ τ α} {l l' : Local κ α}

omit [DecidableEq κ] in
theorem Op.parties_commit (op : Op κ α) (x : ℕ) (e : Entry ℕ ℕ α) :
    (op.commit x e).parties.Perm [x, e.txid] := by
  unfold Op.commit
  split
  · exact .refl _
  · exact .swap _ _ _

omit [DecidableEq κ] in
/-- The commit of a thread with a waiting element. -/
theorem effect_of_win {op : Op κ α} {x : ℕ} {e : Entry ℕ ℕ α} {held : List Tok}
    (hheld : ∀ tok ∈ held, tok.Holds n) (hx : .virgin x ∈ held ∨ .claim x ∈ held)
    (he : e.txid ∈ n.exposed) (h0 : n.mem.txid e.txid = 0)
    (htxid : n'.mem.txid = update n.mem.txid e.txid 2) (hexposed : n'.exposed = n.exposed)
    (hlog : n'.log = op.commit x e :: n.log) : Effect n held n' := by
  have hne : x ≠ e.txid := by
    rintro rfl
    rcases hx with hv | hc
    · exact (hheld _ hv).2.1 he
    · have h1 := (hheld _ hc).2.1
      omega
  have hperm := op.parties_commit x e
  refine .commit (op.commit x e) e.txid ?_ ?_ he (.inl h0) ?_ htxid hexposed hlog
  · exact hperm.mem_iff.2 (by simp)
  · exact hperm.nodup_iff.2 (by simpa using hne)
  · intro y hy hye
    have hmem := hperm.mem_iff.1 hy
    obtain rfl : y = x := by simpa [hye] using hmem
    exact hx

theorem Move.effect (hheld : ∀ tok ∈ l.toks, tok.Holds n) (hl : l.Ok n) (h : Move n l n' l') :
    Effect n l.toks n' := by
  cases h with
  | quiet hpc hm => exact .same hm.txid rfl rfl
  | poll c d q dropped hm hm' hq hdropped => exact .same (hm'.txid.trans hm.txid) rfl rfl
  | blockOne b | blockMany bevts => exact .publish _ (.inl (mem_singleton_self _)) rfl rfl rfl
  | @enque role x h op kept dropped hq hdropped =>
    refine .publish x ?_ rfl rfl rfl
    by_cases hb : op.mode = .block
    · exact .inr (RunOk.exposed hl hb)
    · simp [Local.toks, Pc.toks, hb]
  | claim e hmode h0 => exact .write _ 1 (.claim (RunOk.exposed hl hmode) h0) rfl rfl rfl
  | winCall e hmode h0 =>
    exact effect_of_win hheld (.inl (by simp [Local.toks, Pc.toks, hmode]))
      (RunOk.hand hl e rfl).exposed h0 rfl rfl rfl
  | winBlock e h0 =>
    exact effect_of_win hheld (.inr (by simp [Local.toks, Pc.toks]))
      (RunOk.hand hl e rfl).exposed h0 rfl rfl rfl
  | unclaim e | giveBack => exact .write _ 0 (.unclaim (mem_singleton_self _)) rfl rfl rfl
  | commit e => exact .write _ 2 (.settle (by simp [Local.toks, Pc.toks])) rfl rfl rfl
  | claimOther h0 => exact .write _ 1 (.claim hl h0) rfl rfl rfl
  | @commitOther x h0 =>
    exact .commit (.other x) x (mem_singleton_self _) (nodup_singleton _) hl (.inl h0)
      (by simp [Commit.parties]) rfl rfl rfl
  | @commitClaimed x =>
    exact .commit (.other x) x (mem_singleton_self _) (nodup_singleton _) hl
      (.inr (mem_singleton_self _)) (by simp [Commit.parties]) rfl rfl rfl
  | _ => exact .same rfl rfl rfl

omit [DecidableEq κ] in
theorem delivered_congr (hready : n'.mem.ready = n.mem.ready) (hwoken : n'.woken = n.woken)
    (hresults : n'.results = n.results) (hown : ∀ r ∈ n.mem.ready, n'.own r.1 = n.own r.1) :
    n'.delivered = n.delivered := by
  unfold Net.delivered
  rw [hready, hwoken, hresults]
  congr 1
  exact map_congr_left fun r hr => by rw [hown r hr]

omit [DecidableEq κ] in
theorem own_update (hn : n.Ok) (x : ℕ) :
    ∀ r ∈ n.mem.ready, update n.own n.next x r.1 = n.own r.1 := by
  intro r hr
  have hlt := hn.ready r hr
  exact update_of_ne (by omega) _ _

omit [DecidableEq κ] in
/-- A step that delivers nothing. -/
theorem subperm_of_local {new : List Tok} (hd : n'.delivered = n.delivered)
    (hs : l'.toks.Subperm (new ++ l.toks)) :
    (l'.toks ++ n'.toks).Subperm (new ++ (l.toks ++ n.toks)) := by
  unfold Net.toks
  rw [hd, ← append_assoc]
  exact (subperm_append_right _).2 hs

omit [DecidableEq κ] in
theorem Quiet.toks {op : Op κ α} {pc pc' : Pc ℕ ℕ α} (x : ℕ) (h : Quiet op pc pc') :
    (pc'.toks op x).Subperm (pc.toks op x) := by
  cases h <;> simp_all [Pc.toks, Subperm.refl]

/-- The tokens of a step: it moves those that its thread and the store have, drops some of them and
creates new ones, which nobody can have had. -/
theorem Move.toks (hids : n.Ids) (hn : n.Ok) (hheld : ∀ tok ∈ l.toks, tok.Holds n) (hl : l.Ok n)
    (h : Move n l n' l') : ∃ new : List Tok, new.Nodup ∧ (∀ tok ∈ new, ¬ tok.Holds n) ∧
      (l'.toks ++ n'.toks).Subperm (new ++ (l.toks ++ n.toks)) := by
  cases h with
  | call op hmode =>
    refine ⟨[.virgin n.next], nodup_singleton _, by simp [Tok.Holds],
      subperm_of_local (delivered_congr rfl rfl rfl (own_update hn _)) ?_⟩
    rcases hmode with hm | hm <;> simp [Local.toks, Pc.toks, hm]
  | sync bevts =>
    exact ⟨[.virgin n.next], nodup_singleton _, by simp [Tok.Holds],
      subperm_of_local (delivered_congr rfl rfl rfl (own_update hn _)) (.refl _)⟩
  | spawn x b hx hb =>
    refine ⟨[], nodup_nil, by simp,
      subperm_of_local (delivered_congr rfl rfl rfl (own_update hn _)) ?_⟩
    simp [Local.toks, Pc.toks, BaseEvt.blockFn]
  | @quiet role x h op pc pc' m hpc hm =>
    exact ⟨[], nodup_nil, by simp, subperm_of_local
      (delivered_congr hm.ready rfl rfl fun _ _ => rfl) (hpc.toks x)⟩
  | poll c d q dropped hm hm' hq hdropped =>
    exact ⟨[], nodup_nil, by simp, subperm_of_local
      (delivered_congr (hm'.ready.trans hm.ready) rfl rfl fun _ _ => rfl) (.refl _)⟩
  | @claim role x h op e hmode h0 =>
    refine ⟨[.claim x], nodup_singleton _, by simp [Tok.Holds, h0],
      subperm_of_local rfl ?_⟩
    simp [Local.toks, Pc.toks, hmode]
  | claimOther h0 =>
    exact ⟨[.claim _], nodup_singleton _, by simp [Tok.Holds, h0],
      subperm_of_local rfl (.refl _)⟩
  | @winCall role x h op e hmode h0 =>
    have hx : Tok.virgin x ∈ Local.toks (.run role x h op (.matchLp e)) := by
      simp [Local.toks, Pc.toks, hmode]
    have he := (RunOk.hand hl e rfl).exposed
    have hne : x ≠ e.txid := by
      rintro rfl
      exact (hheld _ hx).2.1 he
    refine ⟨[.win x, .win e.txid], by simpa using hne, ?_, subperm_of_local rfl ?_⟩
    · simpa [Tok.Holds] using ⟨(hheld _ hx).2.2, hids.waiting _ he h0⟩
    · simpa [Local.toks, Pc.toks, hmode] using
        (sublist_append_left [Tok.win x, Tok.win e.txid] [Tok.virgin x]).subperm
  | @winBlock role x h op e h0 =>
    have hx : Tok.claim x ∈ Local.toks (.run role x h op (.claimed e)) := by
      simp [Local.toks, Pc.toks]
    have he := (RunOk.hand hl e rfl).exposed
    obtain ⟨-, h1, hfree⟩ := hheld _ hx
    have hne : x ≠ e.txid := by
      rintro rfl
      omega
    refine ⟨[.settle x, .win x, .win e.txid], by simpa using hne, ?_, subperm_of_local rfl ?_⟩
    · simpa [Tok.Holds, hfree] using hids.waiting _ he h0
    · have hb : op.mode = .block := RunOk.fits hl
      simpa [Local.toks, Pc.toks, hb] using (sublist_append_left
        [Tok.settle x, Tok.win x, Tok.win e.txid] [Tok.claim x]).subperm
  | @ready role x h op e =>
    have hown := (RunOk.hand hl e rfl).owner
    refine ⟨[], nodup_nil, by simp, ?_⟩
    rw [subperm_ext_iff]
    intro y _
    simp [Local.toks, Net.toks, Pc.toks, Net.delivered, Mem.pushReady, hown, count_cons]
    omega
  | @resume role x h op v hv ready hready pc' hpc =>
    have hown : n.own h = x := RunOk.owner hl
    have hperm := hready.map fun r => Tok.win (n.own r.1)
    refine ⟨[], nodup_nil, by simp, ?_⟩
    rw [subperm_ext_iff]
    intro y _
    have hcount := hperm.count_eq y
    rcases hpc with ⟨rfl, -⟩ | rfl <;>
    · simp [Local.toks, Net.toks, Pc.toks, Net.delivered, hown, count_cons,
        Function.comp_def] at hcount ⊢
      omega
  | @finishCall x h op r =>
    refine ⟨[], nodup_nil, by simp, ?_⟩
    rw [subperm_ext_iff]
    intro y _
    cases r <;> simp [Local.toks, Net.toks, Pc.toks, Net.delivered, count_cons]
    omega
  | finishSync v | finishPar v =>
    refine ⟨[], nodup_nil, by simp, ?_⟩
    rw [subperm_ext_iff]
    intro y _
    simp [Local.toks, Net.toks, Pc.toks, Net.delivered, count_cons]
    omega
  | resumeHost v hv hwoken =>
    have hperm := hwoken.map fun r => Tok.win r.1
    refine ⟨[], nodup_nil, by simp, ?_⟩
    rw [subperm_ext_iff]
    intro y _
    have hcount := hperm.count_eq y
    simp [Local.toks, Net.toks, Net.delivered, count_cons, Function.comp_def] at hcount ⊢
    omega
  | unclaim e =>
    refine ⟨[], nodup_nil, by simp, subperm_of_local rfl ?_⟩
    have hb : _ = Mode.block := RunOk.fits hl
    cases e <;> simp [Local.toks, Pc.toks, hb]
  | @commit role x h op e =>
    refine ⟨[], nodup_nil, by simp, subperm_of_local rfl ?_⟩
    exact (sublist_cons_self (Tok.settle x) [Tok.win x, Tok.win e.txid]).subperm
  | nobody hdropped hpc =>
    refine ⟨[], nodup_nil, by simp, subperm_of_local rfl ?_⟩
    rcases hpc with ⟨rfl, hm⟩ | ⟨rfl, hm⟩ | ⟨rfl, hm⟩ <;>
      simp [Local.toks, Pc.toks, hm, Subperm.refl]
  | @retryDoit bevts x h op =>
    refine ⟨[], nodup_nil, by simp, subperm_of_local rfl ?_⟩
    have hmode : op.mode = .doit := (RunOk.role hl).1
    simp [Local.toks, Pc.toks, hmode, Subperm.refl]
  | _ =>
    refine ⟨[], nodup_nil, by simp, subperm_of_local rfl ?_⟩
    simp_all [Local.toks, Pc.toks, Subperm.refl, BaseEvt.doitFn, BaseEvt.blockFn]

omit [DecidableEq κ] in
theorem Tok.Holds.congr (hnext : n.next ≤ n'.next) (hexposed : n'.exposed = n.exposed)
    (htxid : n'.mem.txid = n.mem.txid) (hlog : n'.log = n.log) {tok : Tok} (h : tok.Holds n) :
    tok.Holds n' := by
  have hp := parties_congr hlog
  cases tok with
  | virgin x =>
    obtain ⟨hlt, hexp, hx⟩ := h
    exact ⟨by omega, hexposed ▸ hexp, hp ▸ hx⟩
  | claim x | settle x => simpa [Tok.Holds, hexposed, htxid, hp] using h
  | win x => simpa [Tok.Holds, hp] using h

omit [DecidableEq κ] in
theorem parties_of_win {op : Op κ α} {x : ℕ} {e : Entry ℕ ℕ α}
    (hlog : n'.log = op.commit x e :: n.log) : x ∈ n'.parties ∧ e.txid ∈ n'.parties := by
  have hperm := op.parties_commit x e
  rw [parties_cons hlog]
  exact ⟨mem_append_left _ (hperm.mem_iff.2 (by simp)),
    mem_append_left _ (hperm.mem_iff.2 (by simp))⟩

/-- The tokens that a thread has after its step say what they say. -/
theorem Move.holds (hids : n.Ids) (hn : n.Ok) (hheld : ∀ tok ∈ l.toks, tok.Holds n) (hl : l.Ok n)
    (hpool : ∀ r ∈ n.delivered, r.1 ∈ n.parties) (h : Move n l n' l') :
    ∀ tok ∈ l'.toks, tok.Holds n' := by
  have hexposed : n.next ∉ n.exposed := fun he => lt_irrefl _ (hn.lt _ he)
  have hparties : n.next ∉ n.parties := fun hp => lt_irrefl _ (hn.parties _ hp)
  cases h with
  | call op hmode =>
    intro tok htok
    obtain rfl : tok = .virgin n.next := by
      rcases hmode with hm | hm <;> simpa [Local.toks, Pc.toks, hm] using htok
    exact ⟨Nat.lt_succ_self _, hexposed, hparties⟩
  | sync bevts =>
    intro tok htok
    obtain rfl : tok = .virgin n.next := by simpa [Local.toks] using htok
    exact ⟨Nat.lt_succ_self _, hexposed, hparties⟩
  | spawn x b hx hb => simp [Local.toks, Pc.toks, BaseEvt.blockFn]
  | @quiet role x h op pc pc' m hpc hm =>
    intro tok htok
    refine Tok.Holds.congr ?_ ?_ ?_ ?_ (hheld tok ((hpc.toks x).subset htok))
    exacts [le_rfl, rfl, hm.txid, rfl]
  | poll c d q dropped hm hm' hq hdropped =>
    intro tok htok
    refine Tok.Holds.congr ?_ ?_ ?_ ?_ (hheld tok htok)
    exacts [le_rfl, rfl, hm'.txid.trans hm.txid, rfl]
  | nobody hdropped hpc =>
    intro tok htok
    refine Tok.Holds.congr ?_ ?_ ?_ ?_ (hheld tok ?_)
    any_goals first | exact le_rfl | rfl
    rcases hpc with ⟨rfl, hm⟩ | ⟨rfl, hm⟩ | ⟨rfl, hm⟩ <;> exact htok
  | @claim role x h op e hmode h0 =>
    intro tok htok
    have hx := RunOk.exposed hl hmode
    obtain rfl : tok = .claim x := by simpa [Local.toks, Pc.toks] using htok
    exact ⟨hx, update_self _ _ _, hids.waiting x hx h0⟩
  | @claimOther x h0 =>
    intro tok htok
    obtain rfl : tok = .claim x := by simpa [Local.toks] using htok
    exact ⟨hl, update_self _ _ _, hids.waiting x hl h0⟩
  | @winCall role x h op e hmode h0 =>
    intro tok htok
    have htok' : tok = .win x ∨ tok = .win e.txid := by
      simpa [Local.toks, Pc.toks, hmode] using htok
    rcases htok' with rfl | rfl
    · exact (parties_of_win rfl).1
    · exact (parties_of_win rfl).2
  | @winBlock role x h op e h0 =>
    intro tok htok
    obtain ⟨hexp, h1, -⟩ := hheld (.claim x) (by simp [Local.toks, Pc.toks])
    have hne : x ≠ e.txid := by
      rintro rfl
      omega
    have hb : op.mode = .block := RunOk.fits hl
    have htok' : tok = .settle x ∨ tok = .win x ∨ tok = .win e.txid := by
      simpa [Local.toks, Pc.toks, hb] using htok
    rcases htok' with rfl | rfl | rfl
    · exact ⟨hexp, (update_of_ne hne _ _).trans h1, (parties_of_win rfl).1⟩
    · exact (parties_of_win rfl).1
    · exact (parties_of_win rfl).2
  | unclaim e =>
    have hb : _ = Mode.block := RunOk.fits hl
    cases e <;> simp [Local.toks, Pc.toks, hb]
  | @commit role x h op e =>
    intro tok htok
    have htok' : tok = .win x ∨ tok = .win e.txid := by simpa [Local.toks, Pc.toks] using htok
    have hwin : tok.Holds n := hheld tok (by
      rcases htok' with rfl | rfl <;> simp [Local.toks, Pc.toks])
    rcases htok' with rfl | rfl <;> exact hwin
  | @ready role x h op e =>
    intro tok htok
    obtain rfl : tok = .win x := by simpa [Local.toks, Pc.toks] using htok
    have hwin := hheld (.win x) (by simp [Local.toks, Pc.toks])
    exact hwin
  | @resume role x h op v hv ready hready pc' hpc =>
    intro tok htok
    have hown : n.own h = x := RunOk.owner hl
    have hx : x ∈ n.parties := by
      refine hpool (x, v) (mem_append_left _ (mem_map.2 ⟨(h, v), hv, ?_⟩))
      rw [hown]
    obtain rfl : tok = .win x := by
      rcases hpc with ⟨rfl, -⟩ | rfl <;> simpa [Local.toks, Pc.toks] using htok
    exact hx
  | @retryDoit bevts x h op =>
    intro tok htok
    have hmode : op.mode = .doit := (RunOk.role hl).1
    exact hheld tok (by simpa [Local.toks, Pc.toks, hmode] using htok)
  | enque | undeque | finishCall | finishSync | finishPar | resumeHost | lateOther | commitOther
  | commitClaimed | giveBack | blockMany | startOther =>
    intro tok htok
    cases htok
  | blockOne b => simp [Local.toks, Pc.toks, BaseEvt.blockFn]
  | same e q dropped hq hdropped hfirst hmode hown => simp [Local.toks, Pc.toks, hmode]
  | doit | deque | dropCall | retryBlock | dropBlock =>
    intro tok htok
    refine Tok.Holds.congr ?_ ?_ ?_ ?_ (hheld tok htok)
    all_goals first | exact le_rfl | rfl

end Moves

end MultiMLton.Channel
