import MultiMLton.Pacml.Channel.Tokens

/-!
# Rendezvous happen exactly once

* `Net.Extends`: what every step keeps;
* `Move.ok`, `Move.netOk`: what a thread is doing and what the queues have stays in order;
* `Inv`, and `inv_of_reachable`;
* `ExactlyOnce`, and `exactlyOnce`.
-/

namespace MultiMLton.Channel

open Interleave List Option Nat
open Function (onFun update_of_ne update_self)

variable {κ τ α : Type*}

/-- What every step keeps: the numbers given out, what is offered under them, the operations that
have waited, and the commits. -/
structure Net.Extends (n n' : Net κ τ α) : Prop where
  next : n.next ≤ n'.next
  own : ∀ x < n.next, n'.own x = n.own x
  req : ∀ x < n.next, n'.req x = n.req x
  exposed : n.exposed ⊆ n'.exposed
  log : n.log ⊆ n'.log

variable {e : Entry ℕ ℕ α} {op : Op κ α}

section Extends

variable {n n' : Net κ τ α}

theorem EntryOk.mono (hn : n.Ok) (hext : n.Extends n') {c : κ} {d : Side}
    (h : EntryOk n c d e) : EntryOk n' c d e where
  exposed := hext.exposed h.exposed
  owner := (hext.own _ h.lt).trans h.owner
  lt := h.lt.trans_le hext.next
  offer := by
    rw [hext.req _ (hn.lt _ h.exposed)]
    exact h.offer
  side := h.side

theorem Delivered.mono (hext : n.Extends n') {x : ℕ} {v : Option α} (h : Delivered n x v) :
    Delivered n' x v := by
  cases v with
  | none =>
    obtain ⟨r, c, m, hmem⟩ := h
    exact ⟨r, c, m, hext.log hmem⟩
  | some m =>
    obtain ⟨s, c, hmem⟩ := h
    exact ⟨s, c, hext.log hmem⟩

theorem Role.Ok.mono (hext : n.Extends n') {x : ℕ} (hx : x < n.next)
    {role : Role κ α} (h : role.Ok n x op) : role.Ok n' x op := by
  cases role with
  | doit bevts =>
    refine ⟨h.1, ?_⟩
    rw [hext.req x hx]
    exact h.2
  | call | host | par => exact h

/-- A step of the code of an operation: what it takes, commits or gets is new, or it had it. -/
theorem RunOk.next (hn : n.Ok) (hext : n.Extends n') {role : Role κ α} {x h : ℕ}
    {pc pc' : Pc ℕ ℕ α} (hrun : RunOk n role x h op pc) (hfits : Fits op pc')
    (hhand : ∀ e, pc'.hand = some e → pc.hand = some e ∨ EntryOk n' op.chan op.theirs e)
    (htaken : ∀ e, pc'.taken = some e → pc.taken = some e ∨ op.commit x e ∈ n'.log)
    (hvalue : ∀ v, pc'.value = some v → pc.value = some v ∨ Delivered n' x v) :
    RunOk n' role x h op pc' where
  fits := hfits
  lt := hrun.lt.trans_le hext.next
  lt_run := hrun.lt_run.trans_le hext.next
  self := (hext.own x hrun.lt).trans hrun.self
  owner := (hext.own h hrun.lt_run).trans hrun.owner
  offer := by
    rw [hext.req x hrun.lt]
    exact hrun.offer
  role := hrun.role.mono hext hrun.lt
  exposed hb := hext.exposed (hrun.exposed hb)
  hand e he := (hhand e he).elim (fun h => (hrun.hand e h).mono hn hext) id
  taken e he := (htaken e he).elim (fun h => hext.log (hrun.taken e h)) id
  value v hv := (hvalue v hv).elim (fun h => (hrun.value v h).mono hext) id

theorem Local.Ok.mono (hn : n.Ok) (hext : n.Extends n') {l : Local κ α} (h : l.Ok n) :
    l.Ok n' := by
  cases l with
  | idle => trivial
  | run role x h' op pc =>
    exact RunOk.next hn hext h (RunOk.fits h) (fun _ => .inl) (fun _ => .inl) fun _ => .inl
  | sync x bevts =>
    obtain ⟨hlt, hself, hreq⟩ := h
    refine ⟨hlt.trans_le hext.next, (hext.own x hlt).trans hself, ?_⟩
    rw [hext.req x hlt]
    exact hreq
  | waiting x | other x | otherClaimed x => exact hext.exposed h

/-- A committed receiver gets the message of its sender. -/
theorem delivered_self {x : ℕ} (he : EntryOk n op.chan op.theirs e) (hlog : op.commit x e ∈ n.log) :
    Delivered n x e.msg := by
  have hside := he.side
  unfold Op.theirs at hside
  unfold Op.commit at hlog
  cases hoffer : op.offer with
  | some m =>
    cases hmsg : e.msg with
    | some m' => simp [hoffer, hmsg] at hside
    | none =>
      simp only [hoffer, isSome_some, if_true] at hlog
      exact ⟨_, _, _, hlog⟩
  | none =>
    cases hmsg : e.msg with
    | none => simp [hoffer, hmsg] at hside
    | some m' =>
      simp only [hoffer, hmsg, isSome_none] at hlog
      exact ⟨_, _, hlog⟩

theorem delivered_partner {x : ℕ}
    (he : EntryOk n op.chan op.theirs e) (hlog : op.commit x e ∈ n.log) :
    Delivered n e.txid op.offer := by
  have hside := he.side
  unfold Op.theirs at hside
  unfold Op.commit at hlog
  cases hoffer : op.offer with
  | some m =>
    simp only [hoffer, isSome_some, if_true] at hlog
    exact ⟨_, _, hlog⟩
  | none =>
    cases hmsg : e.msg with
    | none => simp [hoffer, hmsg] at hside
    | some m' =>
      simp only [hoffer, hmsg, isSome_none] at hlog
      exact ⟨_, _, _, hlog⟩

end Extends

section Moves

variable [DecidableEq κ] {n n' : Net κ τ α} {l l' : Local κ α}

omit [DecidableEq κ] in
theorem Net.Extends.of_eq (hnext : n'.next = n.next) (hown : n'.own = n.own)
    (hreq : n'.req = n.req) (hexposed : n.exposed ⊆ n'.exposed) (hlog : n.log ⊆ n'.log) :
    n.Extends n' :=
  ⟨hnext.ge, fun _ _ => by rw [hown], fun _ _ => by rw [hreq], hexposed, hlog⟩

theorem Move.extends (h : Move n l n' l') : n.Extends n' := by
  cases h with
  | call | sync =>
    refine ⟨le_succ _, fun x hx => ?_, fun x hx => ?_, List.Subset.refl _, List.Subset.refl _⟩
    all_goals exact update_of_ne hx.ne _ _
  | spawn =>
    refine ⟨le_succ _, fun x hx => ?_, fun x hx => rfl, List.Subset.refl _, List.Subset.refl _⟩
    exact update_of_ne hx.ne _ _
  | blockOne | blockMany | enque =>
    exact .of_eq rfl rfl rfl (subset_cons_self _ _) (List.Subset.refl _)
  | winCall | winBlock | commitOther | commitClaimed =>
    exact .of_eq rfl rfl rfl (List.Subset.refl _) (subset_cons_self _ _)
  | _ => exact .of_eq rfl rfl rfl (List.Subset.refl _) (List.Subset.refl _)

omit [DecidableEq κ] in
theorem mem_of_drop {c : κ} {d : Side} {q dropped : List (Entry ℕ ℕ α)} (hn : n.Ok)
    (hq : (n.mem.chan c).queue d = dropped ++ q) : ∀ e ∈ q, EntryOk n c d e := by
  intro e he
  refine hn.queue c d e ?_
  rw [hq]
  exact mem_append_right _ he

/-- What a thread is doing stays in order. -/
theorem Move.ok (hn : n.Ok) (hl : l.Ok n) (h : Move n l n' l') : l'.Ok n' := by
  have hext := h.extends
  cases h with
  | call op hmode =>
    have hself : Function.update n.own n.next n.next n.next = n.next := update_self _ _ _
    refine ⟨?_, lt_succ_self _, lt_succ_self _, hself, hself, ?_, hmode, ?_, ?_, ?_, ?_⟩
    · trivial
    · simp
    · rcases hmode with hm | hm <;> simp [hm]
    all_goals simp [Pc.hand, Pc.taken, Pc.value]
  | sync bevts =>
    refine ⟨lt_succ_self _, update_self _ _ _, ?_⟩
    simp
  | spawn x b hx hb =>
    have hexp := hn.choices x hx
    have hlt := hn.lt x hexp
    refine ⟨trivial, hlt.trans (lt_succ_self _), lt_succ_self _, ?_,
      update_self _ _ _, hb, rfl,
      fun _ => hexp, ?_, ?_, ?_⟩
    · exact (update_of_ne hlt.ne _ _).trans (hn.exposed x hexp)
    all_goals simp [Pc.hand, Pc.taken, Pc.value]
  | startOther x hx => exact hn.choices x hx
  | poll c d q dropped hm hm' hq hdropped => exact hl
  | doit b hb =>
    obtain ⟨hlt, hself, hreq⟩ := hl
    refine ⟨trivial, hlt, hlt, hself, hself, hreq b hb, ⟨rfl, hreq⟩, nofun, ?_, ?_, ?_⟩
    all_goals simp [Pc.hand, Pc.taken, Pc.value]
  | blockOne b =>
    obtain ⟨hlt, hself, hreq⟩ := hl
    refine ⟨trivial, hlt, hlt, hself, hself, hreq b (mem_singleton_self _), rfl,
      fun _ => mem_cons_self, ?_, ?_, ?_⟩
    all_goals simp [Pc.hand, Pc.taken, Pc.value]
  | blockMany bevts => exact mem_cons_self
  | @quiet role x h op pc pc' m hpc hm =>
    have hfits := RunOk.fits hl
    refine RunOk.next hn hext hl ?_ ?_ ?_ ?_
    · cases hpc <;> trivial
    · cases hpc <;> simp [Pc.hand]
    · cases hpc <;> simp [Pc.taken]
    · cases hpc <;> simp [Pc.value]
  | @deque role x h op e q dropped hq hdropped hother =>
    refine RunOk.next hn hext hl trivial ?_ (by simp [Pc.taken]) (by simp [Pc.value])
    rintro e' he
    cases he
    exact .inr ((mem_of_drop hn hq e mem_cons_self).mono hn hext)
  | same e q dropped hq hdropped hfirst hmode hown =>
    exact RunOk.next hn hext hl trivial (by simp [Pc.hand]) (by simp [Pc.taken])
      (by simp [Pc.value])
  | nobody hdropped hpc =>
    rcases hpc with ⟨rfl, hm⟩ | ⟨rfl, hm⟩ | ⟨rfl, hm⟩
    · exact RunOk.next hn hext hl hm (by simp [Pc.hand]) (by simp [Pc.taken]) (by simp [Pc.value])
    · exact RunOk.next hn hext hl trivial (by simp [Pc.hand]) (by simp [Pc.taken])
        (by simp [Pc.value])
    · exact RunOk.next hn hext hl hm (by simp [Pc.hand]) (by simp [Pc.taken]) (by simp [Pc.value])
  | claim e hmode h0 =>
    exact RunOk.next hn hext hl hmode (by simp [Pc.hand]) (by simp [Pc.taken]) (by simp [Pc.value])
  | winCall e hmode h0 | winBlock e h0 =>
    refine RunOk.next hn hext hl trivial (by simp [Pc.hand]) ?_ (by simp [Pc.value])
    rintro e' he
    cases he
    exact .inr mem_cons_self
  | dropCall e hmode h0 h1 | commit e =>
    exact RunOk.next hn hext hl trivial (by simp [Pc.hand]) (by simp [Pc.taken]) (by simp [Pc.value])
  | retryBlock e | dropBlock e | undeque e | enque kept dropped hq hdropped =>
    have hfits := RunOk.fits hl
    exact RunOk.next hn hext hl hfits (by simp [Pc.hand]) (by simp [Pc.taken])
      (by simp [Pc.value])
  | unclaim e =>
    cases e <;> exact RunOk.next hn hext hl trivial (by simp [Pc.hand]) (by simp [Pc.taken])
      (by simp [Pc.value])
  | @ready role x h op e =>
    refine RunOk.next hn hext hl trivial (by simp [Pc.hand]) (by simp [Pc.taken]) ?_
    rintro v hv
    cases hv
    exact .inr ((delivered_self (RunOk.hand hl e rfl) (RunOk.taken hl e rfl)).mono hext)
  | @resume role x h op v hv ready hready pc' hpc =>
    have hdel : Delivered n x v := by
      have hown : n.own h = x := RunOk.owner hl
      have hmem := hn.delivered (n.own h, v) (mem_append_left _ (mem_map_of_mem hv))
      rwa [hown] at hmem
    have hvalue : pc'.value = some v := by rcases hpc with ⟨rfl, -⟩ | rfl <;> rfl
    refine RunOk.next hn hext hl ?_ ?_ ?_ ?_
    · rcases hpc with ⟨rfl, hm⟩ | rfl
      · exact hm
      · trivial
    · rcases hpc with ⟨rfl, -⟩ | rfl <;> simp [Pc.hand]
    · rcases hpc with ⟨rfl, -⟩ | rfl <;> simp [Pc.taken]
    · rintro v' hv'
      cases hvalue.symm.trans hv'
      exact .inr (hdel.mono hext)
  | retryDoit => exact ⟨RunOk.lt hl, RunOk.self hl, (RunOk.role hl).2⟩
  | claimOther h0 => exact hl
  | _ => trivial

omit [DecidableEq κ] in
/-- A commit of a thread with a waiting element is one of a sender and a receiver. -/
theorem offered_of_win {role : Role κ α} {x h : ℕ} {pc : Pc ℕ ℕ α}
    (hrun : RunOk n role x h op pc) (he : EntryOk n op.chan op.theirs e) {s r : ℕ} {c : κ}
    {m : Option α} (heq : op.commit x e = .pair s r c m) :
    ∃ v, m = some v ∧ ⟨c, some v⟩ ∈ n.req s ∧ ⟨c, none⟩ ∈ n.req r := by
  have hself := hrun.offer
  have hpartner := he.offer
  have hside := he.side
  unfold Op.theirs at hside
  unfold Op.commit at heq
  cases hoffer : op.offer with
  | some v =>
    cases hmsg : e.msg with
    | some m' => simp [hoffer, hmsg] at hside
    | none =>
      simp only [hoffer, isSome_some, if_true, Commit.pair.injEq] at heq
      obtain ⟨rfl, rfl, rfl, rfl⟩ := heq
      rw [hoffer] at hself
      rw [hmsg] at hpartner
      exact ⟨v, rfl, hself, hpartner⟩
  | none =>
    cases hmsg : e.msg with
    | none => simp [hoffer, hmsg] at hside
    | some v =>
      simp only [hoffer, hmsg, isSome_none, Bool.false_eq_true, if_false,
        Commit.pair.injEq] at heq
      obtain ⟨rfl, rfl, rfl, rfl⟩ := heq
      rw [hoffer] at hself
      rw [hmsg] at hpartner
      exact ⟨v, rfl, hpartner, hself⟩

theorem Move.queue (hn : n.Ok) (hl : l.Ok n) (h : Move n l n' l') (c : κ) (d : Side) :
    ∀ e ∈ (n'.mem.chan c).queue d, e ∈ (n.mem.chan c).queue d ∨ EntryOk n' c d e := by
  have hext := h.extends
  cases h with
  | poll c₁ d₁ q dropped hm hm' hq hdropped =>
    intro e he
    refine .inl ?_
    have heq := hm'.queue c d
    rw [Mem.setQueue_queue] at heq
    replace he := heq ▸ he
    split at he
    · obtain ⟨rfl, rfl⟩ := ‹_ ∧ _›
      rw [hq]
      exact mem_append_right _ he
    · rwa [hm.queue] at he
  | quiet hpc hm =>
    intro e he
    have heq := hm.queue c d
    exact .inl (heq ▸ he)
  | deque e₁ q dropped hq hdropped | same e₁ q dropped hq hdropped =>
    intro e he
    rw [Mem.setQueue_queue] at he
    refine .inl ?_
    split at he
    · obtain ⟨rfl, rfl⟩ := ‹_ ∧ _›
      rw [hq]
      exact mem_append_right _ (mem_cons_of_mem _ he)
    · exact he
  | nobody hdropped hpc =>
    intro e he
    rw [Mem.setQueue_queue] at he
    split at he
    · cases he
    · exact .inl he
  | @undeque role x h op e₁ =>
    intro e he
    rw [Mem.setQueue_queue] at he
    split at he
    · obtain ⟨rfl, rfl⟩ := ‹_ ∧ _›
      rcases mem_cons.1 he with rfl | he
      · exact .inr ((RunOk.hand hl e rfl).mono hn hext)
      · exact .inl he
    · exact .inl he
  | @enque role x h op kept dropped hq hdropped =>
    intro e he
    rw [Mem.setQueue_queue] at he
    split at he
    · obtain ⟨rfl, rfl⟩ := ‹_ ∧ _›
      rcases mem_append.1 he with he | he
      · refine .inl ?_
        rw [hq]
        exact mem_append_left _ he
      · obtain rfl := mem_singleton.1 he
        have howner : n.own h = x := RunOk.owner hl
        have hlt : h < n.next := RunOk.lt_run hl
        have hoffer : ⟨op.chan, op.offer⟩ ∈ n.req x := RunOk.offer hl
        exact .inr ⟨mem_cons_self, howner, hlt, hoffer, rfl⟩
    · exact .inl he
  | _ => exact fun e he => .inl he

theorem Move.ready_lt (hn : n.Ok) (hl : l.Ok n) (h : Move n l n' l') :
    ∀ r ∈ n'.mem.ready, r.1 < n'.next := by
  cases h with
  | call | sync | spawn => exact fun r hr => (hn.ready r hr).trans (lt_succ_self _)
  | poll c d q dropped hm hm' hq hdropped =>
    intro r hr
    have heq := hm'.ready.trans hm.ready
    exact hn.ready r (heq ▸ hr)
  | quiet hpc hm =>
    intro r hr
    have heq := hm.ready
    exact hn.ready r (heq ▸ hr)
  | @ready role x h op e =>
    intro r hr
    rcases mem_append.1 hr with hr | hr
    · exact hn.ready r hr
    · obtain rfl := mem_singleton.1 hr
      exact (RunOk.hand hl e rfl).lt
  | resume v hv hready hpc =>
    exact fun r hr => hn.ready r (hready.mem_iff.2 (mem_cons_of_mem _ hr))
  | _ => exact hn.ready

theorem Move.delivered_grows (hn : n.Ok) (hl : l.Ok n) (h : Move n l n' l') :
    ∀ r ∈ n'.delivered, r ∈ n.delivered ∨ Delivered n r.1 r.2 := by
  intro r hr
  cases h with
  | call | sync | spawn =>
    refine .inl ?_
    convert hr using 1
    exact Eq.symm (delivered_congr rfl rfl rfl (own_update hn _))
  | poll c d q dropped hm hm' hq hdropped =>
    refine .inl ?_
    convert hr using 1
    exact Eq.symm (delivered_congr (hm'.ready.trans hm.ready) rfl rfl fun _ _ => rfl)
  | quiet hpc hm =>
    refine .inl ?_
    convert hr using 1
    exact Eq.symm (delivered_congr hm.ready rfl rfl fun _ _ => rfl)
  | @ready role x h op e =>
    have he := RunOk.hand hl e rfl
    have hr' : r ∈ n.delivered ∨ r = (e.txid, op.offer) := by
      have howner := he.owner
      simp only [Net.delivered, Mem.pushReady, map_append, mem_append, map_cons,
        map_nil, mem_singleton, howner] at hr ⊢
      tauto
    rcases hr' with hr | rfl
    · exact .inl hr
    · exact .inr (delivered_partner he (RunOk.taken hl e rfl))
  | @resume role x h op v hv ready hready pc' hpc =>
    refine .inl ?_
    rcases mem_append.1 hr with hr | hr
    · obtain ⟨r', hr', rfl⟩ := mem_map.1 hr
      exact mem_append_left _ (mem_map.2
        ⟨r', hready.mem_iff.2 (mem_cons_of_mem _ hr'), rfl⟩)
    · exact mem_append_right _ hr
  | @finishCall x h op r₁ =>
    cases r₁ with
    | ret v =>
      have hr' : r ∈ n.delivered ∨ r = (x, v) := by
        simp only [Net.delivered, mem_append, filterMap_cons, mem_cons] at hr ⊢
        tauto
      rcases hr' with hr | rfl
      · exact .inl hr
      · exact .inr (RunOk.value hl v rfl)
    | refused | doitFail | sameEvent => exact .inl hr
  | @finishSync role x h op v =>
    have hr' : r ∈ n.delivered ∨ r = (x, v) := by
      simp only [Net.delivered, mem_append, filterMap_cons, mem_cons] at hr ⊢
      tauto
    rcases hr' with hr | rfl
    · exact .inl hr
    · exact .inr (RunOk.value hl v rfl)
  | @finishPar x h op v =>
    have hr' : r ∈ n.delivered ∨ r = (x, v) := by
      simp only [Net.delivered, mem_append, mem_cons] at hr ⊢
      tauto
    rcases hr' with hr | rfl
    · exact .inl hr
    · exact .inr (RunOk.value hl v rfl)
  | @resumeHost x v woken hv hwoken =>
    have hmem (r : ℕ × Option α) := hwoken.mem_iff (a := r)
    have hr' : r ∈ n.delivered := by
      simp only [mem_cons] at hmem
      simp only [Net.delivered, mem_append, filterMap_cons, mem_cons, hmem] at hr ⊢
      tauto
    exact .inl hr'
  | _ => exact .inl hr

/-- A commit of a sender and a receiver has been offered by both. -/
theorem Move.offered (hl : l.Ok n) (h : Move n l n' l') : ∀ k ∈ n'.log, k ∈ n.log ∨
    ∀ s r c m, k = .pair s r c m → ∃ v, m = some v ∧ ⟨c, some v⟩ ∈ n.req s ∧ ⟨c, none⟩ ∈ n.req r := by
  intro k hk
  cases h with
  | winCall e hmode h0 | winBlock e h0 =>
    rcases mem_cons.1 hk with rfl | hk
    · exact .inr fun s r c m heq => offered_of_win hl (RunOk.hand hl e rfl) heq
    · exact .inl hk
  | commitOther | commitClaimed =>
    rcases mem_cons.1 hk with rfl | hk
    · exact .inr nofun
    · exact .inl hk
  | _ => exact .inl hk

omit [DecidableEq κ] in
/-- The operations that an effect commits have been started. -/
theorem Effect.parties_lt (hn : n.Ok) (hheld : ∀ tok ∈ l.toks, tok.Holds n)
    (h : Effect n l.toks n') : ∀ x ∈ n'.parties, x < n.next := by
  intro x hx
  cases h with
  | same _ _ hlog | publish _ _ _ _ hlog | write _ _ _ _ _ hlog =>
    rw [parties_congr hlog] at hx
    exact hn.parties x hx
  | commit k y _ _ hexp _ hself _ _ hlog =>
    rw [parties_cons hlog] at hx
    rcases mem_append.1 hx with hx | hx
    · by_cases hxy : x = y
      · exact hxy ▸ hn.lt y hexp
      · rcases hself x hx hxy with hv | hc
        · exact (hheld _ hv).1
        · exact hn.lt x (hheld _ hc).1
    · exact hn.parties x hx

theorem Move.exposed (hl : l.Ok n) (h : Move n l n' l') :
    ∀ x ∈ n'.exposed, x ∈ n.exposed ∨ x < n.next ∧ n.own x = x := by
  intro x hx
  cases h with
  | blockOne | blockMany =>
    rcases mem_cons.1 hx with rfl | hx
    · exact .inr ⟨hl.1, hl.2.1⟩
    · exact .inl hx
  | enque =>
    rcases mem_cons.1 hx with rfl | hx
    · exact .inr ⟨RunOk.lt hl, RunOk.self hl⟩
    · exact .inl hx
  | _ => exact .inl hx

theorem Move.choices (h : Move n l n' l') : ∀ x ∈ n'.choices, x ∈ n.choices ∨ x ∈ n'.exposed := by
  intro x hx
  cases h with
  | blockMany =>
    rcases mem_cons.1 hx with rfl | hx
    · exact .inr mem_cons_self
    · exact .inl hx
  | _ => exact .inl hx

/-- What the queues and the records have stays in order. -/
theorem Move.netOk (hn : n.Ok) (hl : l.Ok n) (hheld : ∀ tok ∈ l.toks, tok.Holds n)
    (h : Move n l n' l') : n'.Ok where
  lt x hx := by
    rcases h.exposed hl x hx with he | ⟨hlt, -⟩
    · exact (hn.lt x he).trans_le h.extends.next
    · exact hlt.trans_le h.extends.next
  exposed x hx := by
    rcases h.exposed hl x hx with he | ⟨hlt, hself⟩
    · exact (h.extends.own x (hn.lt x he)).trans (hn.exposed x he)
    · exact (h.extends.own x hlt).trans hself
  choices x hx := (h.choices x hx).elim (fun hc => h.extends.exposed (hn.choices x hc)) id
  queue c d e he := (h.queue hn hl c d e he).elim (fun hq => (hn.queue c d e hq).mono hn h.extends) id
  ready := h.ready_lt hn hl
  delivered r hr := by
    rcases h.delivered_grows hn hl r hr with hd | hd
    · exact (hn.delivered r hd).mono h.extends
    · exact hd.mono h.extends
  parties x hx := ((h.effect hheld hl).parties_lt hn hheld x hx).trans_le h.extends.next
  offered s r c m hlog := by
    have hparties := (h.effect hheld hl).parties_lt hn hheld
    have hmem (x : ℕ) (hx : x ∈ (Commit.pair s r c m).parties) : x < n.next :=
      hparties x (mem_flatMap.2 ⟨_, hlog, hx⟩)
    rw [h.extends.req s (hmem s (by simp [Commit.parties])),
      h.extends.req r (hmem r (by simp [Commit.parties]))]
    rcases h.offered hl _ hlog with hk | hk
    · exact hn.offered s r c m hk
    · exact hk s r c m rfl

end Moves

/-! ### The invariant -/

/-- The tokens are held once and say what they say, and what the threads and the queues have is in
order. -/
structure Inv (c : Config τ (Net κ τ α) (Local κ α)) : Prop where
  tokens : Exclusive Local.toks Net.toks c
  holds : ∀ t, ∀ tok ∈ (c.loc t).toks, tok.Holds c.shared
  ids : c.shared.Ids
  net : c.shared.Ok
  threads : ∀ t, (c.loc t).Ok c.shared

/-- Who has been delivered something has been committed. -/
theorem Net.Ok.mem_parties {n : Net κ τ α} (hn : n.Ok) {r : ℕ × Option α} (hr : r ∈ n.delivered) :
    r.1 ∈ n.parties := by
  obtain ⟨x, v⟩ := r
  have hd := hn.delivered _ hr
  cases v with
  | none =>
    obtain ⟨r, c, m, hlog⟩ := hd
    exact mem_flatMap.2 ⟨_, hlog, by simp [Commit.parties]⟩
  | some m =>
    obtain ⟨s, c, hlog⟩ := hd
    exact mem_flatMap.2 ⟨_, hlog, by simp [Commit.parties]⟩

section Runs

variable [DecidableEq κ] [DecidableEq τ] [DecidableEq α]

variable {c : Config τ (Net κ τ α) (Local κ α)}

omit [DecidableEq α] in
theorem Inv.step (hI : Inv c) {t : τ} {n' : Net κ τ α}
    {l' : Local κ α} (h : Move c.shared (c.loc t) n' l') : Inv (c.put t n' l') := by
  have hpool : ∀ r ∈ c.shared.delivered, r.1 ∈ c.shared.parties :=
    fun r hr => hI.net.mem_parties hr
  have heffect := h.effect (hI.holds t) (hI.threads t)
  obtain ⟨new, hnew, hfresh, hsub⟩ := h.toks hI.ids hI.net (hI.holds t) (hI.threads t)
  refine ⟨hI.tokens.put new hnew ?_ hsub, fun u => ?_, ?_, ?_, fun u => ?_⟩
  · intro tok htok
    refine ⟨fun hmem => ?_, fun u hu => hfresh tok htok (hI.holds u tok hu)⟩
    obtain ⟨r, hr, rfl⟩ := mem_map.1 hmem
    exact hfresh _ htok (hpool r hr)
  · by_cases hu : u = t
    · subst hu
      rw [Config.put_loc_self]
      exact h.holds hI.ids hI.net (hI.holds u) (hI.threads u) hpool
    · rw [Config.put_loc_of_ne hu]
      intro tok htok
      exact holds_of_effect (hI.holds t) heffect h.extends.next (hI.holds u tok htok)
        (hI.tokens.apart u t hu htok)
  · exact ids_of_effect hI.ids (hI.holds t) heffect
  · exact h.netOk hI.net (hI.threads t) (hI.holds t)
  · by_cases hu : u = t
    · subst hu
      rw [Config.put_loc_self]
      exact h.ok hI.net (hI.threads u)
    · rw [Config.put_loc_of_ne hu]
      exact (hI.threads u).mono hI.net h.extends

omit [DecidableEq κ] [DecidableEq τ] [DecidableEq α] in
theorem inv_of_initial (h : Initial c) : Inv c := by
  obtain ⟨hn, hl⟩ := h
  have hempty : c.shared.toks = [] := by rw [hn]; rfl
  refine ⟨⟨?_, fun t => ?_, fun t u _ => ?_⟩, fun t => ?_, ?_, ?_, fun t => ?_⟩
  · rw [hempty]
    exact nodup_nil
  · rw [hempty, hl t]
    exact nodup_nil
  · rw [hl t]
    exact disjoint_nil_left _
  · rw [hl t]
    exact nofun
  · rw [hn]
    exact ⟨fun _ => .inl rfl, fun _ _ => rfl, nofun, nofun, nodup_nil⟩
  · rw [hn]
    exact ⟨nofun, nofun, nofun, nofun, nofun, nofun, nofun, nofun⟩
  · rw [hl t]
    trivial

theorem inv_of_reachable (h : (netProcess κ τ α).Reachable Initial c) : Inv c :=
  h.invariant (fun _ => inv_of_initial) fun _ _ _ _ _ _ _ hI hs => hI.step (move_of_step hs)

/-! ### The result -/

/-- The moves of a transaction id. -/
inductive TxidStep : ℤ → ℤ → Prop
  | same (v : ℤ) : TxidStep v v
  | claim : TxidStep 0 1
  | unclaim : TxidStep 1 0
  | commit : TxidStep 0 2
  | commitClaimed : TxidStep 1 2

omit [DecidableEq κ] [DecidableEq τ] [DecidableEq α] in
theorem txidStep_of_effect {n n' : Net κ τ α} {held : List Tok}
    (hheld : ∀ tok ∈ held, tok.Holds n) (h : Effect n held n') (x : ℕ) :
    TxidStep (n.mem.txid x) (n'.mem.txid x) := by
  cases h with
  | same htxid | publish _ _ htxid =>
    rw [htxid]
    exact .same _
  | write y v hy htxid =>
    rw [htxid]
    by_cases hxy : x = y
    · subst hxy
      rw [update_self]
      cases hy with
      | claim _ h0 => exact h0 ▸ .claim
      | unclaim hc => exact (hheld _ hc).2.1 ▸ .unclaim
      | settle hs => exact (hheld _ hs).2.1 ▸ .commitClaimed
    · rw [update_of_ne hxy]
      exact .same _
  | commit k y _ _ _ hfree _ htxid =>
    rw [htxid]
    by_cases hxy : x = y
    · subst hxy
      rw [update_self]
      rcases hfree with h0 | hc
      · exact h0 ▸ .commit
      · exact (hheld _ hc).2.1 ▸ .commitClaimed
    · rw [update_of_ne hxy]
      exact .same _

/-- A commit is recorded by the step that writes `2` to the transaction id of a party. -/
def Recorded (n n' : Net κ τ α) : Prop :=
  n'.log = n.log ∨
    ∃ k, n'.log = k :: n.log ∧ ∃ x ∈ k.parties, n.mem.txid x ≠ 2 ∧ n'.mem.txid x = 2

omit [DecidableEq κ] [DecidableEq τ] [DecidableEq α] in
theorem recorded_of_effect {n n' : Net κ τ α} {held : List Tok}
    (hheld : ∀ tok ∈ held, tok.Holds n) (h : Effect n held n') : Recorded n n' := by
  cases h with
  | same _ _ hlog | publish _ _ _ _ hlog | write _ _ _ _ _ hlog => exact .inl hlog
  | commit k y hy _ _ hfree _ htxid _ hlog =>
    refine .inr ⟨k, hlog, y, hy, ?_, ?_⟩
    · rcases hfree with h0 | hc
      · omega
      · have h1 := (hheld _ hc).2.1
        omega
    · rw [htxid, update_self]

/-- What exactly-once rendezvous means. -/
structure ExactlyOnce (c : Config τ (Net κ τ α) (Local κ α)) : Prop where
  /-- a transaction id goes from `0` to `1` and back, or to `2` -/
  moves : ∀ a c', (netProcess κ τ α).fire a c = some c' →
    ∀ x, TxidStep (c.shared.mem.txid x) (c'.shared.mem.txid x)
  /-- and stays there, whatever the threads do -/
  stays : ∀ as c', (netProcess κ τ α).run as c = some c' →
    ∀ x, c.shared.mem.txid x = 2 → c'.shared.mem.txid x = 2
  recorded : ∀ a c', (netProcess κ τ α).fire a c = some c' → Recorded c.shared c'.shared
  /-- a committed transaction id belongs to one commit -/
  committed : ∀ x, c.shared.mem.txid x = 2 → ∃! k, k ∈ c.shared.log ∧ x ∈ k.parties
  /-- no operation is committed twice, so of the events of a choice at most one is -/
  once : c.shared.parties.Nodup
  /-- a rendezvous is one of a sender and a receiver that offer it -/
  offered : ∀ s r ch m, .pair s r ch m ∈ c.shared.log →
    ∃ v, m = some v ∧ ⟨ch, some v⟩ ∈ c.shared.req s ∧ ⟨ch, none⟩ ∈ c.shared.req r
  /-- a message that a receiver gets comes from the one sender it is committed with -/
  received : ∀ r m, (r, some m) ∈ c.shared.delivered →
    ∃! s, ∃ ch, .pair s r ch (some m) ∈ c.shared.log
  /-- and the message of a sender goes to one receiver -/
  sent : ∀ s r r' ch ch' m m', .pair s r ch m ∈ c.shared.log → .pair s r' ch' m' ∈ c.shared.log →
    r = r' ∧ ch = ch' ∧ m = m'
  /-- no operation is delivered to twice -/
  delivered : (c.shared.delivered.map Prod.fst).Nodup

omit [DecidableEq κ] [DecidableEq τ] [DecidableEq α] in
/-- Two commits of the log with a common party are the same. -/
theorem eq_of_mem_parties {n : Net κ τ α} (h : n.parties.Nodup) {k k' : Commit κ α} {x : ℕ}
    (hk : k ∈ n.log) (hk' : k' ∈ n.log) (hx : x ∈ k.parties) (hx' : x ∈ k'.parties) : k = k' := by
  by_contra hne
  have hpair := (nodup_flatMap.1 h).2
  have hsymm : Std.Symm (onFun List.Disjoint (Commit.parties : Commit κ α → List ℕ)) :=
    ⟨fun _ _ hd => List.Disjoint.symm hd⟩
  exact hpair.forall hk hk' hne hx hx'

omit [DecidableEq κ] [DecidableEq τ] [DecidableEq α] in
theorem delivered_nodup (hI : Inv c) : (c.shared.delivered.map Prod.fst).Nodup := by
  have hlying := hI.tokens.lying
  have hmap : c.shared.toks = (c.shared.delivered.map Prod.fst).map Tok.win := by
    rw [List.map_map]
    rfl
  rw [hmap] at hlying
  exact hlying.of_map _

theorem txid_stays {c c' : Config τ (Net κ τ α) (Local κ α)} {as : List (τ × Choice κ α)}
    (hI : Inv c) (h : (netProcess κ τ α).run as c = some c') {x : ℕ}
    (hx : c.shared.mem.txid x = 2) : c'.shared.mem.txid x = 2 := by
  induction as generalizing c with
  | nil =>
    cases h
    exact hx
  | cons a as ih =>
    obtain ⟨d, hd, hr⟩ := bind_eq_some_iff.1 h
    obtain ⟨n', l', hstep, rfl⟩ := Process.fire_eq_some_iff.1 hd
    have hmove := move_of_step hstep
    refine ih (hI.step hmove) hr ?_
    have htxid := txidStep_of_effect (hI.holds _) (hmove.effect (hI.holds _) (hI.threads _)) x
    rw [hx] at htxid
    generalize hv : n'.mem.txid x = v at htxid
    cases htxid
    exact hv

/-- Rendezvous happen exactly once, whatever the threads do and however they interleave. -/
theorem exactlyOnce {c : Config τ (Net κ τ α) (Local κ α)}
    (h : (netProcess κ τ α).Reachable Initial c) : ExactlyOnce c := by
  have hI := inv_of_reachable h
  have heffect {a : τ × Choice κ α} {c' : Config τ (Net κ τ α) (Local κ α)}
      (hf : (netProcess κ τ α).fire a c = some c') : Effect c.shared (c.loc a.1).toks c'.shared := by
    obtain ⟨n', l', hstep, rfl⟩ := Process.fire_eq_some_iff.1 hf
    exact (move_of_step hstep).effect (hI.holds _) (hI.threads _)
  refine ⟨fun a c' hf => txidStep_of_effect (hI.holds _) (heffect hf),
    fun as c' hr x => txid_stays hI hr, fun a c' hf => recorded_of_effect (hI.holds _) (heffect hf),
    fun x hx => ?_, hI.ids.once, hI.net.offered, fun r m hr => ?_, ?_, delivered_nodup hI⟩
  · obtain ⟨k, hk, hmem⟩ := List.mem_flatMap.1 (hI.ids.committed x hx)
    exact ⟨k, ⟨hk, hmem⟩, fun k' hk' => eq_of_mem_parties hI.ids.once hk'.1 hk hk'.2 hmem⟩
  · obtain ⟨s, ch, hlog⟩ := hI.net.delivered _ hr
    refine ⟨s, ⟨ch, hlog⟩, ?_⟩
    rintro s' ⟨ch', hlog'⟩
    have heq := eq_of_mem_parties (x := r) hI.ids.once hlog' hlog (by simp [Commit.parties])
      (by simp [Commit.parties])
    cases heq
    rfl
  · intro s r r' ch ch' m m' hlog hlog'
    have heq := eq_of_mem_parties (x := s) hI.ids.once hlog hlog' (by simp [Commit.parties])
      (by simp [Commit.parties])
    cases heq
    exact ⟨rfl, rfl, rfl⟩

end Runs

/-- Thread `0` synchronises on a choice of receiving from channel `0` and sending `6` to channel
`1`; thread `3`, which sends `5` to channel `0`, meets the parasite of thread `1`. -/
def choiceMet : List (ℕ × Choice ℕ ℕ) :=
  let go (t : ℕ) : ℕ × Choice ℕ ℕ := (t, .go)
  [(0, .sync [recvEvt 0, sendEvt 1 6]), (0, .block), (1, .spawn 0 (recvEvt 0)),
    (2, .spawn 0 (sendEvt 1 6)), go 1, go 1, go 1, go 1, go 2, go 2, go 2, go 2,
    (3, .call (send 0 5)), go 3, go 3, go 3, go 3, go 3, go 3, go 3, go 3, go 1, go 1, go 1, go 1,
    go 0]

theorem exactlyOnce_choiceMet :
    ∃ c : Config ℕ (Net ℕ ℕ ℕ) (Local ℕ ℕ), (netProcess ℕ ℕ ℕ).Reachable Initial c ∧
      c.shared.results = [(0, .ret (some 5)), (3, .ret none)] ∧ ExactlyOnce c := by
  have hrun : ((netProcess ℕ ℕ ℕ).run choiceMet ⟨Net.init ℕ ℕ ℕ, fun _ => .idle⟩).map
      (fun c => c.shared.results) = some [(0, .ret (some 5)), (3, .ret none)] := by
    decide +kernel
  obtain ⟨c, hrun, hresults⟩ := Option.map_eq_some_iff.1 hrun
  have hinit : Initial ⟨Net.init ℕ ℕ ℕ, fun _ : ℕ => Local.idle⟩ := ⟨rfl, fun _ => rfl⟩
  have hr := Process.reachable_of_run (.start hinit) hrun
  exact ⟨c, hr, hresults, exactlyOnce hr⟩

end MultiMLton.Channel
