import Mathlib.Data.List.Infix
import MultiMLton.Lib.Interleave

/-!
# Multicast channels

`lib/multicast.sml`: the server of one channel fills a chain of I-variables, each with a message and
the next I-variable; the `tee` thread of a port follows the chain and offers the messages on the
channel of the port, whose M-variable `stateVar` has the I-variable after the last message received.
An operation on a channel, an I-variable or an M-variable is one step, and a rendezvous is a step of
the client, with the server or the `tee` thread that it meets.

* `Shared`, `Client`, `Act`, `step`; what has been sent, and what each port has received and is not
  to get, is recorded beside the state;
* `Inv` for every run: each port gets consecutive messages from where it started;
* `Orderly` for the runs whose `mSwap`s of a port come in the order of its `recv`s: a copy starts
  behind what the port had returned;
* `delivered`.
-/

namespace MultiMLton.Multicast

open Interleave List Option Nat
open Config (put_loc put_loc_of_ne put_loc_self put_shared)
open Function (update update_of_ne update_self)

universe u v

/-! ### The code -/

/-- `tee`: reading an I-variable, or offering its contents. -/
inductive Tee (α : Type u)
  | iGet (cv : ℕ)
  | send (v : α) (nextCV : ℕ)

/-- A port.  `start` is the I-variable that it was made with; `skipped` has the messages that it is
not to get, `received` those that `Channel.recv` has taken from it, and `returned` those whose
`recv` has done its `mSwap`. -/
structure Port (α : Type u) where
  tee : Tee α
  stateVar : ℕ
  start : ℕ
  copied : Bool
  skipped : List α
  received : List α
  returned : List α

/-- `server`, with its I-variable. -/
inductive Server (α : Type u)
  | recv (cv : ℕ)
  | iPut (cv : ℕ) (m : α)
  | mkPort (cv : ℕ)
  | reply (cv : ℕ) (port : ℕ)
  /-- `iPut` has raised `Put` -/
  | raised

/-- The I-variables and the ports are numbered as they are made. -/
structure Shared (α : Type u) where
  cells : ℕ → Option (α × ℕ)
  nextCell : ℕ
  server : Server α
  ports : ℕ → Port α
  numPorts : ℕ
  sent : List α

inductive Client (α : Type u)
  | idle
  /-- `Channel.send (ch, Message m)` -/
  | multicast (m : α)
  /-- `Channel.send (reqCh, NewPort)` -/
  | newPort
  /-- `Channel.recv replyCh` -/
  | reply
  /-- `Channel.recv ch` -/
  | recv (port : ℕ)
  /-- `recvMsg` -/
  | mSwap (port : ℕ) (v : α) (nextCV : ℕ)
  /-- `SV.mGet stateV` -/
  | mGet (port : ℕ)
  | mkPort (cv : ℕ) (skipped : List α)

/-- What a client calls when it is idle; otherwise it goes on, or the server or a `tee` thread
does. -/
inductive Act (α : Type u)
  | multicast (m : α)
  | port
  | recv (port : ℕ)
  | copy (port : ℕ)
  | go
  | server
  | tee (port : ℕ)

variable {τ : Type v} {α : Type u}

def mkPort (s : Shared α) (cv : ℕ) (copied : Bool) (skipped : List α) : Shared α := { s with
  ports := update s.ports s.numPorts ⟨.iGet cv, cv, cv, copied, skipped, [], []⟩
  numPorts := s.numPorts + 1 }

def setPort (s : Shared α) (p : ℕ) (port : Port α) : Shared α :=
  { s with ports := update s.ports p port }

def serverStep (s : Shared α) : Option (Shared α) :=
  match s.server with
  | .iPut cv m => match s.cells cv with
    | none => some { s with
        cells := update s.cells cv (some (m, s.nextCell))
        nextCell := s.nextCell + 1
        server := .recv s.nextCell }
    | some _ => some { s with server := .raised }
  | .mkPort cv => some { mkPort s cv false s.sent with server := .reply cv s.numPorts }
  | _ => none

def teeStep (s : Shared α) (p : ℕ) : Option (Shared α) :=
  match (s.ports p).tee with
  | .iGet cv => (s.cells cv).map fun (v, nextCV) =>
      setPort s p { s.ports p with tee := .send v nextCV }
  | .send _ _ => none

def clientStep (s : Shared α) : Client α → Option (Shared α × Client α)
  | .idle => none
  | .multicast m => match s.server with
    | .recv cv => some ({ s with server := .iPut cv m, sent := s.sent ++ [m] }, .idle)
    | _ => none
  | .newPort => match s.server with
    | .recv cv => some ({ s with server := .mkPort cv }, .reply)
    | _ => none
  | .reply => match s.server with
    | .reply cv _ => some ({ s with server := .recv cv }, .idle)
    | _ => none
  | .recv p => match (s.ports p).tee with
    | .send v nextCV => some (setPort s p { s.ports p with
        tee := .iGet nextCV, received := (s.ports p).received ++ [v] }, .mSwap p v nextCV)
    | .iGet _ => none
  | .mSwap p v nextCV => some (setPort s p { s.ports p with
      stateVar := nextCV, returned := (s.ports p).returned ++ [v] }, .idle)
  | .mGet p => some (s, .mkPort (s.ports p).stateVar ((s.ports p).skipped ++ (s.ports p).returned))
  | .mkPort cv skipped => some (mkPort s cv true skipped, .idle)

section Equations

attribute [local simp] clientStep

end Equations

def step (_ : τ) (a : Act α) (s : Shared α) (l : Client α) : Option (Shared α × Client α) :=
  match a, l with
  | .server, l => (serverStep s).map (·, l)
  | .tee p, l => if p < s.numPorts then (teeStep s p).map (·, l) else none
  | .go, l => clientStep s l
  | .multicast m, .idle => some (s, .multicast m)
  | .port, .idle => some (s, .newPort)
  | .recv p, .idle => if p < s.numPorts then some (s, .recv p) else none
  | .copy p, .idle => if p < s.numPorts then some (s, .mGet p) else none
  | _, _ => none

def process (τ : Type v) (α : Type u) : Process τ (Act α) (Shared α) (Client α) := ⟨step⟩

/-- After `mChannel ()`. -/
structure Start (c : Config τ (Shared α) (Client α)) : Prop where
  cells : ∀ k, c.shared.cells k = none
  nextCell : c.shared.nextCell = 1
  server : c.shared.server = .recv 0
  numPorts : c.shared.numPorts = 0
  sent : c.shared.sent = []
  loc : ∀ t, c.loc t = .idle

/-! ### Every run -/

def Server.cv : Server α → ℕ
  | .recv cv | .iPut cv _ | .mkPort cv | .reply cv _ => cv
  | .raised => 0

/-- The chain has what has been sent, except for a message on its way. -/
def Server.Sound (sent : List α) : Server α → Prop
  | .recv cv | .mkPort cv | .reply cv _ => sent.length = cv
  | .iPut cv m => ∃ before, sent = before ++ [m] ∧ before.length = cv
  | .raised => False

def Tee.Sound (sent : List α) (cv pos : ℕ) : Tee α → Prop
  | .iGet k => k = pos
  | .send v k => k = pos + 1 ∧ pos < cv ∧ sent[pos]? = some v

/-- What holds of a port when `sent` has been sent, and the server is at `cv`. -/
structure Port.Sound (sent : List α) (cv : ℕ) (port : Port α) : Prop where
  tee : port.tee.Sound sent cv (port.start + port.received.length)
  le : port.start + port.received.length ≤ cv
  received : port.received <+: sent.drop port.start
  stateVar : port.stateVar ≤ cv
  skipped : port.copied = false → port.skipped <+: sent ∧ port.skipped.length = port.start

structure Shared.Sound (s : Shared α) : Prop where
  server : s.server.Sound s.sent
  nextCell : s.nextCell = s.server.cv + 1
  cells : ∀ k, s.cells k = if k < s.server.cv then s.sent[k]?.map (·, k + 1) else none
  port : ∀ p < s.numPorts, (s.ports p).Sound s.sent s.server.cv

def Client.Sound (s : Shared α) : Client α → Prop
  | .recv p | .mGet p => p < s.numPorts
  | .mSwap p _ k => p < s.numPorts ∧ k ≤ (s.ports p).start + (s.ports p).received.length
  | .mkPort cv _ => cv ≤ s.server.cv
  | _ => True

structure Inv (c : Config τ (Shared α) (Client α)) : Prop where
  shared : c.shared.Sound
  client : ∀ t, (c.loc t).Sound c.shared

/-- The state only grows. -/
structure Grow (s s' : Shared α) : Prop where
  sent : s.sent <+: s'.sent
  cv : s.server.cv ≤ s'.server.cv
  numPorts : s.numPorts ≤ s'.numPorts
  start : ∀ p < s.numPorts, (s'.ports p).start = (s.ports p).start
  received : ∀ p < s.numPorts, (s.ports p).received <+: (s'.ports p).received

section

variable {s s' : Shared α} {l l' : Client α}

theorem setPort_self (s : Shared α) (p : ℕ) (port : Port α) : (setPort s p port).ports p = port :=
  update_self _ _ _

theorem setPort_of_ne {p q : ℕ} (hq : q ≠ p) (s : Shared α) (port : Port α) :
    (setPort s p port).ports q = s.ports q :=
  update_of_ne hq _ _

theorem Server.Sound.cv_le {sent : List α} {server : Server α} (h : server.Sound sent) :
    server.cv ≤ sent.length := by
  cases server with
  | iPut cv m =>
    obtain ⟨before, rfl, hlen⟩ := h
    rw [length_append]
    exact hlen.ge.trans (le_add_right _ _)
  | raised => exact zero_le _
  | _ => exact h.ge

/-- A prefix, with the element after it. -/
theorem prefix_snoc {xs ys : List α} {v : α} (h : xs <+: ys) (hv : ys[xs.length]? = some v) :
    xs ++ [v] <+: ys := by
  obtain ⟨rest, rfl⟩ := h
  rw [List.getElem?_append_right le_rfl, Nat.sub_self] at hv
  cases rest with
  | nil => cases hv
  | cons w rest =>
    cases hv
    exact ⟨rest, by rw [append_assoc]; rfl⟩

theorem Port.Sound.mono {sent sent' : List α} {cv cv' : ℕ} {port : Port α}
    (h : port.Sound sent cv) (hsent : sent <+: sent') (hcv : cv ≤ cv') : port.Sound sent' cv' := by
  refine ⟨?_, h.le.trans hcv, h.received.trans (hsent.drop _), h.stateVar.trans hcv,
    fun hcopied => ?_⟩
  · have htee := h.tee
    cases hport : port.tee with
    | iGet k =>
      rw [hport] at htee
      exact htee
    | send v k =>
      rw [hport] at htee
      obtain ⟨rest, rfl⟩ := hsent
      refine ⟨htee.1, htee.2.1.trans_le hcv, ?_⟩
      rw [List.getElem?_append_left (List.getElem?_eq_some_iff.mp htee.2.2).1]
      exact htee.2.2
  · exact ⟨(h.skipped hcopied).1.trans hsent, (h.skipped hcopied).2⟩

theorem Client.Sound.mono (h : l.Sound s) (hgrow : Grow s s') : l.Sound s' := by
  cases l with
  | recv p | mGet p => exact h.trans_le hgrow.numPorts
  | mSwap p v k =>
    refine ⟨h.1.trans_le hgrow.numPorts, h.2.trans ?_⟩
    rw [hgrow.start p h.1]
    exact Nat.add_le_add_left (hgrow.received p h.1).length_le _
  | mkPort cv skipped => exact h.trans hgrow.cv
  | _ => trivial

theorem Grow.of_ports (hsent : s.sent <+: s'.sent) (hcv : s.server.cv ≤ s'.server.cv)
    (hports : s'.ports = s.ports) (hnum : s'.numPorts = s.numPorts) : Grow s s' :=
  ⟨hsent, hcv, hnum.ge, fun p _ => by rw [hports], fun p _ => by rw [hports]⟩

theorem Grow.setPort {p : ℕ} {port : Port α} (hstart : port.start = (s.ports p).start)
    (hreceived : (s.ports p).received <+: port.received) : Grow s (setPort s p port) := by
  refine ⟨prefix_rfl, le_rfl, le_rfl, fun q _ => ?_, fun q _ => ?_⟩
  · show (update s.ports p port q).start = _
    by_cases hq : q = p
    · rw [hq, update_self, hstart]
    · rw [update_of_ne hq]
  · show _ <+: (update s.ports p port q).received
    by_cases hq : q = p
    · rw [hq, update_self]
      exact hreceived
    · rw [update_of_ne hq]

theorem Grow.mkPort (cv : ℕ) (copied : Bool) (skipped : List α) :
    Grow s (mkPort s cv copied skipped) := by
  have hports : ∀ p < s.numPorts, (Multicast.mkPort s cv copied skipped).ports p = s.ports p :=
    fun p hp => update_of_ne hp.ne _ _
  exact ⟨prefix_rfl, le_rfl, le_succ _, fun p hp => by rw [hports p hp],
    fun p hp => by rw [hports p hp]⟩

theorem Shared.Sound.setPort (h : s.Sound) {p : ℕ} {port : Port α}
    (hport : port.Sound s.sent s.server.cv) : (setPort s p port).Sound := by
  refine ⟨h.server, h.nextCell, h.cells, fun q hq => ?_⟩
  show (update s.ports p port q).Sound s.sent s.server.cv
  by_cases hqp : q = p
  · rw [hqp, update_self]
    exact hport
  · rw [update_of_ne hqp]
    exact h.port q hq

theorem Shared.Sound.mkPort (h : s.Sound) {cv : ℕ} (hcv : cv ≤ s.server.cv) {copied : Bool}
    {skipped : List α} (hskipped : copied = false → skipped <+: s.sent ∧ skipped.length = cv) :
    (mkPort s cv copied skipped).Sound := by
  refine ⟨h.server, h.nextCell, h.cells, fun q hq => ?_⟩
  show (update s.ports s.numPorts _ q).Sound s.sent s.server.cv
  by_cases hqp : q = s.numPorts
  · rw [hqp, update_self]
    exact ⟨rfl, hcv, nil_prefix, hcv, hskipped⟩
  · rw [update_of_ne hqp]
    exact h.port q (lt_of_le_of_ne (le_of_lt_succ hq) hqp)

/-- The server goes on without filling an I-variable. -/
theorem Shared.Sound.server_eq (h : s.Sound) {server : Server α} {sent : List α}
    (hserver : server.Sound sent) (hcv : server.cv = s.server.cv) (hsent : s.sent <+: sent) :
    ({ s with server := server, sent := sent } : Shared α).Sound := by
  refine ⟨hserver, by rw [h.nextCell, hcv], fun k => ?_, fun p hp => ?_⟩
  · show s.cells k = if k < server.cv then sent[k]?.map (·, k + 1) else none
    rw [h.cells, hcv]
    split_ifs with hk
    · obtain ⟨rest, rfl⟩ := hsent
      rw [List.getElem?_append_left (hk.trans_le h.server.cv_le)]
    · rfl
  · exact (h.port p hp).mono hsent hcv.ge

theorem serverStep_sound (h : s.Sound) (hstep : serverStep s = some s') :
    s'.Sound ∧ Grow s s' := by
  unfold serverStep at hstep
  split at hstep
  · rename_i cv m hserver
    have hsent := h.server
    rw [hserver] at hsent
    obtain ⟨before, hbefore, hlen⟩ := hsent
    have hnone : s.cells cv = none := by
      rw [h.cells, hserver]
      exact if_neg (lt_irrefl cv)
    have hnext : s.nextCell = cv + 1 := by rw [h.nextCell, hserver]; rfl
    rw [hnone] at hstep
    cases hstep
    have hgrow : s.server.cv ≤ s.nextCell := by rw [h.nextCell]; exact le_succ _
    refine ⟨⟨?_, rfl, fun k => ?_, fun p hp => (h.port p hp).mono prefix_rfl hgrow⟩,
      Grow.of_ports prefix_rfl hgrow rfl rfl⟩
    · show s.sent.length = s.nextCell
      rw [hbefore, hnext, length_append, hlen]
      rfl
    · show update s.cells cv _ k =
        if k < s.nextCell then s.sent[k]?.map (·, k + 1) else none
      rw [hnext]
      by_cases hk : k = cv
      · subst hk
        rw [update_self, if_pos (lt_succ_self k), hbefore, ← hlen,
          getElem?_concat_length]
        rfl
      · rw [update_of_ne hk, h.cells, hserver]
        show (if k < cv then _ else none) = _
        by_cases hlt : k < cv
        · rw [if_pos hlt, if_pos (hlt.trans (lt_succ_self cv))]
        · rw [if_neg hlt, if_neg (by omega)]
  · rename_i cv hserver
    cases hstep
    have hsent := h.server
    rw [hserver] at hsent
    have hport : (Multicast.mkPort s cv false s.sent).Sound :=
      h.mkPort (by rw [hserver]; exact le_rfl) fun _ => ⟨prefix_rfl, hsent⟩
    have hcv : (Server.reply cv s.numPorts : Server α).cv = s.server.cv := by rw [hserver]; rfl
    refine ⟨hport.server_eq hsent hcv prefix_rfl, ?_⟩
    have hgrow := Grow.mkPort (s := s) cv false s.sent
    exact ⟨hgrow.sent, hcv.ge, hgrow.numPorts, hgrow.start, hgrow.received⟩
  · cases hstep

theorem teeStep_sound (h : s.Sound) {p : ℕ} (hp : p < s.numPorts)
    (hstep : teeStep s p = some s') : s'.Sound ∧ Grow s s' := by
  unfold teeStep at hstep
  split at hstep
  · rename_i cv htee
    obtain ⟨⟨v, nextCV⟩, hcell, rfl⟩ := map_eq_some_iff.mp hstep
    have hport := h.port p hp
    have hpos := hport.tee
    rw [htee] at hpos
    rw [h.cells] at hcell
    split_ifs at hcell with hlt
    obtain ⟨w, hw, hwv⟩ := map_eq_some_iff.mp hcell
    cases hwv
    have hcv : cv = (s.ports p).start + (s.ports p).received.length := hpos
    refine ⟨h.setPort ⟨⟨by rw [← hcv], ?_, ?_⟩, hport.le, hport.received, hport.stateVar,
      hport.skipped⟩, Grow.setPort rfl prefix_rfl⟩
    · rw [← hcv]
      exact hlt
    · rw [← hcv]
      exact hw
  · cases hstep

theorem clientStep_sound (h : s.Sound) (hl : l.Sound s) (hstep : clientStep s l = some (s', l')) :
    s'.Sound ∧ Grow s s' ∧ l'.Sound s' := by
  cases l with
  | idle => cases hstep
  | multicast m =>
    simp only [clientStep] at hstep
    split at hstep
    · rename_i cv hserver
      cases hstep
      have hlen := h.server
      rw [hserver] at hlen
      have hcv : (Server.iPut cv m).cv = s.server.cv := by rw [hserver]; rfl
      have hsent : s.sent <+: s.sent ++ [m] := prefix_append _ _
      exact ⟨h.server_eq ⟨s.sent, rfl, hlen⟩ hcv hsent, Grow.of_ports hsent hcv.ge rfl rfl, trivial⟩
    · cases hstep
  | newPort =>
    simp only [clientStep] at hstep
    split at hstep
    · rename_i cv hserver
      cases hstep
      have hlen := h.server
      rw [hserver] at hlen
      have hcv : (Server.mkPort cv : Server α).cv = s.server.cv := by rw [hserver]; rfl
      exact ⟨h.server_eq hlen hcv prefix_rfl, Grow.of_ports prefix_rfl hcv.ge rfl rfl,
        trivial⟩
    · cases hstep
  | reply =>
    simp only [clientStep] at hstep
    split at hstep
    · rename_i cv p hserver
      cases hstep
      have hlen := h.server
      rw [hserver] at hlen
      have hcv : (Server.recv cv : Server α).cv = s.server.cv := by rw [hserver]; rfl
      exact ⟨h.server_eq hlen hcv prefix_rfl, Grow.of_ports prefix_rfl hcv.ge rfl rfl,
        trivial⟩
    · cases hstep
  | recv p =>
    simp only [clientStep] at hstep
    split at hstep
    · rename_i v nextCV htee
      cases hstep
      have hport := h.port p hl
      have hpos := hport.tee
      rw [htee] at hpos
      obtain ⟨rfl, hlt, hv⟩ := hpos
      have hreceived : (s.ports p).received ++ [v] <+: s.sent.drop (s.ports p).start := by
        refine prefix_snoc hport.received ?_
        rw [getElem?_drop]
        exact hv
      have hlen : (s.ports p).start + ((s.ports p).received ++ [v]).length =
          (s.ports p).start + (s.ports p).received.length + 1 := by
        rw [length_append]
        rfl
      refine ⟨h.setPort ⟨hlen.symm, ?_, hreceived, hport.stateVar, hport.skipped⟩,
        Grow.setPort rfl (prefix_append _ _), hl, ?_⟩
      · exact hlen.le.trans hlt
      · show _ ≤ ((setPort s p _).ports p).start + ((setPort s p _).ports p).received.length
        rw [setPort_self]
        exact hlen.ge
    · cases hstep
  | mSwap p v nextCV =>
    cases hstep
    have hport := h.port p hl.1
    exact ⟨h.setPort ⟨hport.tee, hport.le, hport.received, hl.2.trans hport.le, hport.skipped⟩,
      Grow.setPort rfl prefix_rfl, trivial⟩
  | mGet p =>
    cases hstep
    exact ⟨h, Grow.of_ports prefix_rfl le_rfl rfl rfl, (h.port p hl).stateVar⟩
  | mkPort cv skipped =>
    cases hstep
    exact ⟨h.mkPort hl nofun, Grow.mkPort cv true skipped, trivial⟩

end

section

variable {c : Config τ (Shared α) (Client α)} {t : τ} {a : Act α} {s : Shared α} {l : Client α}

variable {s₀ : Shared α}

/-- What a step does: it is one of the server, of a `tee` thread, or of the client. -/
theorem step_cases {l₀ : Client α} (hstep : step t a s₀ l₀ = some (s, l)) :
    (serverStep s₀ = some s ∧ l = l₀) ∨
      (∃ p < s₀.numPorts, teeStep s₀ p = some s ∧ l = l₀) ∨
      (a = .go ∧ clientStep s₀ l₀ = some (s, l)) ∨
      (s = s₀ ∧ l₀ = .idle ∧ ((∃ m, l = .multicast m) ∨ l = .newPort ∨
        ∃ p < s₀.numPorts, l = .recv p ∨ l = .mGet p)) := by
  unfold step at hstep
  split at hstep
  · obtain ⟨s', hserver, hr⟩ := map_eq_some_iff.mp hstep
    cases hr
    exact Or.inl ⟨hserver, rfl⟩
  · rename_i p
    split_ifs at hstep with hp
    obtain ⟨s', htee, hr⟩ := map_eq_some_iff.mp hstep
    cases hr
    exact Or.inr (Or.inl ⟨p, hp, htee, rfl⟩)
  · exact Or.inr (Or.inr (Or.inl ⟨rfl, hstep⟩))
  · rename_i m
    cases hstep
    exact Or.inr (Or.inr (Or.inr ⟨rfl, rfl, Or.inl ⟨m, rfl⟩⟩))
  · cases hstep
    exact Or.inr (Or.inr (Or.inr ⟨rfl, rfl, Or.inr (Or.inl rfl)⟩))
  · rename_i p
    split_ifs at hstep with hp
    cases hstep
    exact Or.inr (Or.inr (Or.inr ⟨rfl, rfl, Or.inr (Or.inr ⟨p, hp, Or.inl rfl⟩)⟩))
  · rename_i p
    split_ifs at hstep with hp
    cases hstep
    exact Or.inr (Or.inr (Or.inr ⟨rfl, rfl, Or.inr (Or.inr ⟨p, hp, Or.inr rfl⟩)⟩))
  · cases hstep

theorem Start.inv (h : Start c) : Inv c := by
  refine ⟨⟨?_, ?_, fun k => ?_, fun p hp => ?_⟩, fun u => ?_⟩
  · rw [h.server, h.sent]
    rfl
  · rw [h.nextCell, h.server]
    rfl
  · rw [h.cells, h.server]
    exact (if_neg (not_lt_zero k)).symm
  · rw [h.numPorts] at hp
    exact absurd hp (not_lt_zero p)
  · rw [h.loc]
    trivial

theorem Inv.put [DecidableEq τ] (h : Inv c) (hs : s.Sound) (hgrow : Grow c.shared s)
    (hl : l.Sound s) : Inv (c.put t s l) := by
  refine ⟨hs, fun u => ?_⟩
  rw [put_loc, put_shared]
  split_ifs with hu
  · exact hl
  · exact (h.client u).mono hgrow

theorem Inv.step [DecidableEq τ] (h : Inv c) (hstep : step t a c.shared (c.loc t) = some (s, l)) :
    Inv (c.put t s l) := by
  rcases step_cases hstep with ⟨hserver, rfl⟩ | ⟨p, hp, htee, rfl⟩ | ⟨-, hclient⟩ | ⟨rfl, -, hl⟩
  · obtain ⟨hs, hgrow⟩ := serverStep_sound h.shared hserver
    exact h.put hs hgrow ((h.client t).mono hgrow)
  · obtain ⟨hs, hgrow⟩ := teeStep_sound h.shared hp htee
    exact h.put hs hgrow ((h.client t).mono hgrow)
  · obtain ⟨hs, hgrow, hl⟩ := clientStep_sound h.shared (h.client t) hclient
    exact h.put hs hgrow hl
  · refine h.put h.shared (Grow.of_ports prefix_rfl le_rfl rfl rfl) ?_
    rcases hl with ⟨m, rfl⟩ | rfl | ⟨p, hp, rfl | rfl⟩
    · trivial
    · trivial
    · exact hp
    · exact hp

/-! ### Swaps in order -/

/-- An `mSwap` comes when those for earlier messages of the port have come. -/
def InOrder (c : Config τ (Shared α) (Client α)) (a : τ × Act α) : Prop :=
  a.2 = .go → ∀ p v k, c.loc a.1 = .mSwap p v k → ∀ u v' k', c.loc u = .mSwap p v' k' → k ≤ k'

structure Port.Orderly (sent : List α) (port : Port α) : Prop where
  skipped : port.skipped <+: sent
  length : port.skipped.length = port.start
  returned : port.returned <+: port.received
  stateVar : port.stateVar = port.start + port.returned.length

def Client.Orderly (s : Shared α) : Client α → Prop
  | .mSwap p v k => ∃ j, k = (s.ports p).start + j + 1 ∧ (s.ports p).returned.length ≤ j ∧
      (s.ports p).received[j]? = some v
  | .mkPort cv skipped => skipped <+: s.sent ∧ skipped.length = cv
  | _ => True

structure Orderly (c : Config τ (Shared α) (Client α)) : Prop where
  port : ∀ p < c.shared.numPorts, (c.shared.ports p).Orderly c.shared.sent
  client : ∀ t, (c.loc t).Orderly c.shared
  /-- Every message that has been received and not returned is with a client. -/
  holder : ∀ p < c.shared.numPorts, ∀ j, (c.shared.ports p).returned.length ≤ j →
    j < (c.shared.ports p).received.length →
      ∃ t v, c.loc t = .mSwap p v ((c.shared.ports p).start + j + 1)
  unique : ∀ t u p v v' k, c.loc t = .mSwap p v k → c.loc u = .mSwap p v' k → t = u

/-- A step that leaves what the ports have received, and returned. -/
structure Calm (s s' : Shared α) : Prop where
  sent : s.sent <+: s'.sent
  port : ∀ p < s.numPorts, s'.ports p = { s.ports p with tee := (s'.ports p).tee }
  new : ∀ p < s'.numPorts, p < s.numPorts ∨
    ((s'.ports p).received = [] ∧ (s'.ports p).Orderly s'.sent)

theorem Port.Orderly.mono {sent sent' : List α} {port : Port α} (h : port.Orderly sent)
    (hsent : sent <+: sent') : port.Orderly sent' :=
  ⟨h.skipped.trans hsent, h.length, h.returned, h.stateVar⟩

theorem Client.Orderly.mono (h : l.Orderly s₀) (hl : l.Sound s₀)
    (hcalm : Calm s₀ s) : l.Orderly s := by
  cases l with
  | mSwap p v k =>
    obtain ⟨j, hk, hj, hv⟩ := h
    refine ⟨j, ?_⟩
    rw [hcalm.port p hl.1]
    exact ⟨hk, hj, hv⟩
  | mkPort cv skipped => exact ⟨h.1.trans hcalm.sent, h.2⟩
  | _ => trivial

theorem Start.orderly (h : Start c) : Orderly c := by
  have hnone : ∀ u p v k, c.loc u ≠ .mSwap p v k := by
    intro u p v k
    rw [h.loc]
    exact nofun
  refine ⟨fun p hp => ?_, fun u => ?_, fun p hp => ?_, fun u _ p v _ k hu => ?_⟩
  · rw [h.numPorts] at hp
    exact absurd hp (not_lt_zero p)
  · rw [h.loc]
    trivial
  · rw [h.numPorts] at hp
    exact absurd hp (not_lt_zero p)
  · exact absurd hu (hnone u p v k)

theorem Calm.of_ports (hsent : s₀.sent <+: s.sent) (hports : s.ports = s₀.ports)
    (hnum : s.numPorts = s₀.numPorts) : Calm s₀ s :=
  ⟨hsent, fun p _ => by rw [hports], fun p hp => Or.inl (by rwa [hnum] at hp)⟩

theorem Calm.mkPort {cv : ℕ} (copied : Bool) {skipped : List α}
    (hskipped : skipped <+: s₀.sent) (hlen : skipped.length = cv) :
    Calm s₀ (mkPort s₀ cv copied skipped) := by
  refine ⟨prefix_rfl, fun p hp => ?_, fun p hp => ?_⟩
  · have hport : (Multicast.mkPort s₀ cv copied skipped).ports p = s₀.ports p :=
      update_of_ne hp.ne _ _
    rw [hport]
  · rcases Nat.lt_succ_iff_lt_or_eq.mp hp with hold | rfl
    · exact Or.inl hold
    · have hport : (Multicast.mkPort s₀ cv copied skipped).ports s₀.numPorts =
          ⟨.iGet cv, cv, cv, copied, skipped, [], []⟩ := update_self _ _ _
      right
      rw [hport]
      exact ⟨rfl, hskipped, hlen, nil_prefix, rfl⟩

theorem serverStep_calm (h : s₀.Sound) (hstep : serverStep s₀ = some s) : Calm s₀ s := by
  unfold serverStep at hstep
  split at hstep
  · split at hstep <;>
    · cases hstep
      exact Calm.of_ports prefix_rfl rfl rfl
  · rename_i cv hserver
    cases hstep
    have hlen := h.server
    rw [hserver] at hlen
    have hcalm := Calm.mkPort false (prefix_refl s₀.sent) hlen
    exact ⟨hcalm.sent, hcalm.port, hcalm.new⟩
  · cases hstep

theorem teeStep_calm {p : ℕ} (hstep : teeStep s₀ p = some s) : Calm s₀ s := by
  unfold teeStep at hstep
  split at hstep
  · obtain ⟨⟨v, nextCV⟩, -, rfl⟩ := map_eq_some_iff.mp hstep
    refine ⟨prefix_rfl, fun q _ => ?_, fun q hq => Or.inl hq⟩
    dsimp only
    by_cases hq : q = p
    · rw [hq, setPort_self]
    · rw [setPort_of_ne hq]
  · cases hstep

theorem mSwap_inj {p p' k k' : ℕ} {v v' : α}
    (h : (Client.mSwap p v k : Client α) = .mSwap p' v' k') : p = p' ∧ v = v' ∧ k = k' := by
  cases h
  exact ⟨rfl, rfl, rfl⟩

variable [DecidableEq τ]

/-- The steps of a client that neither takes a message nor returns one. -/
theorem Orderly.put (hinv : Inv c) (h : Orderly c) (hcalm : Calm c.shared s)
    (hl : l.Orderly s) (hswap : ∀ p v k, l = .mSwap p v k ↔ c.loc t = .mSwap p v k) :
    Orderly (c.put t s l) := by
  have hloc : ∀ u p v k, (c.put t s l).loc u = .mSwap p v k ↔ c.loc u = .mSwap p v k := by
    intro u p v k
    rw [put_loc]
    split_ifs with hu
    · rw [hu]
      exact hswap p v k
    · exact Iff.rfl
  refine ⟨fun p hp => ?_, fun u => ?_, fun p hp j hj hlt => ?_, fun u u' p v v' k hu hu' => ?_⟩
  · rcases hcalm.new p hp with hold | hnew
    · have hport := (h.port p hold).mono hcalm.sent
      show (s.ports p).Orderly s.sent
      rw [hcalm.port p hold]
      exact ⟨hport.skipped, hport.length, hport.returned, hport.stateVar⟩
    · exact hnew.2
  · rw [put_loc]
    split_ifs with hu
    · exact hl
    · exact (h.client u).mono (hinv.client u) hcalm
  · rcases hcalm.new p hp with hold | hnew
    · rw [put_shared, hcalm.port p hold] at hj hlt ⊢
      obtain ⟨u, v, hu⟩ := h.holder p hold j hj hlt
      exact ⟨u, v, (hloc u p v _).mpr hu⟩
    · rw [put_shared, hnew.1] at hlt
      exact absurd hlt (not_lt_zero j)
  · exact h.unique u u' p v v' k ((hloc u p v k).mp hu) ((hloc u' p v' k).mp hu')

/-- `t` takes the next message of a port. -/
theorem Orderly.recv (hinv : Inv c) (h : Orderly c) {p k : ℕ} {v : α} (hp : p < c.shared.numPorts)
    (hl : c.loc t = .recv p) (htee : (c.shared.ports p).tee = .send v k) :
    Orderly (c.put t (setPort c.shared p { c.shared.ports p with
      tee := .iGet k, received := (c.shared.ports p).received ++ [v] }) (.mSwap p v k)) := by
  have hk := (hinv.shared.port p hp).tee
  rw [htee] at hk
  obtain ⟨rfl, -, -⟩ := hk
  have hport := h.port p hp
  -- nobody else holds the message
  have hfresh : ∀ u v', c.loc u ≠
      .mSwap p v' ((c.shared.ports p).start + (c.shared.ports p).received.length + 1) := by
    intro u v' hu
    have hle := (hinv.client u)
    rw [hu] at hle
    exact absurd hle.2 (by omega)
  have hne : ∀ u p' v' k', c.loc u = .mSwap p' v' k' → u ≠ t := by
    rintro u p' v' k' hu rfl
    rw [hl] at hu
    cases hu
  refine ⟨fun q hq => ?_, fun u => ?_, fun q hq j hj hlt => ?_, fun u u' q w w' k hu hu' => ?_⟩
  · show ((setPort c.shared p _).ports q).Orderly c.shared.sent
    by_cases hqp : q = p
    · rw [hqp, setPort_self]
      exact ⟨hport.skipped, hport.length, hport.returned.trans (prefix_append _ _),
        hport.stateVar⟩
    · rw [setPort_of_ne hqp]
      exact h.port q hq
  · rw [put_loc, put_shared]
    split_ifs with hu
    · refine ⟨(c.shared.ports p).received.length, ?_⟩
      rw [setPort_self]
      exact ⟨rfl, hport.returned.length_le, getElem?_concat_length⟩
    · have hold := h.client u
      cases hlu : c.loc u with
      | mSwap q w k =>
        rw [hlu] at hold
        obtain ⟨j, hk, hj, hw⟩ := hold
        refine ⟨j, ?_⟩
        by_cases hqp : q = p
        · subst hqp
          rw [setPort_self]
          refine ⟨hk, hj, ?_⟩
          rw [List.getElem?_append_left (List.getElem?_eq_some_iff.mp hw).1]
          exact hw
        · rw [setPort_of_ne hqp]
          exact ⟨hk, hj, hw⟩
      | mkPort cv skipped =>
        rw [hlu] at hold
        exact hold
      | _ => trivial
  · rw [put_shared] at hj hlt ⊢
    by_cases hqp : q = p
    · subst hqp
      rw [setPort_self] at hj hlt ⊢
      rw [length_append, List.length_singleton] at hlt
      rcases Nat.lt_succ_iff_lt_or_eq.mp hlt with hold | rfl
      · obtain ⟨u, w, hu⟩ := h.holder q hp j hj hold
        exact ⟨u, w, by rw [put_loc_of_ne (hne u _ _ _ hu), hu]⟩
      · exact ⟨t, v, by rw [put_loc_self]⟩
    · rw [setPort_of_ne hqp] at hj hlt ⊢
      obtain ⟨u, w, hu⟩ := h.holder q hq j hj hlt
      exact ⟨u, w, by rw [put_loc_of_ne (hne u _ _ _ hu), hu]⟩
  · rw [put_loc] at hu hu'
    split_ifs at hu hu' with hut hut' hut'
    · rw [hut, hut']
    · obtain ⟨rfl, -, rfl⟩ := mSwap_inj hu
      exact absurd hu' (hfresh u' w')
    · obtain ⟨rfl, -, rfl⟩ := mSwap_inj hu'
      exact absurd hu (hfresh u w)
    · exact h.unique u u' q w w' k hu hu'

/-- `t` returns the first message of a port that has not been returned. -/
theorem Orderly.mSwap (hinv : Inv c) (h : Orderly c) {p k : ℕ} {v : α}
    (hl : c.loc t = .mSwap p v k) (horder : InOrder c (t, .go)) :
    Orderly (c.put t (setPort c.shared p { c.shared.ports p with
      stateVar := k, returned := (c.shared.ports p).returned ++ [v] }) .idle) := by
  have hsound := hinv.client t
  rw [hl] at hsound
  have hp : p < c.shared.numPorts := hsound.1
  have hport := h.port p hp
  have hclient := h.client t
  rw [hl] at hclient
  obtain ⟨j, rfl, hj, hv⟩ := hclient
  have hlt : j < (c.shared.ports p).received.length := (List.getElem?_eq_some_iff.mp hv).1
  -- whoever holds the first message goes first
  have hfirst : j = (c.shared.ports p).returned.length := by
    obtain ⟨u, w, hu⟩ := h.holder p hp _ le_rfl (hj.trans_lt hlt)
    have hle := horder rfl p v _ hl u w _ hu
    omega
  subst hfirst
  have hlen : ((c.shared.ports p).returned ++ [v]).length =
      (c.shared.ports p).returned.length + 1 := by
    rw [length_append]
    rfl
  have hne : ∀ u v' j', c.loc u = .mSwap p v' ((c.shared.ports p).start + j' + 1) → u ≠ t →
      j' ≠ (c.shared.ports p).returned.length := by
    rintro u v' j' hu hut rfl
    exact hut (h.unique u t p v' v _ hu hl)
  refine ⟨fun q hq => ?_, fun u => ?_, fun q hq j' hj' hlt' => ?_, fun u u' q w w' k hu hu' => ?_⟩
  · show ((setPort c.shared p _).ports q).Orderly c.shared.sent
    by_cases hqp : q = p
    · rw [hqp, setPort_self]
      refine ⟨hport.skipped, hport.length, prefix_snoc hport.returned hv, ?_⟩
      rw [hlen]
      rfl
    · rw [setPort_of_ne hqp]
      exact h.port q hq
  · rw [put_loc, put_shared]
    split_ifs with hu
    · trivial
    · have hold := h.client u
      cases hlu : c.loc u with
      | mSwap q w k =>
        rw [hlu] at hold
        obtain ⟨j', hk, hj', hw⟩ := hold
        refine ⟨j', ?_⟩
        by_cases hqp : q = p
        · subst hqp
          rw [setPort_self]
          refine ⟨hk, ?_, hw⟩
          rw [hlen]
          exact lt_of_le_of_ne hj' (hne u w j' (by rw [hlu, hk]) hu).symm
        · rw [setPort_of_ne hqp]
          exact ⟨hk, hj', hw⟩
      | mkPort cv skipped =>
        rw [hlu] at hold
        exact hold
      | _ => trivial
  · rw [put_shared] at hj' hlt' ⊢
    by_cases hqp : q = p
    · subst hqp
      rw [setPort_self] at hj' hlt' ⊢
      rw [hlen] at hj'
      obtain ⟨u, w, hu⟩ := h.holder q hp j' (le_of_succ_le hj') hlt'
      refine ⟨u, w, ?_⟩
      rw [put_loc_of_ne, hu]
      rintro rfl
      rw [hl] at hu
      obtain ⟨-, -, heq⟩ := mSwap_inj hu
      omega
    · rw [setPort_of_ne hqp] at hj' hlt' ⊢
      obtain ⟨u, w, hu⟩ := h.holder q hq j' hj' hlt'
      refine ⟨u, w, ?_⟩
      rw [put_loc_of_ne, hu]
      rintro rfl
      rw [hl] at hu
      exact hqp (mSwap_inj hu).1.symm
  · rw [put_loc] at hu hu'
    split_ifs at hu hu' with hut hut'
    exact h.unique u u' q w w' k hu hu'

theorem Orderly.step (hinv : Inv c) (h : Orderly c) (horder : InOrder c (t, a))
    (hstep : step t a c.shared (c.loc t) = some (s, l)) : Orderly (c.put t s l) := by
  rcases step_cases hstep with
    ⟨hserver, rfl⟩ | ⟨p, -, htee, rfl⟩ | ⟨rfl, hclient⟩ | ⟨rfl, hidle, hl⟩
  · have hcalm := serverStep_calm hinv.shared hserver
    exact h.put hinv hcalm ((h.client t).mono (hinv.client t) hcalm) fun _ _ _ => Iff.rfl
  · have hcalm := teeStep_calm htee
    exact h.put hinv hcalm ((h.client t).mono (hinv.client t) hcalm) fun _ _ _ => Iff.rfl
  · cases hl : c.loc t with
    | idle =>
      rw [hl] at hclient
      cases hclient
    | multicast m =>
      rw [hl] at hclient
      simp only [clientStep] at hclient
      split at hclient
      · cases hclient
        refine h.put hinv (Calm.of_ports (prefix_append _ _) rfl rfl) trivial fun _ _ _ => ?_
        rw [hl]
        exact ⟨nofun, nofun⟩
      · cases hclient
    | newPort | reply =>
      rw [hl] at hclient
      simp only [clientStep] at hclient
      split at hclient
      · cases hclient
        refine h.put hinv (Calm.of_ports prefix_rfl rfl rfl) trivial fun _ _ _ => ?_
        rw [hl]
        exact ⟨nofun, nofun⟩
      · cases hclient
    | recv p =>
      have hp := hinv.client t
      rw [hl] at hclient hp
      simp only [clientStep] at hclient
      split at hclient
      · rename_i v nextCV htee
        cases hclient
        exact h.recv hinv hp hl htee
      · cases hclient
    | mSwap p v k =>
      rw [hl] at hclient
      cases hclient
      exact h.mSwap hinv hl horder
    | mGet p =>
      have hp := hinv.client t
      rw [hl] at hclient hp
      cases hclient
      have hport := h.port p hp
      refine h.put hinv (Calm.of_ports prefix_rfl rfl rfl) ⟨?_, ?_⟩ fun _ _ _ => ?_
      · obtain ⟨rest, hsent⟩ := hport.skipped
        have hreceived := hport.returned.trans (hinv.shared.port p hp).received
        rw [← hsent, ← hport.length, drop_left] at hreceived
        rw [← hsent]
        exact (prefix_append_right_inj _).mpr hreceived
      · rw [length_append, hport.length, hport.stateVar]
      · rw [hl]
        exact ⟨nofun, nofun⟩
    | mkPort cv skipped =>
      have hskipped := h.client t
      rw [hl] at hclient hskipped
      cases hclient
      refine h.put hinv (Calm.mkPort true hskipped.1 hskipped.2) trivial fun _ _ _ => ?_
      rw [hl]
      exact ⟨nofun, nofun⟩
  · have hmoved : l.Orderly c.shared ∧ ∀ p v k, l ≠ .mSwap p v k := by
      rcases hl with ⟨m, rfl⟩ | rfl | ⟨p, -, rfl | rfl⟩
      · exact ⟨trivial, nofun⟩
      · exact ⟨trivial, nofun⟩
      · exact ⟨trivial, nofun⟩
      · exact ⟨trivial, nofun⟩
    refine h.put hinv (Calm.of_ports prefix_rfl rfl rfl) hmoved.1 fun p v k => ?_
    rw [hidle]
    exact ⟨fun heq => absurd heq (hmoved.2 p v k), nofun⟩

end

/-! ### The result -/

/-- A port has received consecutive messages from where it started, and nothing that it can still
get is left when its `tee` thread waits for the server. -/
structure Delivery (s : Shared α) (port : Port α) : Prop where
  received : ∃ before, before.length = port.start ∧ before ++ port.received <+: s.sent
  /-- A port that was not made by `copy` starts with the messages sent after it was made. -/
  made : port.copied = false → port.skipped ++ port.received <+: s.sent
  complete : ∀ k, port.tee = .iGet k → s.cells k = none → (∃ cv, s.server = .recv cv) →
    ∃ before, before.length = port.start ∧ before ++ port.received = s.sent

theorem Shared.Sound.stream {s : Shared α} (h : s.Sound) {p : ℕ} (hp : p < s.numPorts) :
    Delivery s (s.ports p) := by
  have hport := h.port p hp
  have hle : (s.ports p).start ≤ s.sent.length :=
    (le_add_right _ _).trans (hport.le.trans h.server.cv_le)
  obtain ⟨rest, hrest⟩ := hport.received
  have hsent : s.sent = s.sent.take (s.ports p).start ++ ((s.ports p).received ++ rest) := by
    rw [hrest, take_append_drop]
  have hlen : (s.sent.take (s.ports p).start).length = (s.ports p).start := by
    rw [length_take]
    exact min_eq_left hle
  refine ⟨⟨_, hlen, rest, by rw [append_assoc, ← hsent]⟩, fun hcopied => ?_,
    fun k htee hnone ⟨cv, hserver⟩ => ⟨_, hlen, ?_⟩⟩
  · obtain ⟨⟨after, hafter⟩, hskipped⟩ := hport.skipped hcopied
    have htake : s.sent.take (s.ports p).start = (s.ports p).skipped := by
      rw [← hafter, ← hskipped, take_left]
    rw [← htake]
    exact ⟨rest, by rw [append_assoc, ← hsent]⟩
  · -- the chain ends behind the last message
    have hk := hport.tee
    rw [htee] at hk
    have hall := h.server
    rw [hserver] at hall
    have hend : ¬ k < s.sent.length := by
      intro hlt
      have hcv : k < (Server.recv cv : Server α).cv := hlt.trans_eq hall
      rw [h.cells, hserver, if_pos hcv, getElem?_eq_getElem hlt] at hnone
      cases hnone
    have hnil : rest = [] := by
      have hcount := congrArg List.length hsent
      rw [length_append, length_append, hlen] at hcount
      have hkeq : k = (s.ports p).start + (s.ports p).received.length := hk
      exact eq_nil_of_length_eq_zero (by omega)
    rw [hnil, append_nil] at hsent
    exact hsent.symm

theorem Orderly.consecutive {c : Config τ (Shared α) (Client α)} (hinv : Inv c) (h : Orderly c) {p : ℕ}
    (hp : p < c.shared.numPorts) :
    (c.shared.ports p).skipped ++ (c.shared.ports p).received <+: c.shared.sent := by
  have hport := h.port p hp
  obtain ⟨rest, hsent⟩ := hport.skipped
  have hreceived := (hinv.shared.port p hp).received
  rw [← hsent, ← hport.length, drop_left] at hreceived
  rw [← hsent]
  exact (prefix_append_right_inj _).mpr hreceived

/-- In every run the ports get what is sent in order and once; and as long as the `mSwap`s of each
port come in the order of its `recv`s, a copy gets what its original had not returned. -/
theorem delivered [DecidableEq τ] (c : Config τ (Shared α) (Client α)) :
    ((process τ α).Reachable Start c → c.shared.server ≠ .raised ∧
      ∀ p < c.shared.numPorts, Delivery c.shared (c.shared.ports p)) ∧
    ((process τ α).ReachableWhile InOrder Start c → ∀ p < c.shared.numPorts,
      (c.shared.ports p).skipped ++ (c.shared.ports p).received <+: c.shared.sent ∧
        (c.shared.ports p).skipped.length = (c.shared.ports p).start) := by
  constructor
  · intro h
    have hinv : Inv c := by
      refine Process.ReachableWhile.invariant (I := Inv) (fun c hc => hc.inv) ?_ h
      exact fun c t a s l _ _ hinv hstep => hinv.step hstep
    refine ⟨fun hraised => ?_, fun p hp => hinv.shared.stream hp⟩
    have hserver := hinv.shared.server
    rw [hraised] at hserver
    exact hserver
  · intro h
    have hboth : Inv c ∧ Orderly c := by
      refine Process.ReachableWhile.invariant (I := fun c => Inv c ∧ Orderly c)
        (fun c hc => ⟨hc.inv, hc.orderly⟩) ?_ h
      exact fun c t a s l _ horder hboth hstep =>
        ⟨hboth.1.step hstep, hboth.2.step hboth.1 horder hstep⟩
    exact fun p hp => ⟨hboth.2.consecutive hboth.1 hp, (hboth.2.port p hp).length⟩

def empty : Shared ℕ :=
  ⟨fun _ => none, 1, .recv 0, fun _ => ⟨.iGet 0, 0, 0, false, [], [], []⟩, 0, []⟩

theorem empty_start (τ : Type v) : Start (⟨empty, fun _ => .idle⟩ : Config τ _ _) :=
  ⟨fun _ => rfl, rfl, rfl, rfl, rfl, fun _ => rfl⟩

/-- A port is made, `1` and `2` are sent, `1` is received, and the port is copied. -/
def oneCopy : List (Fin 1 × Act ℕ) :=
  [.port, .go, .server, .go, .multicast 1, .go, .server, .multicast 2, .go, .server, .tee 0,
    .recv 0, .go, .go, .copy 0, .go, .go, .tee 1, .recv 1, .go, .go].map (0, ·)

theorem delivered_oneCopy : ∃ c : Config (Fin 1) (Shared ℕ) (Client ℕ),
    c.shared.sent = [1, 2] ∧ (c.shared.ports 1).skipped = [1] ∧ (c.shared.ports 1).received = [2] ∧
      Delivery c.shared (c.shared.ports 0) ∧
      (c.shared.ports 1).skipped ++ (c.shared.ports 1).received <+: c.shared.sent := by
  have hrun : ∃ c, (process (Fin 1) ℕ).run oneCopy ⟨empty, fun _ => .idle⟩ = some c ∧
      c.shared.numPorts = 2 ∧ c.shared.sent = [1, 2] ∧ (c.shared.ports 1).skipped = [1] ∧
      (c.shared.ports 1).received = [2] := ⟨_, rfl, rfl, rfl, rfl, rfl⟩
  obtain ⟨c, hrun, hnum, hsent, hskipped, hreceived⟩ := hrun
  have hreach := Process.reachable_of_run (.start (empty_start (Fin 1))) hrun
  -- a client alone returns what it has received in order
  have horder : (process (Fin 1) ℕ).ReachableWhile InOrder Start c := by
    refine hreach.weaken fun c a _ _ _ p v k hl u v' k' hu => ?_
    rw [Subsingleton.elim u a.1, hl] at hu
    exact (mSwap_inj hu).2.2.le
  exact ⟨c, hsent, hskipped, hreceived, ((delivered c).1 hreach).2 0 (by rw [hnum]; decide),
    ((delivered c).2 horder 1 (by rw [hnum]; decide)).1⟩

/-- Two clients receive `1` and `2` from a port, and the second returns first; then the port is
copied. -/
def overtaken : List (Fin 2 × Act ℕ) :=
  [(0, .port), (0, .go), (0, .server), (0, .go), (0, .multicast 1), (0, .go), (0, .server),
    (0, .multicast 2), (0, .go), (0, .server), (0, .tee 0), (0, .recv 0), (0, .go), (1, .tee 0),
    (1, .recv 0), (1, .go), (1, .go), (0, .go), (0, .copy 0), (0, .go), (0, .go), (0, .tee 1),
    (0, .recv 1), (0, .go), (0, .go)]

/-- The copy gets `2`, which its original had received and returned when it was copied. -/
theorem copied_twice : ∃ c : Config (Fin 2) (Shared ℕ) (Client ℕ),
    (process (Fin 2) ℕ).Reachable Start c ∧ c.shared.sent = [1, 2] ∧
      (c.shared.ports 0).received = [1, 2] ∧ (c.shared.ports 1).skipped = [2, 1] ∧
      (c.shared.ports 1).received = [2] ∧
      ¬ ((c.shared.ports 1).skipped ++ (c.shared.ports 1).received <+: c.shared.sent) := by
  have hrun : ∃ c, (process (Fin 2) ℕ).run overtaken ⟨empty, fun _ => .idle⟩ = some c ∧
      c.shared.sent = [1, 2] ∧ (c.shared.ports 0).received = [1, 2] ∧
      (c.shared.ports 1).skipped = [2, 1] ∧ (c.shared.ports 1).received = [2] :=
    ⟨_, rfl, rfl, rfl, rfl, rfl⟩
  obtain ⟨c, hrun, hsent, hfirst, hskipped, hreceived⟩ := hrun
  refine ⟨c, Process.reachable_of_run (.start (empty_start (Fin 2))) hrun, hsent, hfirst, hskipped,
    hreceived, ?_⟩
  rw [hskipped, hreceived, hsent]
  decide

end MultiMLton.Multicast
