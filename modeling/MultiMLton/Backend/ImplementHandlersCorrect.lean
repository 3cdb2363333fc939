import MultiMLton.Backend.HandlerInvariant

/-!
# Implementing handlers is correct

The output of `doit` shows at its calls, raises and returns what the version with all statements
shows.

* `Output`: the functions of the output;
* `Sim`: states of the two programs. They agree but for the link slots of functions without
  handlers, which the output does not use;
* `doit_keepsHandlers`: the runs of the two programs.
-/

namespace MultiMLton.Backend

open Rssa FlatLattice HandlerStack List Option Function

namespace ImplementHandlers

variable {F L V ν : Type} [DecidableEq F] [DecidableEq L]

/-! ### The output -/

/-- What is known before the blocks of a function. -/
def knownOf (p : Program F L V ν) (name : F) : L → Known L :=
  match func? p name with
  | none => fun _ => ⟨.bottom, .bottom⟩
  | some f =>
    if hasHandler f then
      match solve f with
      | none => fun _ => ⟨.bottom, .bottom⟩
      | some i => i.known
    else fun _ => ⟨.point .slot, .top⟩

/-- The function in the output. -/
def flowed (p : Program F L V ν) (newNoname : F → L) (f : Function F L V ν) : Function F L V ν :=
  if hasHandler f then rewrite (knownOf p f.name) (newNoname f.name) f else f

variable {p p' : Program F L V ν} {newNoname : F → L} {f : Function F L V ν}

omit [DecidableEq F] in
theorem sound_solve (hp : Input newNoname p) (hf : f ∈ p.all) :
    ∃ i, solve f = some i ∧ Sound f i.known := by
  have hnodup : f.labels.Nodup := by
    have hlabels := hp.wellFormed.labels_nodup
    unfold Program.labels at hlabels
    exact (nodup_flatMap.mp hlabels).1 f hf
  exact solve_sound f hnodup (hp.wellFormed.start_mem f hf) (hp.wellFormed.jumps_mem f hf)

theorem sound_knownOf (hp : Input newNoname p) (hf : f ∈ p.all) : Sound f (knownOf p f.name) := by
  have hfunc := func?_of_mem hp.wellFormed.names_nodup hf
  obtain ⟨i, hi, hsound⟩ := sound_solve hp hf
  unfold knownOf
  rw [hfunc]
  dsimp only
  split_ifs with hhas
  · rw [hi]
    exact hsound
  · exact sound_of_not_hasHandler (Bool.not_eq_true _ ▸ hhas)

theorem flow_eq (hp : Input newNoname p) (hf : f ∈ p.all) :
    flow (newNoname f.name) f = some (flowed p newNoname f) := by
  have hfunc := func?_of_mem hp.wellFormed.names_nodup hf
  obtain ⟨i, hi, -⟩ := sound_solve hp hf
  unfold flow flowed
  split_ifs with hhas
  · have hknown : knownOf p f.name = i.known := by
      unfold knownOf
      rw [hfunc]
      dsimp only
      rw [if_pos hhas, hi]
    rw [hi, hknown, map_some]
  · rfl

theorem mapM_flow (hp : Input newNoname p) (fs : List (Function F L V ν))
    (hfs : ∀ f ∈ fs, f ∈ p.all) :
    fs.mapM (fun f => flow (newNoname f.name) f) = some (fs.map (flowed p newNoname)) := by
  induction fs with
  | nil => rfl
  | cons f fs ih =>
    rw [mapM_cons, flow_eq hp (hfs f mem_cons_self),
      ih fun g hg => hfs g (mem_cons_of_mem f hg)]
    rfl

/-- The functions of the output. -/
def Output (newNoname : F → L) (p p' : Program F L V ν) : Prop :=
  ∀ name, func? p' name = (func? p name).map (flowed p newNoname)

theorem flowed_name (p : Program F L V ν) (newNoname : F → L) (f : Function F L V ν) :
    (flowed p newNoname f).name = f.name := by
  unfold flowed
  split_ifs <;> rfl

theorem doit_output (hp : Input newNoname p) :
    ∃ p', doit newNoname p = some p' ∧ Output newNoname p p' := by
  have hfunctions := mapM_flow hp p.functions.reverse fun f hf =>
    mem_cons_of_mem _ (mem_reverse.mp hf)
  have hmain := flow_eq hp (f := p.main) mem_cons_self
  refine ⟨⟨p.functions.reverse.map (flowed p newNoname), flowed p newNoname p.main⟩, ?_, ?_⟩
  · simp [doit, hfunctions, hmain]
  · intro name
    set p' : Program F L V ν :=
      ⟨p.functions.reverse.map (flowed p newNoname), flowed p newNoname p.main⟩
    have hperm : p'.all.Perm (p.all.map (flowed p newNoname)) := by
      refine List.Perm.cons _ ?_
      exact (reverse_perm p.functions).map _
    have hnames : p'.names.Perm p.names := by
      refine (hperm.map Function.name).trans ?_
      rw [List.map_map]
      have heq : Function.name ∘ flowed p newNoname = Function.name :=
        funext fun f => flowed_name p newNoname f
      rw [heq]
      exact List.Perm.refl _
    have hnodup : p'.names.Nodup := hnames.nodup_iff.mpr hp.wellFormed.names_nodup
    cases hfunc : func? p name with
    | some f =>
      obtain ⟨hf, hname⟩ := func?_spec hfunc
      have hmem : flowed p newNoname f ∈ p'.all :=
        hperm.mem_iff.mpr (mem_map_of_mem hf)
      have hfound := func?_of_mem hnodup hmem
      rw [flowed_name, hname] at hfound
      rw [hfound, map_some]
    | none =>
      cases hfunc' : func? p' name with
      | none => rfl
      | some g =>
        obtain ⟨hg, hname⟩ := func?_spec hfunc'
        obtain ⟨f, hf, rfl⟩ := mem_map.mp (hperm.mem_iff.mp hg)
        rw [flowed_name] at hname
        have hfound := func?_of_mem hp.wellFormed.names_nodup hf
        rw [hname, hfunc] at hfound
        cases hfound

/-! ### States of the two programs -/

/-- Frames that agree, but for the link slot of a function without handlers. -/
structure SimFrame (p : Program F L V ν) (frame frame' : Frame F L) : Prop where
  func : frame'.func = frame.func
  handler : frame'.handler = frame.handler
  slot : ∀ f, func? p frame.func = some f → hasHandler f = true → frame'.slot = frame.slot

structure Sim (p : Program F L V ν) (s t : State F L) : Prop where
  exnStack : t.exnStack = s.exnStack
  label : t.label = s.label
  top : SimFrame p s.top t.top
  below : List.Forall₂ (fun a b => SimFrame p a.1 b.1 ∧ b.2 = a.2) s.below t.below

/-- The states are at the same block, or the output is past the block in which a function without
handlers saves its exception stack. -/
inductive Near (newNoname : F → L) (p : Program F L V ν) (s t : State F L) : Prop
  | inside {known : F → L → Known L} {f : Function F L V ν} {k : Link}
    (hinside : Inside known p s f k) (hsim : Sim p s t)
  | handlers {f : Function F L V ν} (hfunc : func? p s.top.func = some f)
    (hhas : hasHandler f = true) (hlabel : s.label = newNoname f.name)
    (hslot : s.top.slot = none) (hsim : Sim p s t)
  | ahead {f : Function F L V ν} (hfunc : func? p s.top.func = some f) (hhas : hasHandler f = false)
    (hlabel : s.label = newNoname f.name) (hsim : Sim p (entered s f) t)

variable {s t : State F L} {k : Link}

omit [DecidableEq L] in
theorem Sim.length (h : Sim p s t) : t.below.length = s.below.length := h.below.length_eq.symm

omit [DecidableEq L] in
/-- Frames that are unwound agree. -/
theorem Sim.unwind {n : ℕ} {frames frames' : List (Frame F L × Return L)}
    (h : List.Forall₂ (fun a b => SimFrame p a.1 b.1 ∧ b.2 = a.2) frames frames') :
    Option.Rel (fun a b => SimFrame p a.1 b.1 ∧
        List.Forall₂ (fun a b => SimFrame p a.1 b.1 ∧ b.2 = a.2) a.2 b.2)
      (State.unwind n frames) (State.unwind n frames') := by
  induction h with
  | nil => exact .none
  | @cons a b frames frames' hab hrest ih =>
    obtain ⟨frame, r⟩ := a
    obtain ⟨frame', r'⟩ := b
    rw [State.unwind, State.unwind, hrest.length_eq]
    split_ifs
    · exact .some ⟨hab.1, hrest⟩
    · exact ih

omit [DecidableEq L] in
theorem Sim.raise (h : Sim p s t) : Option.Rel (Sim p) s.raise t.raise := by
  have hunwind : ∀ n, _ := fun n => Sim.unwind (n := n)
    (List.Forall₂.cons (a := (s.top, Return.tail)) (b := (t.top, Return.tail)) ⟨h.top, rfl⟩ h.below)
  rw [State.raise, State.raise, h.exnStack]
  cases s.exnStack with
  | none => exact .none
  | some n =>
    simp only [bind_eq_bind, bind_some]
    have hn := hunwind n
    cases hs : State.unwind n ((s.top, Return.tail) :: s.below) with
    | none =>
      rw [hs] at hn
      cases ht : State.unwind n ((t.top, Return.tail) :: t.below) with
      | none => exact .none
      | some b =>
        rw [ht] at hn
        cases hn
    | some a =>
      rw [hs] at hn
      cases ht : State.unwind n ((t.top, Return.tail) :: t.below) with
      | none =>
        rw [ht] at hn
        cases hn
      | some b =>
        rw [ht] at hn
        cases hn with
        | some hab =>
          obtain ⟨hframe, hrest⟩ := hab
          simp only [bind_some, hframe.handler]
          cases a.1.handler with
          | none => exact .none
          | some l => exact .some ⟨rfl, rfl, hframe, hrest⟩

omit [DecidableEq L] in
theorem Sim.ret (h : Sim p s t) : Option.Rel (Sim p) s.ret t.ret := by
  obtain ⟨exnStack, label, top, below⟩ := s
  obtain ⟨exnStack', label', top', below'⟩ := t
  obtain ⟨hexn, hlabel, htop, hbelow⟩ := h
  change exnStack' = exnStack at hexn
  subst hexn
  change List.Forall₂ _ below below' at hbelow
  cases hbelow with
  | nil => exact .none
  | @cons a b rest rest' hab hrest =>
    obtain ⟨frame, r⟩ := a
    obtain ⟨frame', r'⟩ := b
    obtain ⟨hframe, heq⟩ := hab
    change r' = r at heq
    subst heq
    cases r' with
    | nonTail cont handler => exact .some ⟨rfl, rfl, hframe, hrest⟩
    | dead | tail => exact .none

omit [DecidableEq L] in
theorem SimFrame.new (p : Program F L V ν) (name : F) :
    SimFrame p (⟨name, none, none⟩ : Frame F L) ⟨name, none, none⟩ := ⟨rfl, rfl, fun _ _ _ => rfl⟩

omit [DecidableEq L] in
theorem Sim.needed (h : Sim p s t) (k : Link) (tr : Transfer F L V ν) :
    Sim p (needed s k tr) (needed t k tr) := by
  have hslot : Sim p { s with exnStack := k } { t with exnStack := k } :=
    ⟨rfl, h.label, h.top, h.below⟩
  cases tr with
  | call args name r =>
    match r with
    | .dead | .nonTail _ .dead => exact h
    | .tail | .nonTail _ .caller => exact hslot
    | .nonTail cont (.handle l) =>
      exact ⟨congrArg some h.length, h.label, ⟨h.top.func, rfl, h.top.slot⟩, h.below⟩
  | raise args | ret args => exact hslot
  | arith _ _ _ _ _ => exact h
  | ccall _ _ _ => exact h
  | goto _ _ => exact h
  | switch _ => exact h

omit [DecidableEq F] [DecidableEq L] in
/-- Without handlers, transfers need nothing in a frame whose link slot holds the exception
stack. -/
theorem needed_self (hhas : hasHandler f = false) {b : Block F L V ν} (hb : b ∈ f.blocks) :
    needed s s.exnStack b.transfer = s := by
  have hb' := any_eq_false.mp hhas b hb
  cases htransfer : b.transfer with
  | call args name r =>
    match r with
    | .dead | .nonTail _ .dead | .tail | .nonTail _ .caller => rfl
    | .nonTail cont (.handle l) => simp [htransfer] at hb'
  | _ => rfl

/-- A block of the output brings about what its transfer needs. -/
theorem Sim.exec (hp : Input newNoname p) (hsim : Sim p s t) {b : Block F L V ν}
    (h : AtBlock (knownOf p) p s f b k) (hblock : block? f s.label = some b) :
    ∃ b' t', block? (flowed p newNoname f) t.label = some b' ∧ b'.transfer = b.transfer ∧
      t.exec b'.statements = some t' ∧ Sim p (ImplementHandlers.needed s k b.transfer) t' := by
  have hf := (func?_spec h.func).1
  have hplain : t.exec b.statements = some t := exec_plain (hp.plain f hf b h.mem) t
  unfold flowed
  rw [hsim.label]
  split_ifs with hhas
  · refine ⟨_, _, block?_rewrite _ _ f hblock, rfl, ?_, hsim.needed k b.transfer⟩
    have hslot := hsim.top.slot f h.func hhas
    obtain ⟨-, hholds⟩ := h.known_block
    have hholds' : Holds (knownOf p f.name b.label) t.below.length t.exnStack t.top := by
      rw [hsim.length, hsim.exnStack]
      refine ⟨fun hi => ?_, hholds.locl, fun l hi => ?_⟩
      · rw [hslot]
        exact hholds.slot hi
      · rw [hsim.top.handler]
        exact hholds.handler l hi
    change t.exec (b.statements ++ post (knownOf p f.name b.label) b.transfer) = _
    rw [exec_append, hplain, bind_some]
    exact exec_post hholds' (hslot.trans h.slot) b.transfer
  · refine ⟨b, t, hblock, rfl, hplain, ?_⟩
    -- nothing has changed the exception stack
    have hhas' : hasHandler f = false := Bool.not_eq_true _ ▸ hhas
    have hknown : knownOf p f.name = fun _ => ⟨.point .slot, .top⟩ := by
      have hfunc := func?_of_mem hp.wellFormed.names_nodup hf
      unfold knownOf
      rw [hfunc]
      exact if_neg hhas
    have hslot := h.holds.slot (by rw [hknown])
    rw [h.slot] at hslot
    rw [Option.some.inj hslot, needed_self hhas' h.mem]
    exact hsim

/-! ### Steps of the two programs -/

omit [DecidableEq F] [DecidableEq L] in
/-- Lists whose elements are related one by one. -/
theorem exists_mem_of_forall₂ {α β : Type} {R : α → β → Prop} {l : List α} {l' : List β}
    (h : List.Forall₂ R l l') {a : α} (ha : a ∈ l) : ∃ b ∈ l', R a b := by
  induction h with
  | nil => cases ha
  | cons hab _ ih =>
    rcases mem_cons.mp ha with rfl | ha
    · exact ⟨_, mem_cons_self, hab⟩
    · obtain ⟨b, hb, hab'⟩ := ih ha
      exact ⟨b, mem_cons_of_mem _ hb, hab'⟩

variable (newNoname p') in
theorem Sim.next (h : Sim p s t) {tr : Transfer F L V ν}
    (hcall : ∀ args name r, tr ≠ .call args name r) :
    List.Forall₂ (Option.Rel (Sim p)) (s.next (explicit newNoname p) tr) (t.next p' tr) := by
  have hjumps : ∀ ls : List L, List.Forall₂ (Option.Rel (Sim p))
      (ls.map fun l => some { s with label := l })
      (ls.map fun l => some { t with label := l }) := by
    intro ls
    rw [forall₂_map_left_iff, forall₂_map_right_iff, forall₂_same]
    exact fun l _ => .some ⟨h.exnStack, rfl, h.top, h.below⟩
  cases tr with
  | call args name r => exact absurd rfl (hcall args name r)
  | raise args => exact List.Forall₂.cons h.raise List.Forall₂.nil
  | ret args => exact List.Forall₂.cons h.ret List.Forall₂.nil
  | arith a1 a2 a3 a4 a5 | ccall a1 a2 a3 | goto a1 a2 | switch a1 => exact hjumps _

/-- The two programs enter the same function. -/
theorem Sim.call (hp : Input newNoname p) (hout : Output newNoname p p') (h : Sim p s t) (name : F)
    (r : Return L) :
    Option.Rel (Near newNoname p)
      ((func? (explicit newNoname p) name).map fun g => s.call g r)
      ((func? p' name).map fun g => t.call g r) := by
  rw [explicit_eq, func?_rewriteAll, hout name]
  cases hcallee : func? p name with
  | none => exact .none
  | some g =>
    have hg := (func?_spec hcallee).1
    have hfunc := func?_of_mem hp.wellFormed.names_nodup hg
    have hbelow : List.Forall₂ (fun a b => SimFrame p a.1 b.1 ∧ b.2 = a.2)
        ((s.top, r) :: s.below) ((t.top, r) :: t.below) := List.Forall₂.cons ⟨h.top, rfl⟩ h.below
    refine .some ?_
    cases hhas : hasHandler g with
    | true =>
      have hflowed : flowed p newNoname g = rewrite (knownOf p g.name) (newNoname g.name) g :=
        if_pos hhas
      rw [hflowed]
      cases r with
      | tail =>
        exact Near.handlers hfunc hhas rfl rfl ⟨h.exnStack, rfl, SimFrame.new p g.name, h.below⟩
      | dead | nonTail cont handler =>
        exact Near.handlers hfunc hhas rfl rfl ⟨h.exnStack, rfl, SimFrame.new p g.name, hbelow⟩
    | false =>
      have hflowed : flowed p newNoname g = g := if_neg (by simp [hhas])
      have hframe : SimFrame p (⟨g.name, some s.exnStack, none⟩ : Frame F L)
          ⟨g.name, none, none⟩ := by
        refine ⟨rfl, rfl, fun f hf hhas' => ?_⟩
        rw [Option.some.inj (hf.symm.trans hfunc), hhas] at hhas'
        cases hhas'
      rw [hflowed]
      cases r with
      | tail => exact Near.ahead hfunc hhas rfl ⟨h.exnStack, rfl, hframe, h.below⟩
      | dead | nonTail cont handler =>
        exact Near.ahead hfunc hhas rfl ⟨h.exnStack, rfl, hframe, hbelow⟩

/-- Where the transfers of a block lead. -/
theorem Sim.near_next (hp : Input newNoname p) (hout : Output newNoname p p') {b : Block F L V ν}
    (h : AtBlock (knownOf p) p s f b k)
    (hsim : Sim p (ImplementHandlers.needed s k b.transfer) t) :
    List.Forall₂ (Option.Rel (Near newNoname p))
      ((ImplementHandlers.needed s k b.transfer).next (explicit newNoname p) b.transfer)
      (t.next p' b.transfer) := by
  by_cases hcall : ∃ args name r, b.transfer = .call args name r
  · obtain ⟨args, name, r, htransfer⟩ := hcall
    rw [htransfer] at hsim ⊢
    exact List.Forall₂.cons (hsim.call hp hout name r) List.Forall₂.nil
  · push Not at hcall
    have hnext := hsim.next p' newNoname hcall
    have hinside : ∀ a ∈
        (ImplementHandlers.needed s k b.transfer).next (explicit newNoname p) b.transfer,
        ∀ u, a = some u → ∃ g k', Inside (knownOf p) p u g k' := by
      rintro a ha u rfl
      exact h.inside hp (fun g hg => sound_knownOf hp hg) hcall ha
    refine List.Forall₂.imp ?_ ((forall₂_and_left _ _).mpr ⟨hinside, hnext⟩)
    rintro a a' ⟨ha, hrel⟩
    cases hrel with
    | none => exact .none
    | some hsim' =>
      obtain ⟨g, k', hg⟩ := ha _ rfl
      exact .some (Near.inside hg hsim')

omit [DecidableEq L] in
/-- What is shown by a transfer. -/
theorem Sim.shows (h : Sim p s t) (tr : Transfer F L V ν) :
    List.Forall₂ (Sim p) (s.shows tr) (t.shows tr) := by
  cases tr with
  | call args name r | raise args | ret args => exact List.Forall₂.cons h List.Forall₂.nil
  | _ => exact List.Forall₂.nil

variable {e e' : List (State F L)} {u u' : Option (State F L)}

section

variable (hp : Input newNoname p)

include hp

/-- States that are not ahead step together. -/
theorem step_together (hout : Output newNoname p p') {b : Block F L V ν}
    (h : AtBlock (knownOf p) p s f b k) (hblock : block? f s.label = some b) (hsim : Sim p s t) :
    (∀ u ∈ (needed s k b.transfer).next (explicit newNoname p) b.transfer, ∃ e' u',
      Step p' t e' u' ∧ List.Forall₂ (Sim p) ((needed s k b.transfer).shows b.transfer) e' ∧
        Option.Rel (Near newNoname p) u u') ∧
      ∀ e' u', Step p' t e' u' →
        ∃ u ∈ (needed s k b.transfer).next (explicit newNoname p) b.transfer,
          List.Forall₂ (Sim p) ((needed s k b.transfer).shows b.transfer) e' ∧
            Option.Rel (Near newNoname p) u u' := by
  obtain ⟨b', t', hblock', htransfer, hexec, hsim'⟩ := hsim.exec hp h hblock
  have hfunc' : func? p' t.top.func = some (flowed p newNoname f) := by
    rw [hout, hsim.top.func, h.func, map_some]
  have hnext := hsim'.near_next hp hout h
  have hshows := hsim'.shows b.transfer
  constructor
  · intro u hu
    obtain ⟨u', hu', hnear⟩ := exists_mem_of_forall₂ hnext hu
    rw [← htransfer] at hu'
    refine ⟨_, u', Step.block hfunc' hblock' hexec hu', ?_, hnear⟩
    rw [htransfer]
    exact hshows
  · rintro e' u' ⟨hfunc, hblock₁, hexec₁, hu'⟩
    rw [hfunc'] at hfunc
    cases hfunc
    rw [hblock'] at hblock₁
    cases hblock₁
    rw [hexec] at hexec₁
    cases hexec₁
    rw [htransfer] at hu' ⊢
    obtain ⟨u, hu, hnear⟩ := exists_mem_of_forall₂ hnext.flip hu'
    exact ⟨u, hu, hshows, hnear⟩

/-- Functions with handlers save their exception stacks together. -/
theorem enter_together (hout : Output newNoname p p')
    (hfunc : func? p s.top.func = some f) (hhas : hasHandler f = true)
    (hlabel : s.label = newNoname f.name) (hsim : Sim p s t) :
    Sim p (entered s f) (entered t f) ∧ Step p' t [] (some (entered t f)) ∧
      ∀ e' u', Step p' t e' u' → e' = [] ∧ u' = some (entered t f) := by
  have hf := (func?_spec hfunc).1
  have hflowed : flowed p newNoname f = rewrite (knownOf p f.name) (newNoname f.name) f :=
    if_pos hhas
  have hfunc' : func? p' t.top.func =
      some (rewrite (knownOf p f.name) (newNoname f.name) f) := by
    rw [hout, hsim.top.func, hfunc, map_some, hflowed]
  have hblock' : block? (rewrite (knownOf p f.name) (newNoname f.name) f) t.label =
      some (startBlock (newNoname f.name) f.start) := by
    rw [hsim.label, hlabel]
    exact block?_newStart (knownOf p f.name) (hp.fresh f hf)
  refine ⟨⟨hsim.exnStack, rfl, ⟨hsim.top.func, hsim.top.handler, fun _ _ _ => ?_⟩, hsim.below⟩,
    Step.block hfunc' hblock' rfl (mem_singleton_self _), ?_⟩
  · exact congrArg some hsim.exnStack
  · rintro e' u' ⟨hfunc₁, hblock₁, hexec₁, hu'⟩
    rw [hfunc'] at hfunc₁
    cases hfunc₁
    rw [hblock'] at hblock₁
    cases hblock₁
    cases hexec₁
    exact ⟨rfl, mem_singleton.mp hu'⟩

/-! ### Runs of the two programs -/

theorem Inv.step_iff (hinv : Inv (knownOf p) newNoname p s) :
    Step (explicit newNoname p) s e u ↔ Does newNoname p s e u := by
  rw [explicit_eq]
  cases hinv with
  | enter hfunc hlabel =>
    exact step_iff_does hp (At.enter hfunc hlabel) fun _ => holds_bottom _ _ _
  | inside h =>
    exact step_iff_does hp (At.block _ h.func h.label h.slot) fun _ => holds_bottom _ _ _

theorem inv_step (hinv : Inv (knownOf p) newNoname p s)
    (hstep : Step (explicit newNoname p) s e (some t)) : Inv (knownOf p) newNoname p t :=
  inv_does hp (fun _ hf => sound_knownOf hp hf) hinv ((hinv.step_iff hp).mp hstep)

omit [DecidableEq L] in
/-- A new label is no label of the function. -/
theorem Inside.label_ne {known : F → L → Known L}
    (h : Inside known p s f k) {g : Function F L V ν} (hfunc : func? p s.top.func = some g)
    (hlabel : s.label = newNoname g.name) : False := by
  have hmem := h.label
  rw [Option.some.inj (h.func.symm.trans hfunc), hlabel] at hmem
  exact hp.fresh g (func?_spec hfunc).1 hmem

section

variable (hout : Output newNoname p p') (hinv : Inv (knownOf p) newNoname p s)

include hout hinv

/-- A step of the version with all statements is one of the output, or nothing is done there. -/
theorem forward_step (hnear : Near newNoname p s t) (hstep : Step (explicit newNoname p) s e u) :
    (e = [] ∧ ∃ s', u = some s' ∧ Near newNoname p s' t) ∨
      ∃ e' u', Step p' t e' u' ∧ List.Forall₂ (Sim p) e e' ∧
        Option.Rel (Near newNoname p) u u' := by
  rcases hinv.cases_does hp ((hinv.step_iff hp).mp hstep) with
    ⟨g, hfunc, hlabel, hhandler, hbelow, rfl, rfl⟩ | ⟨g, b, k, h, hblock, rfl, hnext⟩
  · have hinside := inside_entered hp (fun _ hf => sound_knownOf hp hf) hfunc hhandler hbelow
    cases hnear with
    | inside h hsim => exact (h.label_ne hp hfunc hlabel).elim
    | handlers hfunc' hhas _ _ hsim =>
      right
      rw [Option.some.inj (hfunc'.symm.trans hfunc)] at hhas
      obtain ⟨hsim', hstep', -⟩ := enter_together hp hout hfunc hhas hlabel hsim
      exact ⟨[], _, hstep', List.Forall₂.nil, .some (Near.inside hinside hsim')⟩
    | ahead hfunc' hhas _ hsim =>
      left
      rw [Option.some.inj (hfunc'.symm.trans hfunc)] at hsim
      exact ⟨rfl, _, rfl, Near.inside hinside hsim⟩
  · right
    cases hnear with
    | inside _ hsim => exact (step_together hp hout h hblock hsim).1 u hnext
    | handlers hfunc' _ hlabel | ahead hfunc' _ hlabel => exact (h.label_ne hp hfunc' hlabel).elim

theorem forward_run (hnear : Near newNoname p s t) (hrun : Run (explicit newNoname p) s e u) :
    ∃ e' u', Run p' t e' u' ∧ List.Forall₂ (Sim p) e e' := by
  induction hrun generalizing t with
  | refl s => exact ⟨[], some t, Run.refl t, List.Forall₂.nil⟩
  | step hstep hrun ih =>
    have hinv' := inv_step hp hinv hstep
    rcases forward_step hp hout hinv hnear hstep with
      ⟨rfl, s', heq, hnear'⟩ | ⟨e', u', hstep', hshows, hrel⟩
    · cases heq
      exact ih hinv' hnear'
    · cases hrel with
      | some hnear' =>
        obtain ⟨e'', u'', hrun', hshows'⟩ := ih hinv' hnear'
        exact ⟨_, u'', Run.step hstep' hrun', rel_append hshows hshows'⟩
  | last hstep =>
    rcases forward_step hp hout hinv hnear hstep with
      ⟨-, s', heq, -⟩ | ⟨e', u', hstep', hshows, hrel⟩
    · cases heq
    · cases hrel
      exact ⟨e', none, Run.last hstep', hshows⟩

/-- A step of the output from a state at the same block. -/
theorem inside_step {known : F → L → Known L}
    (hinside : Inside known p s f k) (hsim : Sim p s t) (hstep : Step p' t e' u') :
    ∃ e u, Step (explicit newNoname p) s e u ∧ List.Forall₂ (Sim p) e e' ∧
      Option.Rel (Near newNoname p) u u' := by
  cases hinv with
  | enter hfunc hlabel => exact (hinside.label_ne hp hfunc hlabel).elim
  | inside h =>
    obtain ⟨b, hblock⟩ := exists_block? h.label
    obtain ⟨hmem, hlabel⟩ := block?_spec hblock
    have hat : AtBlock (knownOf p) p s _ b _ := ⟨h, hmem, hlabel⟩
    obtain ⟨u, hu, hshows, hrel⟩ := (step_together hp hout hat hblock hsim).2 e' u' hstep
    refine ⟨_, u, ?_, hshows, hrel⟩
    exact ((Inv.inside h).step_iff hp).mpr (Does.block h.func hblock h.slot hu)

/-- A step of the output is one of the version with all statements, which may have to save the
exception stack before. -/
theorem backward_step (hnear : Near newNoname p s t)
    (hstep : Step p' t e' u') : ∃ s', (s' = s ∨ Step (explicit newNoname p) s [] (some s')) ∧
      Inv (knownOf p) newNoname p s' ∧ ∃ e u, Step (explicit newNoname p) s' e u ∧
        List.Forall₂ (Sim p) e e' ∧ Option.Rel (Near newNoname p) u u' := by
  have henter : ∀ {g}, func? p s.top.func = some g → s.label = newNoname g.name →
      Step (explicit newNoname p) s [] (some (entered s g)) ∧
        Inside (knownOf p) p (entered s g) g s.exnStack := by
    intro g hfunc hlabel
    refine ⟨(hinv.step_iff hp).mpr (Does.enter hfunc hlabel), ?_⟩
    cases hinv with
    | enter hfunc' _ hhandler hbelow =>
      exact inside_entered hp (fun _ hf => sound_knownOf hp hf) hfunc hhandler hbelow
    | inside h => exact (h.label_ne hp hfunc hlabel).elim
  cases hnear with
  | inside h hsim => exact ⟨s, Or.inl rfl, hinv, inside_step hp hout hinv h hsim hstep⟩
  | handlers hfunc hhas hlabel _ hsim =>
    obtain ⟨hstep', hinside⟩ := henter hfunc hlabel
    obtain ⟨hsim', -, hall⟩ := enter_together hp hout hfunc hhas hlabel hsim
    obtain ⟨rfl, rfl⟩ := hall e' u' hstep
    exact ⟨s, Or.inl rfl, hinv, [], _, hstep', List.Forall₂.nil, .some (Near.inside hinside hsim')⟩
  | ahead hfunc hhas hlabel hsim =>
    obtain ⟨hstep', hinside⟩ := henter hfunc hlabel
    have hinv' : Inv _ newNoname p _ := Inv.inside hinside
    exact ⟨_, Or.inr hstep', hinv', inside_step hp hout hinv' hinside hsim hstep⟩

end

end

/-- The step before does not show anything. -/
theorem Run.after {s' : State F L}
    (h : s' = s ∨ Step (explicit newNoname p) s [] (some s'))
    (hrun : Run (explicit newNoname p) s' e u) :
    Run (explicit newNoname p) s e u := by
  rcases h with rfl | hstep
  · exact hrun
  · exact Run.step hstep hrun

theorem backward_run (hp : Input newNoname p) (hout : Output newNoname p p')
    (hinv : Inv (knownOf p) newNoname p s) (hnear : Near newNoname p s t)
    (hrun : Run p' t e' u') :
    ∃ e u, Run (explicit newNoname p) s e u ∧ List.Forall₂ (Sim p) e e' := by
  induction hrun generalizing s with
  | refl t => exact ⟨[], some s, Run.refl s, List.Forall₂.nil⟩
  | step hstep hrun ih =>
    obtain ⟨s', hs', hinv', e, u, hstep', hshows, hrel⟩ := backward_step hp hout hinv hnear hstep
    cases hrel with
    | some hnear' =>
      obtain ⟨e₁, u₁, hrun', hshows'⟩ := ih (inv_step hp hinv' hstep') hnear'
      exact ⟨_, u₁, Run.after hs' (Run.step hstep' hrun'), rel_append hshows hshows'⟩
  | last hstep =>
    obtain ⟨s', hs', hinv', e, u, hstep', hshows, hrel⟩ := backward_step hp hout hinv hnear hstep
    cases hrel
    exact ⟨e, none, Run.after hs' (Run.last hstep'), hshows⟩

/-! ### The pass -/

/-- The function of the program reads its link slot. -/
def ReadsSlot (p : Program F L V ν) (name : F) : Prop :=
  ∃ f, func? p name = some f ∧ ∃ b ∈ f.blocks, .setExnStackSlot ∈ b.statements

/-- Frames that agree where the program reads them. -/
structure SameFrame (p : Program F L V ν) (frame frame' : Frame F L) : Prop where
  func : frame'.func = frame.func
  handler : frame'.handler = frame.handler
  slot : ReadsSlot p frame'.func → frame'.slot = frame.slot

/-- States at the same block with the same exception stack, and with the same contents of all slots
that the program reads. -/
structure Same (p : Program F L V ν) (s t : State F L) : Prop where
  exnStack : t.exnStack = s.exnStack
  label : t.label = s.label
  top : SameFrame p s.top t.top
  below : List.Forall₂ (fun a b => SameFrame p a.1 b.1 ∧ b.2 = a.2) s.below t.below

/-- Functions without handlers do not read their link slot. -/
theorem SimFrame.same (hp : Input newNoname p) (hout : Output newNoname p p')
    {frame frame' : Frame F L} (h : SimFrame p frame frame') : SameFrame p' frame frame' := by
  refine ⟨h.func, h.handler, ?_⟩
  rintro ⟨g, hg, b, hb, hmem⟩
  rw [h.func, hout] at hg
  obtain ⟨f, hfunc, rfl⟩ := map_eq_some_iff.mp hg
  cases hhas : hasHandler f with
  | true => exact h.slot f hfunc hhas
  | false =>
    have hflowed : flowed p newNoname f = f := if_neg (by simp [hhas])
    rw [hflowed] at hb
    exact absurd (hp.plain f (func?_spec hfunc).1 b hb _ hmem) id

theorem Sim.same (hp : Input newNoname p) (hout : Output newNoname p p') (h : Sim p s t) :
    Same p' s t where
  exnStack := h.exnStack
  label := h.label
  top := h.top.same hp hout
  below := h.below.imp fun _ _ hab => ⟨hab.1.same hp hout, hab.2⟩

/-- A function that is entered on an empty stack. -/
theorem near_start (hp : Input newNoname p) (hf : f ∈ p.all) (k : Link) :
    Inv (knownOf p) newNoname p
        (start (rewrite (fun _ => ⟨.bottom, .bottom⟩) (newNoname f.name) f) k) ∧
      Near newNoname p (start (rewrite (fun _ => ⟨.bottom, .bottom⟩) (newNoname f.name) f) k)
        (start (flowed p newNoname f) k) := by
  have hfunc := func?_of_mem hp.wellFormed.names_nodup hf
  refine ⟨Inv.enter hfunc rfl rfl (Below.nil k), ?_⟩
  cases hhas : hasHandler f with
  | true =>
    have hflowed : flowed p newNoname f = rewrite (knownOf p f.name) (newNoname f.name) f :=
      if_pos hhas
    rw [hflowed]
    exact Near.handlers hfunc hhas rfl rfl ⟨rfl, rfl, SimFrame.new p f.name, List.Forall₂.nil⟩
  | false =>
    have hflowed : flowed p newNoname f = f := if_neg (by simp [hhas])
    rw [hflowed]
    refine Near.ahead hfunc hhas rfl ⟨rfl, rfl, ⟨rfl, rfl, fun g hg hhas' => ?_⟩, List.Forall₂.nil⟩
    rw [Option.some.inj (hg.symm.trans hfunc), hhas] at hhas'
    cases hhas'

/-- In the runs of the output calls, raises and returns are made with the same exception stack, and
with the same contents of the slots that are read, as in those of the version with all
statements. -/
def KeepsHandlers (newNoname : F → L) (p p' : Program F L V ν) : Prop :=
  ∀ f ∈ p.all, ∃ g g', func? p' f.name = some g ∧ func? (explicit newNoname p) f.name = some g' ∧
    ∀ k : Link,
      (∀ e u, Run p' (start g k) e u → ∃ e' u',
        Run (explicit newNoname p) (start g' k) e' u' ∧ List.Forall₂ (Same p') e' e) ∧
      ∀ e' u', Run (explicit newNoname p) (start g' k) e' u' → ∃ e u,
        Run p' (start g k) e u ∧ List.Forall₂ (Same p') e' e

/-- **`doit`** comes to an end, and what it leaves out is not needed. -/
theorem doit_keepsHandlers (newNoname : F → L) (p : Program F L V ν) (hp : Input newNoname p) :
    ∃ p', doit newNoname p = some p' ∧ KeepsHandlers newNoname p p' := by
  obtain ⟨p', hdoit, hout⟩ := doit_output hp
  refine ⟨p', hdoit, fun f hf => ?_⟩
  have hfunc := func?_of_mem hp.wellFormed.names_nodup hf
  have hfunc' : func? p' f.name = some (flowed p newNoname f) := by
    rw [hout, hfunc, Option.map_some]
  have hexplicit : func? (explicit newNoname p) f.name =
      some (rewrite (fun _ => ⟨.bottom, .bottom⟩) (newNoname f.name) f) := by
    rw [explicit_eq, func?_rewriteAll, hfunc, Option.map_some]
  refine ⟨_, _, hfunc', hexplicit, fun k => ?_⟩
  obtain ⟨hinv, hnear⟩ := near_start hp hf k
  constructor
  · intro e u hrun
    obtain ⟨e', u', hrun', hshows⟩ := backward_run hp hout hinv hnear hrun
    exact ⟨e', u', hrun', hshows.imp fun _ _ h => h.same hp hout⟩
  · intro e' u' hrun
    obtain ⟨e, u, hrun', hshows⟩ := forward_run hp hout hinv hnear hrun
    exact ⟨e, u, hrun', hshows.imp fun _ _ h => h.same hp hout⟩

/-- A loop that calls a function twice under one handler, which goes on with the loop; the second
call does not set the handler again. -/
def retry : Program ℕ ℕ ℕ ℕ where
  functions := [⟨[], [⟨[], .jump, 3, [], .raise []⟩], 1, 3⟩]
  main := ⟨[], [⟨[], .jump, 0, [], .call [] 1 (.nonTail 1 (.handle 2))⟩,
    ⟨[], .cont (.handle 2), 1, [], .call [] 1 (.nonTail 4 (.handle 2))⟩,
    ⟨[], .cont (.handle 2), 4, [], .ret []⟩, ⟨[], .handler, 2, [], .goto [] 0⟩], 0, 0⟩

theorem retry_input : Input (10 + ·) retry where
  wellFormed := by
    constructor <;> simp [retry, Program.names, Program.labels, Program.all, labels,
      Transfer.labels, Transfer.jumps, Return.labels]
  fresh := by simp [retry, Program.all, labels]
  plain := by simp [retry, Program.all]

theorem retry_keepsHandlers :
    ∃ p', doit (10 + ·) retry = some p' ∧ KeepsHandlers (10 + ·) retry p' :=
  doit_keepsHandlers (10 + ·) retry retry_input

end ImplementHandlers

end MultiMLton.Backend
