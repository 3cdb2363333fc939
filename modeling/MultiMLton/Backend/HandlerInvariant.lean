import MultiMLton.Backend.KnownHandlers

/-!
# What is known of handlers is true

What `flow` knows before a block is true of the frame, in all states of a program in which each
block has all statements that it needs.

* `Holds`: what is known is true of a frame;
* `needed`: the state that a transfer needs, which `post` brings about (`exec_post`);
* `Does`: one block of that program, which is the same for all that may truly be known
  (`step_iff_does`);
* `Inv`: what is known is true of all frames, those that wait in calls included;
* `inv_does`: it stays true.
-/

namespace MultiMLton.Backend

open Rssa FlatLattice HandlerStack List Option

namespace ImplementHandlers

variable {F L V ν : Type}

/-! ### What is known is true -/

/-- What is known is true of a frame at the position `depth`. -/
structure Holds (i : Known L) (depth : ℕ) (k : Link) (frame : Frame F L) : Prop where
  slot : i.global = .point .slot → frame.slot = some k
  locl : i.global = .point .locl → k = some depth
  handler : ∀ l, i.handler = .point l → frame.handler = some l

/-- A block that is reached has something known of it. -/
def Known.Reached (i : Known L) : Prop := i.global ≠ .bottom ∧ i.handler ≠ .bottom

section

variable {i j : Known L} {depth : ℕ} {k : Link} {frame : Frame F L} {s : State F L}

theorem Elt.eq_point_of_le {P : Type} {e : Elt P} {p : P} (h : e ≤ .point p) (hne : e ≠ .bottom) :
    e = .point p := by
  rcases h with hbot | heq | htop
  · exact absurd hbot hne
  · exact heq
  · cases htop

theorem Elt.ne_bottom_of_le {P : Type} {e e' : Elt P} (h : e ≤ e') (hne : e ≠ .bottom) :
    e' ≠ .bottom := by
  rintro rfl
  rcases h with hbot | heq | htop
  · exact hne hbot
  · exact hne heq
  · cases htop

theorem Known.Reached.mono (h : i.Reached) (hle : i.Le j) : j.Reached :=
  ⟨Elt.ne_bottom_of_le hle.1 h.1, Elt.ne_bottom_of_le hle.2 h.2⟩

/-- Knowing less is true as well. -/
theorem Holds.mono (h : Holds i depth k frame) (hreached : i.Reached) (hle : i.Le j) :
    Holds j depth k frame where
  slot hj := h.slot (Elt.eq_point_of_le (hj ▸ hle.1) hreached.1)
  locl hj := h.locl (Elt.eq_point_of_le (hj ▸ hle.1) hreached.1)
  handler l hj := h.handler l (Elt.eq_point_of_le (hj ▸ hle.2) hreached.2)

/-- Nothing is known before the analysis. -/
theorem holds_bottom (depth : ℕ) (k : Link) (frame : Frame F L) :
    Holds ⟨.bottom, .bottom⟩ depth k frame where
  slot h := by cases h
  locl h := by cases h
  handler l h := by cases h

/-! ### What transfers need -/

/-- The state that a transfer needs, in a frame whose link slot holds `k`. -/
def needed (s : State F L) (k : Link) : Transfer F L V ν → State F L
  | .call _ _ .dead => s
  | .call _ _ (.nonTail _ .caller) => { s with exnStack := k }
  | .call _ _ (.nonTail _ .dead) => s
  | .call _ _ (.nonTail _ (.handle l)) =>
    { s with
      exnStack := some s.below.length
      top := { s.top with handler := some l } }
  | .call _ _ .tail => { s with exnStack := k }
  | .raise _ => { s with exnStack := k }
  | .ret _ => { s with exnStack := k }
  | _ => s

theorem exec_append (s : State F L) (ss ss' : List (Statement V L ν)) :
    s.exec (ss ++ ss') = (s.exec ss).bind fun t => t.exec ss' := foldlM_append ..

theorem exec_cons (s : State F L) (a : Statement V L ν) (ss : List (Statement V L ν)) :
    s.exec (a :: ss) = (s.execStatement a).bind fun t => t.exec ss := foldlM_cons ..

theorem exec_nil (s : State F L) : s.exec ([] : List (Statement V L ν)) = some s := rfl

/-- A statement that has nothing to do with handlers. -/
def IsPlain : Statement V L ν → Prop
  | .setExnStackLocal | .setExnStackSlot | .setHandler _ | .setSlotExnStack => False
  | _ => True

theorem exec_plain {ss : List (Statement V L ν)} (h : ∀ a ∈ ss, IsPlain a) (s : State F L) :
    s.exec ss = some s := by
  induction ss with
  | nil => rfl
  | cons a ss ih =>
    have ha : s.execStatement a = some s := by
      have hplain := h a mem_cons_self
      cases a <;> first
        | rfl
        | exact absurd hplain id
    rw [exec_cons, ha, bind_some]
    exact ih fun b hb => h b (mem_cons_of_mem a hb)

variable [DecidableEq L]

section

variable (h : Holds i s.below.length s.exnStack s.top)

include h

omit [DecidableEq L] in
theorem exec_setExnStackSlot (hslot : s.top.slot = some k) :
    s.exec (setExnStackSlot i : List (Statement V L ν)) = some { s with exnStack := k } := by
  unfold setExnStackSlot
  split_ifs with hi
  · have heq := h.slot hi
    rw [hslot] at heq
    rw [Option.some.inj heq, exec_nil]
  · simp only [exec_cons, State.execStatement, hslot, map_some, bind_some, exec_nil]

omit [DecidableEq L] in
theorem exec_setExnStackLocal : s.exec (setExnStackLocal i : List (Statement V L ν)) =
      some { s with exnStack := some s.below.length } := by
  unfold setExnStackLocal
  split_ifs with hi
  · rw [← h.locl hi, exec_nil]
  · rfl

theorem exec_setHandler (l : L) : s.exec (setHandler i l : List (Statement V L ν)) =
      some { s with top := { s.top with handler := some l } } := by
  unfold setHandler
  split_ifs with hi
  · rw [← h.handler l hi, exec_nil]
  · rfl

/-- What is left out of the statements that a transfer needs does nothing. -/
theorem exec_post (hslot : s.top.slot = some k)
    (t : Transfer F L V ν) : s.exec (post i t) = some (needed s k t) := by
  cases t with
  | call args func r =>
    match r with
    | .dead => rfl
    | .tail => exact exec_setExnStackSlot h hslot
    | .nonTail cont .caller => exact exec_setExnStackSlot h hslot
    | .nonTail cont .dead => rfl
    | .nonTail cont (.handle l) =>
      have h' : Holds ⟨i.global, .bottom⟩ s.below.length s.exnStack
          { s.top with handler := some l } := ⟨h.slot, h.locl, fun _ hl => by cases hl⟩
      have hlocal := exec_setExnStackLocal (ν := ν) (V := V)
        (s := { s with top := { s.top with handler := some l } }) h'
      change s.exec (setHandler i l ++ setExnStackLocal i) = _
      rw [exec_append, exec_setHandler h, bind_some]
      exact hlocal
  | raise args | ret args => exact exec_setExnStackSlot h hslot
  | arith _ _ _ _ _ => rfl
  | ccall _ _ _ => rfl
  | goto _ _ => rfl
  | switch _ => rfl

end

end

/-! ### Looking up functions and blocks -/

section

variable [DecidableEq F] [DecidableEq L] {p : Program F L V ν} {f : Function F L V ν}
  {b : Block F L V ν} {name : F} {label : L} {newNoname : F → L} {known : F → L → Known L}

/-- The program with the statements that are not known to do nothing. -/
def rewriteAll (known : F → L → Known L) (newNoname : F → L) (p : Program F L V ν) :
    Program F L V ν where
  functions := p.functions.map fun f => rewrite (known f.name) (newNoname f.name) f
  main := rewrite (known p.main.name) (newNoname p.main.name) p.main

omit [DecidableEq F] in
theorem explicit_eq (newNoname : F → L) (p : Program F L V ν) :
    explicit newNoname p = rewriteAll (fun _ _ => ⟨.bottom, .bottom⟩) newNoname p := rfl

theorem func?_rewriteAll (known : F → L → Known L) (newNoname : F → L) (p : Program F L V ν)
    (name : F) : func? (rewriteAll known newNoname p) name =
      (func? p name).map fun f => rewrite (known f.name) (newNoname f.name) f := by
  have hall : (rewriteAll known newNoname p).all =
      p.all.map fun f => rewrite (known f.name) (newNoname f.name) f := rfl
  rw [func?, hall, find?_map]
  rfl

omit [DecidableEq F] in
theorem block?_rewrite (known : L → Known L) (newStart : L) (f : Function F L V ν)
    (h : block? f label = some b) :
    block? (rewrite known newStart f) label = some (rewriteBlock known b) := by
  have hmap : (f.blocks.map (rewriteBlock known)).find? (fun b => decide (b.label = label)) =
      some (rewriteBlock known b) := by
    rw [find?_map]
    exact congrArg (Option.map (rewriteBlock known)) h
  rw [block?, rewrite, find?_append, hmap]
  rfl

omit [DecidableEq F] in
theorem block?_newStart (known : L → Known L) {newStart : L} (h : newStart ∉ f.labels) :
    block? (rewrite known newStart f) newStart = some (startBlock newStart f.start) := by
  have hnone : (f.blocks.map (rewriteBlock known)).find?
      (fun b => decide (b.label = newStart)) = none := by
    rw [find?_eq_none]
    intro b hb
    obtain ⟨b', hb', rfl⟩ := mem_map.mp hb
    have hne : b'.label ≠ newStart := fun heq => h (heq ▸ mem_map_of_mem hb')
    exact ne_of_eq_of_ne (decide_eq_false hne) Bool.false_ne_true
  rw [block?, rewrite, find?_append, hnone]
  simp [startBlock]

/-- Calls enter the same functions at the same labels, whatever is known. -/
theorem next_rewriteAll (known : F → L → Known L) (newNoname : F → L) (p : Program F L V ν)
    (s : State F L) (t : Transfer F L V ν) :
    s.next (rewriteAll known newNoname p) t = s.next (explicit newNoname p) t := by
  cases t with
  | call args name r =>
    simp only [State.next, explicit_eq, func?_rewriteAll]
    cases func? p name with
    | none => rfl
    | some f => cases r <;> rfl
  | _ => rfl

/-! ### One block of the version with all statements -/

/-- The function saves its exception stack. -/
def entered (s : State F L) (f : Function F L V ν) : State F L :=
  { s with
    label := f.start
    top := { s.top with slot := some s.exnStack } }

inductive Does (newNoname : F → L) (p : Program F L V ν) :
    State F L → List (State F L) → Option (State F L) → Prop
  | enter {s f} (hfunc : func? p s.top.func = some f) (hlabel : s.label = newNoname f.name) :
    Does newNoname p s [] (some (entered s f))
  | block {s f b k u} (hfunc : func? p s.top.func = some f) (hblock : block? f s.label = some b)
    (hslot : s.top.slot = some k)
    (hnext : u ∈ (needed s k b.transfer).next (explicit newNoname p) b.transfer) :
    Does newNoname p s ((needed s k b.transfer).shows b.transfer) u

/-- Where a state can be: at the start of a function that has not saved its exception stack, or at a
block with the exception stack saved. -/
inductive At (newNoname : F → L) (p : Program F L V ν) (s : State F L) (f : Function F L V ν) : Prop
  | enter (hfunc : func? p s.top.func = some f) (hlabel : s.label = newNoname f.name)
  | block (k : Link) (hfunc : func? p s.top.func = some f) (hlabel : s.label ∈ f.labels)
    (hslot : s.top.slot = some k)

/-- The input of the pass: a program without any statements about handlers, and new labels. -/
structure Input (newNoname : F → L) (p : Program F L V ν) : Prop where
  wellFormed : p.WellFormed
  fresh : ∀ f ∈ p.all, newNoname f.name ∉ f.labels
  plain : ∀ f ∈ p.all, ∀ b ∈ f.blocks, ∀ a ∈ b.statements, IsPlain a

variable {s : State F L} {e : List (State F L)} {u : Option (State F L)}

/-- A block does the same for all that may truly be known. -/
theorem step_iff_does (hp : Input newNoname p) (hat : At newNoname p s f)
    (hholds : s.label ∈ f.labels →
      Holds (known f.name s.label) s.below.length s.exnStack s.top) :
    Step (rewriteAll known newNoname p) s e u ↔ Does newNoname p s e u := by
  have hlookup : func? p s.top.func = some f := by
    cases hat <;> assumption
  have hf := (func?_spec hlookup).1
  have hfunc' := func?_rewriteAll known newNoname p s.top.func
  rw [hlookup, map_some] at hfunc'
  -- the statements of a block bring about what its transfer needs
  have hexec : ∀ {b : Block F L V ν} {k}, block? f s.label = some b → s.top.slot = some k →
      s.exec (rewriteBlock (known f.name) b).statements = some (needed s k b.transfer) := by
    intro b k hb hslot
    obtain ⟨hmem, hlabel⟩ := block?_spec hb
    change s.exec (b.statements ++ post (known f.name b.label) b.transfer) = _
    rw [exec_append, exec_plain (hp.plain f hf b hmem), bind_some, hlabel]
    exact exec_post (hholds (hlabel ▸ mem_map_of_mem hmem)) hslot b.transfer
  constructor
  · rintro ⟨hfunc, hblock, hrun, hnext⟩
    rw [hfunc'] at hfunc
    cases hfunc
    rw [next_rewriteAll] at hnext
    cases hat with
    | enter _ hlabel =>
      rw [hlabel, block?_newStart _ (hp.fresh f hf)] at hblock
      cases hblock
      cases hrun
      rw [mem_singleton.mp hnext]
      exact Does.enter hlookup hlabel
    | block k _ hlabel hslot =>
      obtain ⟨b, hb⟩ := exists_block? hlabel
      rw [block?_rewrite _ _ f hb] at hblock
      cases hblock
      rw [hexec hb hslot] at hrun
      cases hrun
      exact Does.block hlookup hb hslot hnext
  · intro hdoes
    cases hdoes with
    | enter hfunc hlabel =>
      rw [hlookup] at hfunc
      cases hfunc
      have hblock : block? (rewrite (known f.name) (newNoname f.name) f) s.label =
          some (startBlock (newNoname f.name) f.start) := by
        rw [hlabel]
        exact block?_newStart (known f.name) (hp.fresh f hf)
      exact Step.block hfunc' hblock rfl (mem_singleton_self _)
    | block hfunc hb hslot hnext =>
      rw [hlookup] at hfunc
      cases hfunc
      rw [← next_rewriteAll known] at hnext
      have hblock := block?_rewrite (known f.name) (newNoname f.name) f hb
      exact Step.block (b := rewriteBlock (known f.name) _) hfunc' hblock (hexec hb hslot) hnext

/-! ### What is known stays true -/

/-- The function has a call that `l` handles. -/
def Handles (f : Function F L V ν) (l : L) : Prop :=
  ∃ b ∈ f.blocks, ∃ args g cont, b.transfer = .call args g (.nonTail cont (.handle l))

/-- The frames below one that was entered with the exception stack `k`. -/
inductive Below (known : F → L → Known L) (p : Program F L V ν) :
    Link → List (Frame F L × Return L) → Prop
  | nil (k) : Below known p k []
  | cons {k k' frame r rest} {f : Function F L V ν} (hfunc : func? p frame.func = some f)
    (hcont : ∀ cont h, r = .nonTail cont h → cont ∈ f.labels ∧ (known f.name cont).Reached ∧
      Holds (known f.name cont) rest.length k frame)
    (hhandler : ∀ l, frame.handler = some l → Handles f l) (hslot : frame.slot = some k')
    (hbelow : Below known p k' rest) : Below known p k ((frame, r) :: rest)

/-- A state at a block, with the exception stack `k` saved, of which what is known is true. -/
structure Inside (known : F → L → Known L) (p : Program F L V ν) (s : State F L)
    (f : Function F L V ν) (k : Link) : Prop where
  func : func? p s.top.func = some f
  label : s.label ∈ f.labels
  reached : (known f.name s.label).Reached
  holds : Holds (known f.name s.label) s.below.length s.exnStack s.top
  handler : ∀ l, s.top.handler = some l → Handles f l
  slot : s.top.slot = some k
  below : Below known p k s.below

/-- What is known is true of all frames. -/
inductive Inv (known : F → L → Known L) (newNoname : F → L) (p : Program F L V ν) (s : State F L) :
    Prop
  | enter {f : Function F L V ν} (hfunc : func? p s.top.func = some f)
    (hlabel : s.label = newNoname f.name) (hhandler : s.top.handler = none)
    (hbelow : Below known p s.exnStack s.below)
  | inside {f : Function F L V ν} {k : Link} (h : Inside known p s f k)

omit [DecidableEq F] [DecidableEq L] in
theorem Handles.spec (hp : Input newNoname p) (hf : f ∈ p.all)
    (hsound : Sound f (known f.name)) {l : L} (h : Handles f l) :
    l ∈ f.labels ∧ Known.Le ⟨.point .locl, .point l⟩ (known f.name l) := by
  obtain ⟨b, hb, args, g, cont, ht⟩ := h
  constructor
  · refine hp.wellFormed.jumps_mem f hf b hb l ?_
    simp [ht, Transfer.labels, Return.labels]
  · refine hsound.block b hb (l, ⟨.point .locl, .point l⟩) ?_
    rw [ht]
    exact mem_cons_self

omit [DecidableEq L] in
/-- A frame that handles a raise. -/
theorem Below.unwind {k : Link} {frames : List (Frame F L × Return L)}
    (h : Below known p k frames) {n : ℕ} {frame : Frame F L} {rest : List (Frame F L × Return L)}
    (hunwind : State.unwind n frames = some (frame, rest)) :
    rest.length = n ∧ ∃ f k', func? p frame.func = some f ∧
      (∀ l, frame.handler = some l → Handles f l) ∧ frame.slot = some k' ∧
        Below known p k' rest := by
  induction h with
  | nil => cases hunwind
  | cons hfunc hcont hhandler hslot hbelow ih =>
    rw [State.unwind] at hunwind
    split_ifs at hunwind with hlength
    · cases hunwind
      exact ⟨hlength, _, _, hfunc, hhandler, hslot, hbelow⟩
    · exact ih hunwind

omit [DecidableEq L] in
theorem inside_entered (hp : Input newNoname p) (hsound : ∀ f ∈ p.all, Sound f (known f.name))
    (hfunc : func? p s.top.func = some f) (hhandler : s.top.handler = none)
    (hbelow : Below known p s.exnStack s.below) :
    Inside known p (entered s f) f s.exnStack := by
  have hf := (func?_spec hfunc).1
  have hstart := (hsound f hf).start
  have hreached : Known.Reached (⟨.point .slot, .top⟩ : Known L) := by
    constructor <;> simp
  have hholds : Holds (⟨.point .slot, .top⟩ : Known L) s.below.length s.exnStack
      (entered s f).top :=
    ⟨fun _ => rfl, (fun h => by cases h), (fun _ h => by cases h)⟩
  refine ⟨hfunc, hp.wellFormed.start_mem f hf, hreached.mono hstart,
    hholds.mono hreached hstart, fun l hl => ?_, rfl, hbelow⟩
  change s.top.handler = some l at hl
  rw [hhandler] at hl
  cases hl

omit [DecidableEq F] [DecidableEq L] in
/-- What a block passes on is true at the labels where it goes on. -/
theorem inv_passes (hp : Input newNoname p) (hsound : ∀ f ∈ p.all, Sound f (known f.name))
    (hf : f ∈ p.all) {b : Block F L V ν} (hb : b ∈ f.blocks) {l : L} {i : Known L}
    (hmem : (l, i) ∈ outflow (known f.name b.label) b.transfer) (hl : l ∈ b.transfer.labels)
    (hreached : i.Reached) {n : ℕ} {k : Link} {frame : Frame F L} (hholds : Holds i n k frame) :
    l ∈ f.labels ∧ (known f.name l).Reached ∧ Holds (known f.name l) n k frame := by
  have hle := (hsound f hf).block b hb _ hmem
  exact ⟨hp.wellFormed.jumps_mem f hf b hb l hl, hreached.mono hle, hholds.mono hreached hle⟩

/-- The state is before a block. -/
structure AtBlock (known : F → L → Known L) (p : Program F L V ν) (s : State F L)
    (f : Function F L V ν) (b : Block F L V ν) (k : Link) : Prop extends Inside known p s f k where
  mem : b ∈ f.blocks
  block : b.label = s.label

variable {b : Block F L V ν} {k : Link}

omit [DecidableEq L] in
theorem AtBlock.known_block (h : AtBlock known p s f b k) :
    (known f.name b.label).Reached ∧
      Holds (known f.name b.label) s.below.length s.exnStack s.top := by
  rw [h.block]
  exact ⟨h.reached, h.holds⟩

section

variable (hp : Input newNoname p) (hsound : ∀ f ∈ p.all, Sound f (known f.name))
  (h : AtBlock known p s f b k)

include hp hsound h

omit [DecidableEq L] in
theorem AtBlock.jumps {t : State F L} (houtflow : outflow (known f.name b.label) b.transfer =
      b.transfer.jumps.map (·, known f.name b.label))
    (hnext : some t ∈ b.transfer.jumps.map fun l => some { s with label := l }) :
    Inside known p t f k := by
  obtain ⟨l, hl, heq⟩ := mem_map.mp hnext
  cases heq
  have hmem : (l, known f.name b.label) ∈ outflow (known f.name b.label) b.transfer := by
    rw [houtflow]
    exact mem_map_of_mem hl
  obtain ⟨hreached₀, hholds₀⟩ := h.known_block
  obtain ⟨hlabel, hreached, hholds⟩ := inv_passes hp hsound (func?_spec h.func).1 h.mem hmem
    (Transfer.mem_labels_of_mem_jumps hl) hreached₀ hholds₀
  exact ⟨h.func, hlabel, hreached, hholds, h.handler, h.slot, h.below⟩

omit [DecidableEq L] in
/-- What is known at the continuation of a call is true of the frame that waits. -/
theorem AtBlock.cont {args : List (Operand V)} {name : F} {cont : L}
    {handler : Rssa.Handler L} (ht : b.transfer = .call args name (.nonTail cont handler)) :
    cont ∈ f.labels ∧ (known f.name cont).Reached ∧
      Holds (known f.name cont) s.below.length (needed s k b.transfer).exnStack
        (needed s k b.transfer).top := by
  have hf := (func?_spec h.func).1
  obtain ⟨hreached, hholds⟩ := h.known_block
  have hlabel : cont ∈ b.transfer.labels := by
    cases handler <;> simp [ht, Transfer.labels, Return.labels]
  cases handler with
  | caller =>
    have hmem : (cont, (⟨.point .slot, (known f.name b.label).handler⟩ : Known L)) ∈
        outflow (known f.name b.label) b.transfer := by
      rw [ht]
      exact mem_singleton_self _
    refine inv_passes hp hsound hf h.mem hmem hlabel ⟨by simp, hreached.2⟩ ?_
    rw [ht]
    exact ⟨fun _ => h.slot, (fun hi => by cases hi), hholds.handler⟩
  | dead =>
    have hmem : (cont, known f.name b.label) ∈ outflow (known f.name b.label) b.transfer := by
      rw [ht]
      exact mem_singleton_self _
    refine inv_passes hp hsound hf h.mem hmem hlabel hreached ?_
    rw [ht]
    exact hholds
  | handle l =>
    have hmem : (cont, (⟨.point .locl, .point l⟩ : Known L)) ∈
        outflow (known f.name b.label) b.transfer := by
      rw [ht]
      exact mem_cons_of_mem _ (mem_singleton_self _)
    refine inv_passes hp hsound hf h.mem hmem hlabel ⟨by simp, by simp⟩ ?_
    rw [ht]
    exact ⟨(fun hi => by cases hi), fun _ => rfl, fun l' hl => congrArg some (Elt.point.inj hl)⟩

omit [DecidableEq L] in
/-- The frame of a call that is no tail call waits. -/
theorem AtBlock.waits {args : List (Operand V)} {name : F} {r : Return L}
    (ht : b.transfer = .call args name r) (hr : r ≠ .tail) :
    Below known p (needed s k b.transfer).exnStack
      (((needed s k b.transfer).top, r) :: (needed s k b.transfer).below) := by
  have hbelow : (needed s k b.transfer).below = s.below ∧
      (needed s k b.transfer).top.func = s.top.func ∧
        (needed s k b.transfer).top.slot = s.top.slot := by
    rw [ht]
    match r with
    | .dead | .tail | .nonTail _ .caller | .nonTail _ .dead | .nonTail _ (.handle _) =>
      exact ⟨rfl, rfl, rfl⟩
  obtain ⟨hbelow, hfunc, hslot⟩ := hbelow
  rw [hbelow]
  refine Below.cons (hfunc ▸ h.func) (fun cont handler heq => ?_) (fun l hl => ?_)
    (hslot.trans h.slot) h.below
  · subst heq
    exact h.cont hp hsound ht
  · rw [ht] at hl
    match r with
    | .nonTail cont (.handle l') =>
      cases hl
      exact ⟨b, h.mem, args, name, cont, ht⟩
    | .dead | .nonTail _ .caller | .nonTail _ .dead => exact h.handler l hl

variable {t : State F L}

theorem AtBlock.call {args : List (Operand V)} {name : F} {r : Return L}
    (ht : b.transfer = .call args name r)
    (hnext : some t ∈ (needed s k b.transfer).next (explicit newNoname p) b.transfer) :
    Inv known newNoname p t := by
  have hnext' : some t = (func? (explicit newNoname p) name).map fun g =>
      (needed s k b.transfer).call g r := by
    rw [ht] at hnext ⊢
    exact mem_singleton.mp hnext
  rw [explicit_eq, func?_rewriteAll] at hnext'
  cases hcallee : func? p name with
  | none =>
    rw [hcallee] at hnext'
    cases hnext'
  | some g =>
    rw [hcallee] at hnext'
    have hfunc : func? p g.name = some g :=
      func?_of_mem hp.wellFormed.names_nodup (func?_spec hcallee).1
    cases hnext'
    cases r with
    | tail =>
      refine Inv.enter hfunc rfl rfl ?_
      rw [ht]
      exact h.below
    | dead | nonTail cont handler => exact Inv.enter hfunc rfl rfl (h.waits hp hsound ht (by simp))

omit [DecidableEq L] in
theorem AtBlock.raise (hnext : some t = ({ s with exnStack := k } : State F L).raise) :
    ∃ g k', Inside known p t g k' := by
  simp only [State.raise, bind_eq_bind] at hnext
  obtain ⟨n, -, hrest⟩ := bind_eq_some_iff.mp hnext.symm
  obtain ⟨⟨frame, rest⟩, hunwind, hhandles⟩ := bind_eq_some_iff.mp hrest
  obtain ⟨l, hl, heq⟩ := bind_eq_some_iff.mp hhandles
  cases heq
  -- the frame that raises may be the one that handles
  have hframes : Below known p none ((s.top, .tail) :: s.below) :=
    Below.cons h.func (fun cont handler heq => by cases heq) h.handler h.slot h.below
  obtain ⟨hlength, g, k', hfunc, hhandler, hslot, hbelow⟩ := hframes.unwind hunwind
  have hg := (func?_spec hfunc).1
  obtain ⟨hlabel, hle⟩ := (hhandler l hl).spec hp hg (hsound g hg)
  have hreached : Known.Reached (⟨.point .locl, .point l⟩ : Known L) := by
    constructor <;> simp
  refine ⟨g, k', hfunc, hlabel, hreached.mono hle, Holds.mono ?_ hreached hle, hhandler, hslot,
    hbelow⟩
  refine ⟨(fun hi => by cases hi), fun _ => congrArg some hlength.symm, fun l' hl' => ?_⟩
  rw [← Elt.point.inj hl']
  exact hl

end

omit [DecidableEq L] in
theorem AtBlock.ret (h : AtBlock known p s f b k)
    (hnext : some t = ({ s with exnStack := k } : State F L).ret) :
    ∃ g k', Inside known p t g k' := by
  have hbelow := h.below
  obtain ⟨exnStack, label, top, below⟩ := s
  simp only [State.ret] at hnext
  cases hbelow with
  | nil => cases hnext
  | @cons _ k' frame r rest g hfunc hcont hhandler hslot hbelow =>
    cases r with
    | nonTail cont handler =>
      cases hnext
      obtain ⟨hlabel, hreached, hholds⟩ := hcont cont handler rfl
      exact ⟨g, k', hfunc, hlabel, hreached, hholds, hhandler, hslot, hbelow⟩
    | dead | tail => cases hnext

/-- All transfers but calls lead to blocks of frames that are there. -/
theorem AtBlock.inside (hp : Input newNoname p) (hsound : ∀ f ∈ p.all, Sound f (known f.name))
    (h : AtBlock known p s f b k) (hcall : ∀ args name r, b.transfer ≠ .call args name r)
    (hnext : some t ∈ (needed s k b.transfer).next (explicit newNoname p) b.transfer) :
    ∃ g k', Inside known p t g k' := by
  cases htransfer : b.transfer with
  | call args name r => exact absurd htransfer (hcall args name r)
  | raise args =>
    rw [htransfer] at hnext
    exact h.raise hp hsound (mem_singleton.mp hnext)
  | ret args =>
    rw [htransfer] at hnext
    exact h.ret (mem_singleton.mp hnext)
  | arith _ _ _ _ _ | ccall _ _ _ | goto _ _ | switch _ =>
    rw [htransfer] at hnext
    refine ⟨f, k, h.jumps hp hsound ?_ ?_⟩
    · rw [htransfer]
      rfl
    · rw [htransfer]
      exact hnext

/-- A block is done before a state with the invariant: the function is entered, or the state is
inside. -/
theorem Inv.cases_does (hp : Input newNoname p) (hinv : Inv known newNoname p s)
    (hdoes : Does newNoname p s e u) :
    (∃ g, func? p s.top.func = some g ∧ s.label = newNoname g.name ∧ s.top.handler = none ∧
        Below known p s.exnStack s.below ∧ e = [] ∧ u = some (entered s g)) ∨
      ∃ g b k, AtBlock known p s g b k ∧ block? g s.label = some b ∧
        e = (needed s k b.transfer).shows b.transfer ∧
          u ∈ (needed s k b.transfer).next (explicit newNoname p) b.transfer := by
  cases hdoes with
  | @enter g hfunc hlabel =>
    left
    cases hinv with
    | enter hfunc' _ hhandler hbelow => exact ⟨g, hfunc, hlabel, hhandler, hbelow, rfl, rfl⟩
    | inside h =>
      have hmem := h.label
      rw [Option.some.inj (h.func.symm.trans hfunc), hlabel] at hmem
      exact absurd hmem (hp.fresh g (func?_spec hfunc).1)
  | @block g b k _ hfunc hblock hslot hnext =>
    right
    obtain ⟨hmem, hlabel⟩ := block?_spec hblock
    cases hinv with
    | enter hfunc' hlabel' =>
      rw [Option.some.inj (hfunc'.symm.trans hfunc)] at hlabel'
      refine absurd ?_ (hp.fresh g (func?_spec hfunc).1)
      rw [← hlabel', ← hlabel]
      exact mem_map_of_mem hmem
    | inside h =>
      have hg := Option.some.inj (h.func.symm.trans hfunc)
      have hk := Option.some.inj (h.slot.symm.trans hslot)
      subst hg hk
      exact ⟨_, b, _, ⟨h, hmem, hlabel⟩, hblock, rfl, hnext⟩

/-- What is known stays true. -/
theorem inv_does (hp : Input newNoname p) (hsound : ∀ f ∈ p.all, Sound f (known f.name))
    (hinv : Inv known newNoname p s) (hdoes : Does newNoname p s e (some t)) :
    Inv known newNoname p t := by
  rcases hinv.cases_does hp hdoes with
    ⟨g, hfunc, -, hhandler, hbelow, -, heq⟩ | ⟨g, b, k, h, -, -, hnext⟩
  · cases heq
    exact Inv.inside (inside_entered hp hsound hfunc hhandler hbelow)
  · by_cases hcall : ∃ args name r, b.transfer = .call args name r
    · obtain ⟨args, name, r, ht⟩ := hcall
      exact h.call hp hsound ht hnext
    · push Not at hcall
      obtain ⟨g', k', hinside⟩ := h.inside hp hsound hcall hnext
      exact Inv.inside hinside

end

end ImplementHandlers

end MultiMLton.Backend
