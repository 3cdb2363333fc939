import MultiMLton.Ssa.PassSimulation
import MultiMLton.Ssa.Scope

/-!
# Activations

The blocks that an activation of a function enters, one after the other. What calls return and what
primitives of the runtime go on with is left open, so what is shown of activations does not depend on
other activations. Every thread of a program is in one: `exists_activation`.
-/

namespace MultiMLton.Ssa

open MultiMLton.Lib Machine PassSimulation

variable {m : Machine}

/-- An action may go on with an entry of the same activation. -/
inductive Machine.Action.LeadsTo (env : m.Env) : m.Action → m.Entry → Prop
  | jump (l vs) : LeadsTo env (.jump l vs) ⟨l, vs, env⟩
  | cont (n args l handler vs) : LeadsTo env (.call n args (.nonTail l handler)) ⟨l, vs, env⟩
  | handle (n args cont l vs) :
    LeadsTo env (.call n args (.nonTail cont (.handle l))) ⟨l, vs, env⟩
  | runtime (p args l v) : LeadsTo env (.runtime p args l) ⟨l, [v], env⟩

/-- The entries of an activation of `f`, the last one first. -/
inductive Program.Activation (P : Program) (f : Function) : List m.Entry → Prop
  | start (globals : m.Env) (vs : List m.Value) :
    Activation P f [⟨f.start, [], globals.bind (f.args.map Prod.fst) vs⟩]
  | next (e e' : m.Entry) (es : List m.Entry) (b : Block) (w : m.World) (a : m.Action)
    (h : Activation P f (e :: es)) (hb : P.block? e.label = some b)
    (ha : action (exec (e.enter b) w b.statements).1 b.transfer = some a)
    (he : a.LeadsTo (exec (e.enter b) w b.statements).1 e') : Activation P f (e' :: e :: es)

variable {P : Program} {Γ : Var → Ty} {f : Function} {b : Block} {env : m.Env} {e : m.Entry}
  {es : List m.Entry} {t : Transfer} {a : m.Action}

namespace Machine.Action.LeadsTo

theorem env_eq (h : a.LeadsTo env e) : e.env = env := by cases h <;> rfl

theorem mem_labels (h : a.LeadsTo env e) (ha : action env t = some a) : e.label ∈ t.labels := by
  cases t with
  | arith p args overflow success ty =>
    simp only [action] at ha
    split at ha <;> cases ha <;> cases h <;> simp [Transfer.labels]
  | bug | raise | ret => cases ha; cases h
  | call n args r =>
    cases ha
    cases h <;> simp [Transfer.labels, Return.labels, Handler.labels]
  | case test cases default =>
    obtain ⟨⟨l, vs⟩, hsel, rfl⟩ := Option.map_eq_some_iff.1 ha
    cases h
    exact mem_labels_of_select hsel
  | goto dst args | runtime p args l =>
    cases ha
    cases h
    simp [Transfer.labels]

theorem goto {dst : Label} {args : List Var} (h : a.LeadsTo env e)
    (ha : action env (.goto dst args) = some a) : e.args = args.map env := by
  cases ha
  cases h
  rfl

end Machine.Action.LeadsTo

section Typed

variable (h : P.WellTyped Γ) (hf : f ∈ P.functions)

include h hf

/-- An activation enters blocks of its function that can be reached. -/
theorem Program.Activation.exists_block (hact : P.Activation f (e :: es)) :
    ∃ b ∈ f.blocks, b.label = e.label ∧ f.Reaches b.label ∧ P.block? e.label = some b := by
  have hreach : f.Reaches e.label := by
    generalize hes : e :: es = es' at hact
    induction hact generalizing e es with
    | start globals vs =>
      cases hes
      exact .refl
    | next e₁ e' es₁ b w a hact hb ha he ih =>
      cases hes
      obtain ⟨hbP, hl⟩ := (block?_eq_some h).1 hb
      have hreach := ih rfl
      obtain ⟨b', hb', hl'⟩ := h.exists_block_of_reaches hf hreach
      obtain rfl := h.block_unique hbP (mem_blocks.2 ⟨f, hf, hb'⟩) (hl.trans hl'.symm)
      exact hreach.tail ⟨b, hb', hl, he.mem_labels ha⟩
  obtain ⟨b, hb, hl⟩ := h.exists_block_of_reaches hf hreach
  exact ⟨b, hb, hl, hl ▸ hreach, (block?_eq_some h).2 ⟨mem_blocks.2 ⟨f, hf, hb⟩, hl⟩⟩

/-- What a block asks for goes on with its entries. -/
theorem actionRel_self {E : Function → m.Entry → m.Entry → Prop} (hb : b ∈ f.blocks)
    (hE : ∀ a e, action env b.transfer = some a → a.LeadsTo env e → E f e e) :
    Option.Rel (ActionRel E P f env env) (action env b.transfer) (action env b.transfer) := by
  have htyped := (h.functions f hf).transfers b hb
  generalize b.transfer = t at hE htyped
  cases t with
  | arith p args overflow success ty =>
    simp only [action] at hE ⊢
    cases ha : m.arith p (args.map env) with
    | none | some v =>
      rw [ha] at hE
      exact .some (.jump _ _ _ _ (hE _ _ rfl (.jump _ _)))
  | bug => exact .some .bug
  | call n args r =>
    obtain ⟨g, hg, -, hr⟩ := htyped
    refine .some (.call n g _ r hg ?_)
    cases r with
    | dead => exact hr
    | nonTail cont handler =>
      refine ⟨fun ts _ vs _ => hE _ _ rfl (.cont _ _ _ _ vs), ?_, ?_⟩
      · rintro l rfl ts - vs -
        exact hE _ _ rfl (.handle _ _ _ _ vs)
      · rintro rfl
        exact hr.2.2
    | tail => exact hr
  | case test cases default =>
    simp only [action] at hE ⊢
    cases hsel : select' env test cases default with
    | none => exact .none
    | some lv =>
      rw [hsel] at hE
      exact .some (.jump _ _ _ _ (hE _ _ rfl (.jump _ _)))
  | goto dst args => exact .some (.jump _ _ _ _ (hE _ _ rfl (.jump _ _)))
  | raise xs => exact .some (.raise _ _ htyped (by simp))
  | ret xs => exact .some (.ret _ _ htyped (by simp))
  | runtime p args l => exact .some (.runtime p _ l fun v => hE _ _ rfl (.runtime _ _ _ v))

end Typed

/-- An entry that comes at the end of an activation. -/
def Program.Active (P : Program) (f : Function) (e e' : m.Entry) : Prop :=
  e' = e ∧ ∃ es, P.Activation f (e :: es)

theorem active_simulates (h : P.WellTyped Γ) (m : Machine) :
    Simulates (fun f (e e' : m.Entry) => P.Active f e e') P P where
  globals := rfl
  main := rfl
  start := by
    obtain ⟨f, hf, -⟩ := h.main
    rw [hf]
    exact Option.some_ne_none f
  enter n f hn :=
    ⟨((Program.func?_eq_some h).1 hn).1, f, hn, fun globals vs => ⟨rfl, [], .start globals vs⟩⟩
  block f hf e e' he := by
    obtain ⟨rfl, es, hact⟩ := he
    obtain ⟨b, hb, -, -, hfind⟩ := hact.exists_block h hf
    refine ⟨b, b, e', hfind, .refl, hfind, fun w => ⟨rfl, ?_⟩⟩
    exact actionRel_self h hf hb fun a e ha he => ⟨rfl, e' :: es, .next e' e es b w a hact hfind ha he⟩

/-- Every thread that a program comes to is in an activation. -/
theorem exists_activation (h : P.WellTyped Γ) {w w' : m.World} {globals : m.Env} {t : m.Thread}
    {ts : List m.Thread} (hreaches : P.Reaches w (.running globals t ts w')) :
    ∃ f ∈ P.functions, ∃ es, P.Activation f (⟨t.label, t.args, t.env⟩ :: es) := by
  obtain ⟨n, es, hrun⟩ := hreaches
  obtain ⟨-, s', -, -, hrel⟩ := ((active_simulates h m).follows w).run (.start w) hrun
  cases hrel with
  | running _ _ _ _ _ _ ht _ =>
    cases ht with
    | intro f e e' frames frames' hf he hframes => exact ⟨f, hf, he.2⟩

end MultiMLton.Ssa
