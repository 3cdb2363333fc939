import MultiMLton.Ssa.PassSimulation
import MultiMLton.Ssa.Scope

/-!
# Passes over the functions of a program

A pass rewrites the functions of a program one by one, by `List.revMap`, and runs the shrinker over
each result. What is asked of the shrinker is `Shrinks`: it does not change what well-formed programs
do, on the machines whose values obey the law that it relies on.

* `Function.TransferTyped.congr`, `Exp.HasType.congr'`: types in another program;
* `func?_revMap`, `block?_revMap`: what is found in the new program.
-/

namespace MultiMLton.Ssa

open MultiMLton.Lib List

namespace Program

/-- A program that passes `checkScopes` and the type checker. -/
def WellFormed (P : Program) : Prop := ∃ Γ, P.WellTyped Γ ∧ P.WellScoped

/-- `List.revMap` over the functions of a program -/
def revMap (P : Program) (g : Function → Function) : Program :=
  { P with functions := (P.functions.map g).reverse }

/-- The same program with every function shrunk. -/
def shrinkFunctions (P : Program) (shrink : List Statement → Function → Function) : Program :=
  { P with functions := P.functions.map (shrink P.globals) }

end Program

/-- The same observations on machines that obey a law, for instance `Machine.Lawful`. -/
def Program.SameUnder (Law : Machine → Prop) (P P' : Program) : Prop :=
  ∀ (m : Machine) (w : m.World), Law m → m.RespectsArity P →
    StepSystem.SameObservable (P.system m w) (P'.system m w)

/-- Tuples give back their components, and a case sees the words that constants are. -/
structure Machine.Lawful (m : Machine) : Prop where
  select : ∀ vs i v, vs[i]? = some v → m.select i (m.tuple vs) = v
  word : ∀ w, m.word w.size (m.const (.word w)) = w

/-- A shrinker does not change what well-formed programs do where the law holds. -/
def Shrinks (Law : Machine → Prop) (shrink : List Statement → Function → Function) : Prop :=
  ∀ P : Program, P.WellFormed → P.SameUnder Law (P.shrinkFunctions shrink)

theorem Program.SameObservable.shrink {Law : Machine → Prop} {P P' P'' : Program}
    (h : P.SameObservable P') (h' : P'.SameUnder Law P'') (hdatatypes : P'.datatypes = P.datatypes) :
    P.SameUnder Law P'' := by
  intro m w hlaw harity
  refine (h m w harity).trans (h' m w hlaw ?_)
  rw [Machine.RespectsArity, hdatatypes]
  exact harity

/-! ### Types -/

section Typed

variable {P P' : Program} {Γ Γ' : Var → Ty} {f f' : Function}

theorem Exp.HasType.congr' (hdatatypes : P'.datatypes = P.datatypes) {t : Ty} {e : Exp}
    (hΓ : ∀ x ∈ e.vars, Γ' x = Γ x) (he : e.HasType P Γ t) : e.HasType P' Γ' t := by
  cases e with
  | conApp c args =>
    obtain ⟨d, hd, hc, ht⟩ := he
    refine ⟨d, hdatatypes ▸ hd, ?_, ht⟩
    rwa [show args.map Γ' = args.map Γ from map_congr_left hΓ]
  | const c => exact he
  | primApp p targs args =>
    show checkPrimApp p targs (args.map Γ') t
    rw [show args.map Γ' = args.map Γ from map_congr_left hΓ]
    exact he
  | profile => exact he
  | select i x =>
    obtain ⟨ts, hx, ht⟩ := he
    exact ⟨ts, (hΓ x mem_cons_self).trans hx, ht⟩
  | tuple xs =>
    show t = .tuple (xs.map Γ')
    rw [show xs.map Γ' = xs.map Γ from map_congr_left hΓ]
    exact he
  | var x => exact Eq.trans he (hΓ x mem_cons_self).symm

/-- Functions and labels that are seen in the same way. -/
structure SeenAlike (P P' : Program) (f f' : Function) (ls : List Label) : Prop where
  datatypes : P'.datatypes = P.datatypes
  funcs : ∀ n g, P.func? n = some g → ∃ g', P'.func? n = some g' ∧ g'.args = g.args ∧
    g'.raises = g.raises ∧ g'.returns = g.returns
  raises : f'.raises = f.raises
  returns : f'.returns = f.returns
  labels : ∀ l ∈ ls, f'.labelTypes l = f.labelTypes l

theorem Function.TransferTyped.congr {t : Transfer} (h : SeenAlike P P' f f' t.labels)
    (hΓ : ∀ x ∈ t.vars, Γ' x = Γ x) (ht : f.TransferTyped P Γ t) : f'.TransferTyped P' Γ' t := by
  have hlabels := h.labels
  cases t with
  | arith p args overflow success ty =>
    obtain ⟨hoverflow, hsuccess, hprim⟩ := ht
    refine ⟨(hlabels _ (by simp [Transfer.labels])).trans hoverflow,
      (hlabels _ (by simp [Transfer.labels])).trans hsuccess, ?_⟩
    rwa [show args.map Γ' = args.map Γ from map_congr_left hΓ]
  | bug => trivial
  | call n args r =>
    obtain ⟨g, hg, hargs, hr⟩ := ht
    obtain ⟨g', hg', hargs', hraises', hreturns'⟩ := h.funcs n g hg
    refine ⟨g', hg', by rw [show args.map Γ' = args.map Γ from map_congr_left hΓ, hargs', hargs], ?_⟩
    cases r with
    | dead => exact ⟨hreturns'.trans hr.1, hraises'.trans hr.2⟩
    | nonTail cont handler =>
      obtain ⟨hcont, hreturns, hhandler⟩ := hr
      have hl := hlabels cont (by simp [Transfer.labels, Return.labels])
      refine ⟨by rwa [hl], fun ts hts => ?_, ?_⟩
      · rw [hl, hreturns ts (hreturns' ▸ hts)]
      · cases handler with
        | caller =>
          intro ts hts
          rw [h.raises, hhandler ts (hraises' ▸ hts)]
        | dead => exact hraises'.trans hhandler
        | handle l =>
          have hl := hlabels l (by simp [Transfer.labels, Return.labels, Handler.labels])
          refine ⟨by rw [hl]; exact hhandler.1, fun ts hts => ?_⟩
          rw [hl, hhandler.2 ts (hraises' ▸ hts)]
    | tail =>
      refine ⟨fun ts hts => ?_, fun ts hts => ?_⟩
      · rw [h.raises, hr.1 ts (hraises' ▸ hts)]
      · rw [h.returns, hr.2 ts (hreturns' ▸ hts)]
  | case test cases default =>
    obtain ⟨hcases, hdefault⟩ := ht
    have htest := hΓ test mem_cons_self
    refine ⟨?_, fun l hl => ?_⟩
    · cases cases with
      | con cs =>
        obtain ⟨d, hd, htype, hnodup, hbranches, hex⟩ := hcases
        refine ⟨d, h.datatypes ▸ hd, htest.trans htype, hnodup, fun c hc => ?_, hex⟩
        obtain ⟨ts, hts, hl⟩ := hbranches c hc
        refine ⟨ts, hts, (hlabels _ ?_).trans hl⟩
        exact mem_append_left _ (mem_map_of_mem hc)
      | word s cs =>
        obtain ⟨htype, hnodup, hne, hbranches⟩ := hcases
        refine ⟨htest.trans htype, hnodup, hne, fun c hc => (hlabels _ ?_).trans (hbranches c hc)⟩
        exact mem_append_left _ (mem_map_of_mem hc)
    · refine (hlabels l ?_).trans (hdefault l hl)
      exact mem_append_right _ (by simp [hl])
  | goto dst args =>
    show f'.labelTypes dst = some (args.map Γ')
    rw [hlabels dst (by simp [Transfer.labels]), show args.map Γ' = args.map Γ from map_congr_left hΓ]
    exact ht
  | raise xs =>
    show f'.raises = some (xs.map Γ')
    rw [h.raises, show xs.map Γ' = xs.map Γ from map_congr_left hΓ]
    exact ht
  | ret xs =>
    show f'.returns = some (xs.map Γ')
    rw [h.returns, show xs.map Γ' = xs.map Γ from map_congr_left hΓ]
    exact ht
  | runtime p args l =>
    obtain ⟨ts, hl, hlen⟩ := ht
    exact ⟨ts, (hlabels l (by simp [Transfer.labels])).trans hl, hlen⟩

end Typed

/-! ### What is found in the new program -/

namespace Program

variable {P : Program} {Γ : Var → Ty} {g : Function → Function} {f f' : Function}

theorem mem_revMap : f' ∈ (P.revMap g).functions ↔ ∃ f ∈ P.functions, g f = f' := by
  simp [revMap]

theorem funcs_revMap (h : P.WellTyped Γ) (hname : ∀ f, (g f).name = f.name) :
    ((P.revMap g).functions.map Function.name).Nodup := by
  have hnames : (P.revMap g).functions.map Function.name =
      (P.functions.map Function.name).reverse := by
    simp [revMap, List.map_reverse, Function.comp_def, hname]
  rw [hnames]
  exact nodup_reverse.2 h.funcs

theorem func?_revMap (h : P.WellTyped Γ) (hname : ∀ f, (g f).name = f.name) {n : Func}
    (hf : P.func? n = some f) : (P.revMap g).func? n = some (g f) := by
  obtain ⟨hmem, rfl⟩ := (func?_eq_some h).1 hf
  exact (find?_key_iff (funcs_revMap h hname)).2 ⟨mem_revMap.2 ⟨f, hmem, rfl⟩, hname f⟩

theorem block?_revMap (hlabels : ((P.revMap g).blocks.map Block.label).Nodup)
    (hf : f ∈ P.functions) {b : Block} (hb : b ∈ (g f).blocks) :
    (P.revMap g).block? b.label = some b :=
  (find?_key_iff hlabels).2 ⟨mem_blocks.2 ⟨g f, mem_revMap.2 ⟨f, hf, rfl⟩, hb⟩, rfl⟩

/-- The variables of the new program. -/
theorem defs_revMap (P : Program) (g : Function → Function) : (P.revMap g).defs.Perm
    (P.globalVars ++ P.functions.flatMap fun f => (g f).args.map Prod.fst ++
      (g f).blocks.flatMap fun b => b.formals ++ b.binds) := by
  refine (defs_perm _).trans (List.Perm.append_left _ ?_)
  refine ((reverse_perm _).flatMap_right _).trans (List.Perm.of_eq ?_)
  rw [flatMap_map]

theorem labels_revMap (P : Program) (g : Function → Function) :
    ((P.revMap g).blocks.map Block.label).Perm
      (P.functions.flatMap fun f => (g f).blocks.map Block.label) := by
  rw [blocks, map_flatMap]
  refine ((reverse_perm _).flatMap_right _).trans (List.Perm.of_eq ?_)
  rw [flatMap_map]

end Program

end MultiMLton.Ssa
