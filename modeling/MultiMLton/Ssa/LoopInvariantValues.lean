import MultiMLton.Ssa.LoopInvariantBlocks

/-!
# Split blocks run as the original ones

The new program binds new variables besides those of the original one, and the environments of both
agree on the latter (`Agree`). A block is entered by its head or, after a jump back, by its body. In the
second case the invariant formals still have the values that the jump would have passed.

* `bind_body`: the formals of a body that has been entered after a jump back;
* `bind_head`, `map_innerActuals`: what a head binds and passes on;
* `transform_simulates`: the two programs enter the same blocks.
-/

namespace MultiMLton.Ssa.LoopInvariant

open MultiMLton.Lib Dfs Machine PassSimulation List Option Nat

variable {P : Program} {Γ : Var → Ty} {f : Function} {b c : Block} {K : Label → Bool} {l : Label}
  {m : Machine} {env env' : m.Env} {n : ℕ}

/-- Environments agree on the variables below `n`. -/
def Agree (n : ℕ) (env env' : m.Env) : Prop := ∀ x < n, env' x = env x

/-- Statements emit the same, and environments still agree. -/
theorem Agree.exec {ss : List Statement} (hss : ∀ s ∈ ss, ∀ x ∈ s.exp.vars, x < n)
    (henv : Agree n env env') (w : m.World) : (exec env' w ss).2 = (exec env w ss).2 ∧
      Agree n (exec env w ss).1 (exec env' w ss).1 := by
  induction ss generalizing env env' w with
  | nil => exact ⟨rfl, henv⟩
  | cons s ss ih =>
    rw [forall_mem_cons] at hss
    have heval := eval_congr (fun x hx => henv x (hss.1 x hx)) w
    simp only [Machine.exec, heval]
    have henv' : Agree n (env.set s.var (eval env w s.exp).1) (env'.set s.var (eval env w s.exp).1) := by
      intro x hx
      cases s.var with
      | none => exact henv x hx
      | some y =>
        simp only [Env.set, Function.update_apply]
        rw [henv x hx]
    obtain ⟨hemit, hagree⟩ := ih hss.2 henv' (eval env w s.exp).2.2
    exact ⟨congrArg (fun r => ((eval env w s.exp).2.1 ++ r.1, r.2)) hemit, hagree⟩

/-! ### What heads and bodies bind -/

section Bind

variable {args : List (Var × Ty)} {invariant : List (Var × Bool)} {vs : List m.Value}

theorem remove_map {β γ δ : Type} (g : β → γ) (xs : List β) (invariant : List (δ × Bool)) :
    remove (xs.map g) invariant = (remove xs invariant).map g := by
  induction xs generalizing invariant with
  | nil => rfl
  | cons x xs ih =>
    cases invariant with
    | nil => rfl
    | cons y invariant =>
      obtain ⟨y, i⟩ := y
      cases i with
      | true => exact ih invariant
      | false => exact congrArg (g x :: ·) (ih invariant)

section

variable (hformals : invariant.map Prod.fst = args.map Prod.fst)
  (hnodup : (args.map Prod.fst).Nodup)

include hformals hnodup

/-- A body binds the formals that are not invariant. The others have been bound to the values that
would be passed. -/
theorem bind_body (hlen : args.length ≤ vs.length)
    (hagree : ∀ x < n, x ∉ args.map Prod.fst → env' x = env x)
    (hinv : ∀ (i : ℕ) (y : Var) (v : m.Value), invariant[i]? = some (y, true) → vs[i]? = some v →
      env' y = v) : Agree n (env.bind (args.map Prod.fst) vs)
      (env'.bind ((remove args invariant).map Prod.fst) (remove vs invariant)) := by
  induction args generalizing invariant vs env env' with
  | nil =>
    rw [map_nil, map_eq_nil_iff] at hformals
    subst hformals
    exact fun x hx => hagree x hx not_mem_nil
  | cons a args ih =>
    cases invariant with
    | nil => cases hformals
    | cons y invariant =>
      cases vs with
      | nil => exact absurd hlen (not_succ_le_zero _)
      | cons v vs =>
        obtain ⟨y, i⟩ := y
        rw [map_cons, map_cons, List.cons.injEq] at hformals
        obtain ⟨rfl, hformals⟩ := hformals
        rw [map_cons, nodup_cons] at hnodup
        obtain ⟨hnot, hnodup⟩ := hnodup
        have hlen : args.length ≤ vs.length := le_of_succ_le_succ hlen
        cases i with
        | true =>
          refine ih hformals hnodup hlen ?_ ?_
          · intro x hx hmem
            by_cases heq : x = a.1
            · subst heq
              rw [Function.update_self]
              exact hinv 0 a.1 v rfl rfl
            · rw [Function.update_of_ne heq]
              exact hagree x hx (List.not_mem_cons_of_ne_of_not_mem heq hmem)
          · exact fun i y v hy hv => hinv (i + 1) y v hy hv
        | false =>
          refine ih hformals
            hnodup hlen ?_ ?_
          · intro x hx hmem
            by_cases heq : x = a.1
            · subst heq
              rw [Function.update_self, Function.update_self]
            · rw [Function.update_of_ne heq, Function.update_of_ne heq]
              exact hagree x hx (List.not_mem_cons_of_ne_of_not_mem heq hmem)
          · intro i y v' hy hv
            have hne : y ≠ a.1 := by
              rintro rfl
              refine hnot (hformals ▸ List.mem_map.2 ⟨(_, true), List.mem_of_getElem? hy, rfl⟩)
            rw [Function.update_of_ne hne]
            exact hinv (i + 1) y v' hy hv

theorem outerFormals_nodup (hlt : ∀ x ∈ args.map Prod.fst, x < varBound P) :
    ((outerFormals P args invariant).map Prod.fst).Nodup := by
  have hlen : invariant.length = args.length := by simpa using congrArg List.length hformals
  have hperm := outer_inner_perm (P := P) args invariant hlen
  have hsub : List.Subperm ((remove args invariant).map Prod.fst) (args.map Prod.fst) :=
    ((remove_sublist args invariant).map Prod.fst).subperm
  exact (nodup_append.1 (hperm.nodup_iff.2
    (nodup_append_new (.refl _) hsub hnodup hlt))).1

/-- What a head binds. -/
theorem bind_head (hlt : ∀ x ∈ args.map Prod.fst, x < varBound P) (env' : m.Env) :
    (∀ x < varBound P, x ∉ args.map Prod.fst →
      env'.bind ((outerFormals P args invariant).map Prod.fst) vs x = env' x) ∧
      ∀ (i : ℕ) (y : Var) (v : m.Value), invariant[i]? = some (y, true) → vs[i]? = some v →
        env'.bind ((outerFormals P args invariant).map Prod.fst) vs y = v := by
  constructor
  · intro x hx hmem
    refine Env.bind_of_notMem fun hmem' => ?_
    obtain ⟨a, ha, rfl⟩ := List.mem_map.1 hmem'
    obtain ⟨⟨⟨y, t⟩, z, i⟩, hzip, rfl⟩ := List.mem_map.1 ha
    cases i with
    | true => exact hmem (mem_map_of_mem (of_mem_zip hzip).1)
    | false =>
      exact absurd hx (not_lt.2 (le_add_right (varBound P) y))
  · intro i y v hy hv
    refine Env.bind_getElem (outerFormals_nodup hformals hnodup hlt) (i := i) ?_ hv
    have hi := congrArg (fun l : List Var => l[i]?) hformals
    simp only [getElem?_map, hy, map_some] at hi
    obtain ⟨⟨y', t⟩, ha, rfl⟩ := map_eq_some_iff.1 hi.symm
    have hzip : (args.zip invariant)[i]? = some ((y', t), y', true) :=
      getElem?_zip_eq_some.2 ⟨ha, hy⟩
    rw [outerFormals, getElem?_map, getElem?_map, hzip]
    rfl

end

/-- What a head passes on. -/
theorem map_innerActuals (hnodup : ((outerFormals P args invariant).map Prod.fst).Nodup)
    (hlen : args.length ≤ vs.length) (hlen' : invariant.length = args.length) (env' : m.Env) :
    (innerActuals P args invariant).map
      (env'.bind ((outerFormals P args invariant).map Prod.fst) vs) = remove vs invariant := by
  induction args generalizing invariant vs env' with
  | nil =>
    rw [length_nil, length_eq_zero_iff] at hlen'
    subst hlen'
    simp [innerActuals, remove]
  | cons a args ih =>
    cases invariant with
    | nil => cases hlen'
    | cons y invariant =>
      cases vs with
      | nil => exact absurd hlen (not_succ_le_zero _)
      | cons v vs =>
        have hlen : args.length ≤ vs.length := le_of_succ_le_succ hlen
        obtain ⟨y, i⟩ := y
        have hlength : invariant.length = args.length := succ_inj.1 hlen'
        cases i with
        | true =>
          have hnodup' := (nodup_cons.1 hnodup).2
          exact ih hnodup' hlen hlength (Function.update env' a.1 v)
        | false =>
          obtain ⟨hnot, hnodup'⟩ := nodup_cons.1 hnodup
          have htail := ih hnodup' hlen hlength (Function.update env' (newVar P a.1) v)
          have hhead : (Env.bind (Function.update env' (newVar P a.1) v)
              ((outerFormals P args invariant).map Prod.fst) vs) (newVar P a.1) = v :=
            (Env.bind_of_notMem hnot).trans (Function.update_self ..)
          exact congrArg₂ List.cons hhead htail

end Bind

/-! ### Both programs -/

/-- Entering a block of the original program, and in the new program its head or, if the invariant
formals have the values that are passed, its body. -/
inductive EntryRel (P : Program) (f : Function) : m.Entry → m.Entry → Prop
  | outer (b K vs env env') (hv : (b, K) ∈ visitsOf f) (henv : Agree (varBound P) env env')
    (hlen : b.args.length ≤ vs.length) : EntryRel P f ⟨b.label, vs, env⟩ ⟨b.label, vs, env'⟩
  | inner (b K vs env env') (hv : (b, K) ∈ visitsOf f) (henv : Agree (varBound P) env env')
    (hlen : b.args.length ≤ vs.length) (hc : (infoOf f).changed b.label = true)
    (hinv : ∀ (i : ℕ) (y : Var) (v : m.Value), ((infoOf f).invariant b.label)[i]? = some (y, true) →
      vs[i]? = some v → env y = v) :
    EntryRel P f ⟨b.label, vs, env⟩
      ⟨newLabel P b.label, remove vs ((infoOf f).invariant b.label), env'⟩

section Simulation

variable (h : P.WellTyped Γ) (hscoped : P.WellScoped) (hf : f ∈ P.functions)

/-- A case passes as many values as its label has formals. -/
theorem select_length (harity : m.RespectsArity P) {test : Var} {cases : Cases}
    {default : Option Label} (htyped : f.TransferTyped P Γ (.case test cases default))
    {vs : List m.Value} (hsel : select' env test cases default = some (l, vs)) :
    ∃ ts, f.labelTypes l = some ts ∧ ts.length ≤ vs.length := by
  obtain ⟨hcases, hdefault⟩ := htyped
  have hnone (h : default.map (fun l => (l, ([] : List m.Value))) = some (l, vs)) :
      ∃ ts, f.labelTypes l = some ts ∧ ts.length ≤ vs.length := by
    obtain ⟨l', rfl, heq⟩ := map_eq_some_iff.1 h
    cases heq
    exact ⟨[], hdefault l rfl, zero_le _⟩
  cases cases with
  | con cs =>
    obtain ⟨d, hd, -, -, hbranches, -⟩ := hcases
    simp only [select'] at hsel
    split at hsel
    · rename_i c l' hfind
      cases hsel
      obtain ⟨ts, hts, hl⟩ := hbranches _ (mem_of_find?_eq_some hfind)
      have hcon : c = (m.conArgs (env test)).1 := by simpa using find?_some hfind
      rw [hcon] at hts
      exact ⟨ts, hl, (harity (env test) d hd ts hts).ge⟩
    · exact hnone hsel
  | word s cs =>
    obtain ⟨-, -, -, hbranches⟩ := hcases
    simp only [select'] at hsel
    split at hsel
    · rename_i c l' hfind
      cases hsel
      exact ⟨[], hbranches _ (mem_of_find?_eq_some hfind), zero_le _⟩
    · exact hnone hsel

include h hf

/-- Any label of a transfer may be entered by its head. -/
theorem entryRel_of_labels (hv : (b, K) ∈ visitsOf f) (hl : l ∈ b.transfer.labels)
    (henv : Agree (varBound P) env env') {ts : List Ty} (hts : f.labelTypes l = some ts)
    {vs : List m.Value} (hlen : ts.length ≤ vs.length) : EntryRel P f ⟨l, vs, env⟩ ⟨l, vs, env'⟩ := by
  obtain ⟨c, K', hv', rfl⟩ := exists_visit h hf hv hl
  refine .outer c K' vs env env' hv' henv ?_
  rw [Function.labelTypes, find_block h hf (mem_of_visit h hf hv').1] at hts
  cases hts
  simpa using hlen

include hscoped

/-- The transfers of a block and of its body ask for the same. -/
theorem action_rel (harity : m.RespectsArity P) (hv : (b, K) ∈ visitsOf f)
    (henv : Agree (varBound P) env env') :
    Option.Rel (ActionRel (EntryRel P) P f env env') (action env b.transfer)
      (action env' (body P (infoOf f) K b).transfer) := by
  have htyped := (h.functions f hf).transfers b (mem_of_visit h hf hv).1
  have hsame : action env' b.transfer = action env b.transfer :=
    action_congr fun x hx => henv x (transfer_lt h hf hscoped hv hx)
  have hentry {l : Label} (hl : l ∈ b.transfer.labels) {ts : List Ty}
      (hts : f.labelTypes l = some ts) {vs : List m.Value} (hlen : ts.length ≤ vs.length) :=
    entryRel_of_labels h hf hv hl henv hts hlen
  rw [body]
  cases ht : b.transfer with
  | arith p args overflow success ty =>
    rw [ht] at hentry htyped hsame
    obtain ⟨hoverflow, hsuccess, -⟩ := htyped
    simp only [redirect, hsame]
    dsimp only [action]
    cases m.arith p (args.map env) with
    | none => exact .some (.jump _ _ _ _ (hentry (by simp [Transfer.labels]) hoverflow le_rfl))
    | some v => exact .some (.jump _ _ _ _ (hentry (by simp [Transfer.labels]) hsuccess le_rfl))
  | bug => exact .some .bug
  | call n args r =>
    rw [ht] at hentry htyped hsame
    obtain ⟨g, hg, -, hr⟩ := htyped
    simp only [redirect, hsame]
    refine .some (.call n g _ r hg ?_)
    cases r with
    | dead => exact hr
    | nonTail cont handler =>
      obtain ⟨-, hcont, hhandler⟩ := hr
      refine ⟨fun ts hts vs hlen => ?_, ?_, ?_⟩
      · exact hentry (by simp [Transfer.labels, Return.labels]) (hcont ts hts) hlen.ge
      · rintro l rfl ts hts vs hlen
        exact hentry (by simp [Transfer.labels, Return.labels, Handler.labels]) (hhandler.2 ts hts)
          hlen.ge
      · rintro rfl
        exact hhandler
    | tail => exact hr
  | case test cases default =>
    rw [ht] at hentry htyped hsame
    simp only [redirect, hsame]
    dsimp only [action]
    cases hsel : select' env test cases default with
    | none => exact .none
    | some lv =>
      obtain ⟨l, vs⟩ := lv
      obtain ⟨ts, hts, hlen⟩ := select_length harity htyped hsel
      exact .some (.jump _ _ _ _ (hentry (mem_labels_of_select hsel) hts hlen))
  | goto dst args =>
    rw [ht] at hentry htyped hsame
    have hl : dst ∈ b.transfer.labels := by simp [ht, Transfer.labels]
    have hargs : args.map env' = args.map env := by
      simpa [action] using hsame
    by_cases hback : (K dst && (infoOf f).changed dst) = true
    · rw [redirect, labelsAt, if_pos hback]
      dsimp only [action]
      obtain ⟨hK, hc⟩ := Bool.and_eq_true_iff.1 hback
      obtain ⟨c, K', hv', rfl⟩ := exists_visit h hf hv hl
      obtain ⟨-, hrepeats⟩ := repeats_of_visit h hf hv ht hK
      rw [← remove_map, hargs]
      refine .some (.jump _ _ _ _ (.inner c K' _ env env' hv' henv ?_ hc fun i y v hy hi => ?_))
      · rw [length_map]
        refine Eq.ge ?_
        simpa using congrArg List.length
          (goto_typed h hf (mem_of_visit h hf hv).1 (mem_of_visit h hf hv').1 ht)
      · rw [getElem?_map, hrepeats i y hy] at hi
        exact Option.some.inj hi
    · rw [redirect, labelsAt, if_neg hback]
      dsimp only [action]
      rw [hargs]
      exact .some (.jump _ _ _ _ (hentry (by simp [Transfer.labels]) htyped (by simp)))
  | raise xs =>
    rw [ht] at htyped hsame
    simp only [redirect, hsame]
    exact .some (.raise _ _ htyped (by simp))
  | ret xs =>
    rw [ht] at htyped hsame
    simp only [redirect, hsame]
    exact .some (.ret _ _ htyped (by simp))
  | runtime p args l =>
    rw [ht] at hentry htyped hsame
    obtain ⟨ts, hts, hlen⟩ := htyped
    simp only [redirect, hsame]
    exact .some (.runtime p _ l fun v => hentry (by simp [Transfer.labels]) hts hlen)

/-- A block and its body do the same. -/
theorem body_rel (harity : m.RespectsArity P) (hv : (b, K) ∈ visitsOf f)
    (henv : Agree (varBound P) env env') :
    BodyRel (EntryRel P) P f b (body P (infoOf f) K b) env env' := by
  intro w
  obtain ⟨hemit, hagree⟩ := henv.exec
    (fun s hs x hx => statement_lt h hf hscoped hv hs hx) w
  exact ⟨hemit, action_rel h hscoped hf harity hv hagree⟩

end Simulation

section Simulates

variable (h : P.WellTyped Γ) (hscoped : P.WellScoped)

include h hscoped

/-- The two programs enter the same blocks. -/
theorem transform_simulates (m : Machine) (harity : m.RespectsArity P) :
    Simulates (fun f (e e' : m.Entry) => EntryRel P f e e') P (transform P) where
  globals := rfl
  main := rfl
  start := by
    obtain ⟨f, hf, -⟩ := h.main
    rw [hf]
    exact some_ne_none f
  enter n f hn := by
    obtain ⟨hf, -⟩ := (Program.func?_eq_some h).1 hn
    refine ⟨hf, function P f, Program.func?_revMap (g := function P) h (fun _ => rfl) hn,
      fun globals vs => ?_⟩
    obtain ⟨b, hb, hl, hargs⟩ := h.exists_start hf
    obtain ⟨K, hv⟩ := visit_of_reaches h hf hb (hl ▸ .refl)
    have hentry := EntryRel.outer (P := P) b K [] (globals.bind (f.args.map Prod.fst) vs) _ hv
      (fun _ _ => rfl) (by simp [hargs])
    rw [hl] at hentry
    exact hentry
  block f hf e e' he := by
    have hlookup {b : Block} (hb : b ∈ f.blocks) : P.block? b.label = some b :=
      (Program.block?_eq_some h).2 ⟨Program.mem_blocks.2 ⟨f, hf, hb⟩, rfl⟩
    have hlookup' {c : Block} (hc : c ∈ (function P f).blocks) :
        (transform P).block? c.label = some c :=
      Program.block?_revMap (g := function P) (labels_nodup h) hf hc
    have hformals {b : Block} (hb : b ∈ f.blocks) : (b.args.map Prod.fst).Nodup :=
      Program.formals_nodup h (Program.formals_mem_formalLists hf hb)
    cases he with
    | outer b K vs env env' hv henv hlen =>
      obtain ⟨hb, -⟩ := mem_of_visit h hf hv
      by_cases hc : (infoOf f).changed b.label = true
      · -- the head is passed through
        have hinv := invariant_formals h hf hb
        obtain ⟨hout, hin⟩ := bind_head (P := P) hinv (hformals hb)
          (fun x hx => bound_lt hf hb (.inl hx)) env'
        have hactuals := map_innerActuals (P := P) (outerFormals_nodup hinv (hformals hb)
          fun x hx => bound_lt hf hb (.inl hx)) hlen (length_invariant h hf hb) env'
        have hbody : (body P (infoOf f) K b).label = newLabel P b.label := if_pos hc
        have hargs : (body P (infoOf f) K b).args = remove b.args ((infoOf f).invariant b.label) :=
          if_pos hc
        have hmem := body_mem (P := P) hv
        refine ⟨b, body P (infoOf f) K b, ⟨newLabel P b.label, _, _⟩, hlookup hb,
          .single ⟨head P (infoOf f) b, _, _, hlookup' (head_mem hv hc), rfl, rfl, rfl⟩, ?_,
          body_rel h hscoped hf harity hv ?_⟩
        · rw [← hbody]
          exact hlookup' hmem
        · show Agree _ _ (Env.bind _ ((body P (infoOf f) K b).args.map Prod.fst) _)
          rw [hargs]
          dsimp only [Entry.enter, head]
          rw [hactuals]
          exact bind_body hinv (hformals hb) hlen
            (fun x hx hmem => (hout x hx hmem).trans (henv x hx)) hin
      · have hbody : (body P (infoOf f) K b).label = b.label := if_neg hc
        have hargs : (body P (infoOf f) K b).args = b.args := if_neg hc
        refine ⟨b, body P (infoOf f) K b, _, hlookup hb, .refl, ?_, body_rel h hscoped hf harity hv ?_⟩
        · have hfind := hlookup' (body_mem (P := P) hv)
          rw [hbody] at hfind
          exact hfind
        · rw [Entry.enter, Entry.enter, hargs]
          exact fun x hx => Env.bind_congr (henv x hx)
    | inner b K vs env env' hv henv hlen hc hinv =>
      obtain ⟨hb, -⟩ := mem_of_visit h hf hv
      have hbody : (body P (infoOf f) K b).label = newLabel P b.label := if_pos hc
      have hargs : (body P (infoOf f) K b).args = remove b.args ((infoOf f).invariant b.label) :=
        if_pos hc
      refine ⟨b, body P (infoOf f) K b, _, hlookup hb, .refl, ?_, body_rel h hscoped hf harity hv ?_⟩
      · have hfind := hlookup' (body_mem (P := P) hv)
        rw [hbody] at hfind
        exact hfind
      · rw [Entry.enter, Entry.enter, hargs]
        refine bind_body (invariant_formals h hf hb) (hformals hb) hlen
          (fun x hx _ => henv x hx) fun i y v hy hi => ?_
        have hy' : y ∈ b.formals := by
          rw [← invariant_formals h hf hb]
          exact List.mem_map.2 ⟨_, List.mem_of_getElem? hy, rfl⟩
        exact (henv y (bound_lt hf hb (.inl hy'))).trans (hinv i y v hy hi)

end Simulates

end MultiMLton.Ssa.LoopInvariant
