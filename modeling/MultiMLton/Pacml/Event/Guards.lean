import Mathlib.Tactic
import MultiMLton.Pacml.Event.Combinators

/-!
# Events whose guards have effects

The combinators of `core-cml/event.sml` over any type of base events, with guards that read and
change a world and leave a record of their runs.

* `SEvt`, `wrap'`, `gather`, `gatherBEvts`, `choose`, `forceBL`, `force` and `sync`;
* `Same`: two lists of events offer the same base events and have the same effects, and
  `choose_same`: `choose` only rearranges the events that it is given;
* `guards`: the guards of an event in the order of the tree, and `force_ran`: these are the runs
  of guards that `force` makes;
* `ofPure`: the events whose guards have no effects, as `Combinators` has them;
* `Base`, `wrap`, and `combinators_offer`: what `choose` and `wrap` do to the base events and to
  the guards.
-/

namespace MultiMLton.Event.Guarded

open List

/-- The world that guards change, and the guards that have been run, the earliest first. -/
@[ext]
structure World (σ ι : Type) where
  user : σ
  ran : List ι

/-- `sevt`.  The guard `n` run in the world `s` returns the event `g s` and leaves the world
`next s`. -/
inductive SEvt (σ ι β : Type)
  | bevt (bevts : List β)
  | choose (evts : List (SEvt σ ι β))
  | guard (n : ι) (g : σ → SEvt σ ι β) (next : σ → σ)

variable {σ ι β γ : Type}

/-! ### Combinators -/

mutual

/-- `wrap'` of `wrap`, with `wrapBaseEvt` given.  `wrap (g (), wfn)` is run where `g` is. -/
def wrap' (wrapBaseEvt : β → γ) : SEvt σ ι β → SEvt σ ι γ
  | .bevt bevts => .bevt (bevts.map wrapBaseEvt)
  | .choose evts => .choose (wrapList wrapBaseEvt evts)
  | .guard n g next => .guard n (fun s => wrap' wrapBaseEvt (g s)) next

/-- `List.map wrap'`. -/
def wrapList (wrapBaseEvt : β → γ) : List (SEvt σ ι β) → List (SEvt σ ι γ)
  | [] => []
  | evt :: evts => wrap' wrapBaseEvt evt :: wrapList wrapBaseEvt evts

end

/-- `gather` of `choose`. -/
def gather : List (SEvt σ ι β) → List (SEvt σ ι β) → SEvt σ ι β
  | [], [evt'] => evt'
  | [], evts' => .choose evts'
  | .choose cevts :: evts, evts' => gather evts (cevts ++ evts')
  | .bevt [] :: evts, evts' => gather evts evts'
  | .bevt bevts :: evts, .bevt bevts' :: evts' => gather evts (.bevt (bevts ++ bevts') :: evts')
  | evt :: evts, evts' => gather evts (evt :: evts')

/-- `gatherBEvts` of `choose`. -/
def gatherBEvts : List (SEvt σ ι β) → List β → SEvt σ ι β
  | [], bevts' => .bevt bevts'
  | .bevt bevts :: evts, bevts' => gatherBEvts evts (bevts ++ bevts')
  | evts, [] => gather evts []
  | evts, bevts' => gather evts [.bevt bevts']

/-- `choose`. -/
def choose (evts : List (SEvt σ ι β)) : SEvt σ ι β := gatherBEvts evts.reverse []

mutual

/-- `forceBL`. -/
def forceBL : List (SEvt σ ι β) → List β → World σ ι → List β × World σ ι
  | [], bevts, w => (bevts, w)
  | evt :: evts, bevts, w => forceBL evts ((force evt w).1 ++ bevts) (force evt w).2

/-- `force`. -/
def force : SEvt σ ι β → World σ ι → List β × World σ ι
  | .bevt bevts, w => (bevts, w)
  | .choose evts, w => forceBL evts [] w
  | .guard n g next, w => force (g w.user) ⟨next w.user, w.ran ++ [n]⟩

end

/-- Forcing each of the events, from the left. -/
def forceEach : List (SEvt σ ι β) → World σ ι → List β × World σ ι
  | [], w => ([], w)
  | evt :: evts, w =>
    ((force evt w).1 ++ (forceEach evts (force evt w).2).1, (forceEach evts (force evt w).2).2)

/-- `cevt`. -/
inductive CEvt (σ ι β : Type)
  | SEVT (evt : SEvt σ ι β)
  | AEVT (syncHalf asyncHalf : SEvt σ ι β)

/-- `forceHelper`, where `syncOnBEvts` works on the world of the guards. -/
def forceHelper {α : Type} (syncOnBEvts : List β → σ → α × σ) (evt : SEvt σ ι β)
    (w : World σ ι) : α × World σ ι :=
  let (bevts, w) := force evt w
  let (x, s) := syncOnBEvts bevts w.user
  (x, { w with user := s })

/-- `sync`, with `syncOnBEvts` at `SYNC` and at `ASYNC`. -/
def sync {α : Type} (onSync onAsync : List β → σ → α × σ) (evt : CEvt σ ι β)
    (w : World σ ι) : α × World σ ι :=
  match evt with
  | .SEVT evt => forceHelper onSync evt w
  | .AEVT syncHalf asyncHalf => forceHelper onSync syncHalf (forceHelper onAsync asyncHalf w).2

/-! ### What `choose` offers -/

theorem forceEach_append (evts evts' : List (SEvt σ ι β)) (w : World σ ι) :
    forceEach (evts ++ evts') w =
      ((forceEach evts w).1 ++ (forceEach evts' (forceEach evts w).2).1,
        (forceEach evts' (forceEach evts w).2).2) := by
  induction evts generalizing w with
  | nil => simp [forceEach]
  | cons evt evts ih => simp [forceEach, ih]

/-- The two lists of events offer the same base events, in whatever order, and their guards have
the same effects, in the same order. -/
def Same (evts evts' : List (SEvt σ ι β)) : Prop :=
  ∀ w, (forceEach evts w).1.Perm (forceEach evts' w).1 ∧
    (forceEach evts w).2 = (forceEach evts' w).2

theorem Same.refl (evts : List (SEvt σ ι β)) : Same evts evts := fun _ => ⟨.refl _, rfl⟩

theorem Same.symm {evts evts' : List (SEvt σ ι β)} (h : Same evts evts') : Same evts' evts :=
  fun w => ⟨(h w).1.symm, (h w).2.symm⟩

theorem Same.trans {evts evts' evts'' : List (SEvt σ ι β)} (h : Same evts evts')
    (h' : Same evts' evts'') : Same evts evts'' :=
  fun w => ⟨(h w).1.trans (h' w).1, (h w).2.trans (h' w).2⟩

theorem Same.append {xs xs' ys ys' : List (SEvt σ ι β)} (hx : Same xs xs') (hy : Same ys ys') :
    Same (xs ++ ys) (xs' ++ ys') := by
  intro w
  rw [forceEach_append, forceEach_append, (hx w).2]
  exact ⟨(hx w).1.append (hy _).1, (hy _).2⟩

theorem forceBL_spec (evts : List (SEvt σ ι β)) (bevts : List β) (w : World σ ι) :
    (forceBL evts bevts w).1.Perm ((forceEach evts w).1 ++ bevts) ∧
      (forceBL evts bevts w).2 = (forceEach evts w).2 := by
  induction evts generalizing bevts w with
  | nil => exact ⟨.refl _, rfl⟩
  | cons evt evts ih =>
    rw [forceBL, forceEach]
    obtain ⟨hperm, hworld⟩ := ih ((force evt w).1 ++ bevts) (force evt w).2
    refine ⟨hperm.trans ?_, hworld⟩
    rw [← append_assoc]
    exact perm_append_comm.append_right bevts

/-- A `CHOOSE` node can be replaced by its alternatives. -/
theorem choose_node_same (evts : List (SEvt σ ι β)) : Same [.choose evts] evts := by
  intro w
  simpa [forceEach, force] using forceBL_spec evts [] w

/-- An empty `BEVT` node can be left out. -/
theorem bevt_nil_same : Same ([.bevt []] : List (SEvt σ ι β)) [] := by
  intro w
  simp [forceEach, force]

/-- Adjacent `BEVT` nodes can be joined. -/
theorem bevt_append_same (bevts bevts' : List β) :
    Same ([.bevt (bevts ++ bevts')] : List (SEvt σ ι β)) [.bevt bevts, .bevt bevts'] := by
  intro w
  simp [forceEach, force]

/-- Replacing the last event of the reversed list and the first one of the list gathered so far
replaces a part of the whole. -/
theorem Same.middle {mid mid' : List (SEvt σ ι β)} (h : Same mid mid')
    (evts evts' : List (SEvt σ ι β)) :
    Same (evts.reverse ++ (mid ++ evts')) (evts.reverse ++ (mid' ++ evts')) :=
  (Same.refl _).append (h.append (.refl _))

theorem gather_same (evts evts' : List (SEvt σ ι β)) :
    Same [gather evts evts'] (evts.reverse ++ evts') := by
  fun_induction gather evts evts' with
  | case1 evt' => exact .refl _
  | case2 evts' _ => exact choose_node_same evts'
  | case3 cevts evts evts' ih =>
    have hmid := (choose_node_same cevts).symm.middle evts evts'
    simpa using ih.trans hmid
  | case4 evts evts' ih =>
    have hmid := (bevt_nil_same (σ := σ) (ι := ι) (β := β)).symm.middle evts evts'
    simpa using ih.trans hmid
  | case5 bevts evts bevts' evts' _ ih =>
    have hmid := (bevt_append_same (σ := σ) (ι := ι) bevts bevts').middle evts evts'
    simpa using ih.trans hmid
  | case6 evt evts evts' _ _ _ ih => simpa using ih

theorem gatherBEvts_same (evts : List (SEvt σ ι β)) (bevts : List β) :
    Same [gatherBEvts evts bevts] (evts.reverse ++ [.bevt bevts]) := by
  fun_induction gatherBEvts evts bevts with
  | case1 bevts' => exact .refl _
  | case2 bevts evts bevts' ih =>
    have hmid := (bevt_append_same (σ := σ) (ι := ι) bevts bevts').middle evts []
    simpa using ih.trans hmid
  | case3 evts _ _ =>
    have hmid := (bevt_nil_same (σ := σ) (ι := ι) (β := β)).symm.middle evts []
    simpa using (gather_same evts []).trans hmid
  | case4 evts bevts' _ _ _ => exact gather_same evts [.bevt bevts']

/-- `choose` offers what its alternatives offer, and runs their guards. -/
theorem choose_same (evts : List (SEvt σ ι β)) : Same [choose evts] evts := by
  rw [choose]
  have hmid := (bevt_nil_same (σ := σ) (ι := ι) (β := β)).middle evts.reverse []
  simpa using (gatherBEvts_same evts.reverse []).trans hmid

/-! ### The runs of guards -/

mutual

/-- The guards of an event, those of the events that its guards return included, and the world
that they leave. -/
def guards : SEvt σ ι β → σ → List ι × σ
  | .bevt _, s => ([], s)
  | .choose evts, s => guardsList evts s
  | .guard n g next, s => (n :: (guards (g s) (next s)).1, (guards (g s) (next s)).2)

/-- The guards of each of the events. -/
def guardsList : List (SEvt σ ι β) → σ → List ι × σ
  | [], s => ([], s)
  | evt :: evts, s =>
    ((guards evt s).1 ++ (guardsList evts (guards evt s).2).1,
      (guardsList evts (guards evt s).2).2)

end

mutual

/-- `force` runs every guard of the event once. -/
theorem force_ran : ∀ (evt : SEvt σ ι β) (w : World σ ι),
    (force evt w).2 = ⟨(guards evt w.user).2, w.ran ++ (guards evt w.user).1⟩
  | .bevt _, w => by simp [force, guards]
  | .choose evts, w => by
    rw [force, guards]
    exact forceBL_ran evts [] w
  | .guard n g next, w => by
    rw [force, guards, force_ran (g w.user)]
    simp

theorem forceBL_ran : ∀ (evts : List (SEvt σ ι β)) (bevts : List β) (w : World σ ι),
    (forceBL evts bevts w).2 = ⟨(guardsList evts w.user).2, w.ran ++ (guardsList evts w.user).1⟩
  | [], _, w => by simp [forceBL, guardsList]
  | evt :: evts, bevts, w => by
    rw [forceBL, guardsList, forceBL_ran evts, force_ran evt]
    simp

end

/-- A synchronisation runs guards only while it forces the event. -/
theorem forceHelper_ran {α : Type} (syncOnBEvts : List β → σ → α × σ) (evt : SEvt σ ι β)
    (w : World σ ι) :
    (forceHelper syncOnBEvts evt w).2.ran = w.ran ++ (guards evt w.user).1 := by
  simp [forceHelper, force_ran]

/-! ### Guards without effects -/

section Pure

variable {B V ε : Type}

mutual

/-- An event whose guards have no effects. -/
def ofPure : Event.SEvt B V ε → SEvt Unit Unit (Event.Base B V ε)
  | .bevt bevts => .bevt bevts
  | .choose evts => .choose (ofPureList evts)
  | .guard g => .guard () (fun _ => ofPure (g ())) id

def ofPureList : List (Event.SEvt B V ε) → List (SEvt Unit Unit (Event.Base B V ε))
  | [] => []
  | evt :: evts => ofPure evt :: ofPureList evts

end

@[simp] theorem ofPureList_eq_map (evts : List (Event.SEvt B V ε)) :
    ofPureList evts = evts.map ofPure := by
  induction evts with
  | nil => rfl
  | cons evt evts ih => rw [ofPureList, ih, map_cons]

mutual

theorem force_ofPure : ∀ (evt : Event.SEvt B V ε) (w : World Unit Unit),
    (force (ofPure evt) w).1 = Event.force evt
  | .bevt _, _ => rfl
  | .choose evts, w => forceBL_ofPureList evts [] w
  | .guard g, _ => force_ofPure (g ()) _

theorem forceBL_ofPureList : ∀ (evts : List (Event.SEvt B V ε))
    (bevts : List (Event.Base B V ε)) (w : World Unit Unit),
    (forceBL (ofPureList evts) bevts w).1 = Event.forceBL evts bevts
  | [], _, _ => rfl
  | evt :: evts, bevts, w => by
    rw [ofPureList, forceBL, Event.forceBL, force_ofPure evt, forceBL_ofPureList evts]

end

theorem ofPure_gather (evts evts' : List (Event.SEvt B V ε)) :
    ofPure (Event.gather evts evts') = gather (evts.map ofPure) (evts'.map ofPure) := by
  fun_induction Event.gather evts evts' with
  | case1 evt' => rfl
  | case2 evts' h =>
    cases evts' with
    | nil => rfl
    | cons evt' evts' =>
      cases evts' with
      | nil => exact absurd rfl (h evt')
      | cons evt'' evts' => simp [gather, ofPure]
  | case3 cevts evts evts' ih | case4 evts evts' ih => simpa [gather, ofPure] using ih
  | case5 bevts evts bevts' evts' h ih =>
    cases bevts with
    | nil => exact absurd rfl h
    | cons pollFn bevts => simpa [gather, ofPure] using ih
  | case6 evt evts evts' hchoose hnil hbevt ih =>
    rw [ih, map_cons, map_cons]
    cases evt with
    | choose cevts => exact absurd rfl (hchoose cevts)
    | guard g => rfl
    | bevt bevts =>
      cases bevts with
      | nil => exact absurd rfl hnil
      | cons pollFn bevts =>
        cases evts' with
        | nil => rfl
        | cons evt' evts' =>
          cases evt' with
          | bevt bevts' => exact absurd rfl (hbevt _ _ _ rfl)
          | choose cevts => rfl
          | guard g => rfl

theorem ofPure_gatherBEvts (evts : List (Event.SEvt B V ε)) (bevts : List (Event.Base B V ε)) :
    ofPure (Event.gatherBEvts evts bevts) = gatherBEvts (evts.map ofPure) bevts := by
  fun_induction Event.gatherBEvts evts bevts with
  | case1 bevts' => rfl
  | case2 bevts evts bevts' ih => simpa [gatherBEvts, ofPure] using ih
  | case3 evts hnil hbevt =>
    rw [ofPure_gather]
    match evts, hnil, hbevt with
    | .bevt bevts :: evts, _, hbevt => exact absurd rfl (hbevt bevts evts)
    | .choose cevts :: evts, _, _ => rfl
    | .guard g :: evts, _, _ => rfl
  | case4 evts bevts' hnil hbevt hne =>
    rw [ofPure_gather]
    match evts, bevts', hnil, hbevt, hne with
    | .bevt bevts :: evts, _, _, hbevt, _ => exact absurd rfl (hbevt bevts evts)
    | .choose cevts :: evts, _ :: _, _, _, _ => rfl
    | .guard g :: evts, _ :: _, _, _, _ => rfl

theorem ofPure_choose (evts : List (Event.SEvt B V ε)) :
    ofPure (Event.choose evts) = choose (evts.map ofPure) := by
  rw [Event.choose, choose, ofPure_gatherBEvts, map_reverse]

theorem forceEach_ofPure (evts : List (Event.SEvt B V ε)) (w : World Unit Unit) :
    (forceEach (evts.map ofPure) w).1 = evts.flatMap Event.force := by
  induction evts generalizing w with
  | nil => rfl
  | cons evt evts ih =>
    rw [map_cons, forceEach, flatMap_cons, force_ofPure, ih]

end Pure

/-! ### Base events -/

/-- A computation in the world `σ`. -/
abbrev Comp (σ ε α : Type) := σ → Res ε α × σ

def Comp.bind {σ ε α α' : Type} (f : Comp σ ε α) (g : α → Comp σ ε α') : Comp σ ε α' := fun s =>
  match f s with
  | (.val a, s) => g a s
  | (.raise x, s) => (.raise x, s)
  | (.asleep, s) => (.asleep, s)

theorem Comp.bind_assoc {σ ε α α' α'' : Type} (f : Comp σ ε α) (g : α → Comp σ ε α')
    (h : α' → Comp σ ε α'') : (f.bind g).bind h = f.bind fun a => (g a).bind h := by
  funext s
  unfold Comp.bind
  generalize f s = out
  obtain ⟨r, s'⟩ := out
  cases r <;> rfl

/-- `status`; a `blockFn` is applied to a transaction id of type `τ`. -/
inductive Status (σ ε τ V : Type)
  | ENABLED (prio : ℤ) (doitFn : Unit → Comp σ ε V)
  | BLOCKED (blockFn : τ → Comp σ ε V)

/-- `base`. -/
abbrev Base (σ ε τ V : Type) := Comp σ ε (Status σ ε τ V)

variable {ε τ V W X : Type}

/-- `wrapF` of `wrap`. -/
def wrapF {χ : Type} (wfn : V → Comp σ ε W) (f : χ → Comp σ ε V) (x : χ) : Comp σ ε W :=
  (f x).bind wfn

/-- `wrapBaseEvt` of `wrap`. -/
def wrapBaseEvt (wfn : V → Comp σ ε W) (pollFn : Base σ ε τ V) : Base σ ε τ W :=
  Comp.bind pollFn fun
    | .ENABLED prio doitFn => fun s => (.val (.ENABLED prio (wrapF wfn doitFn)), s)
    | .BLOCKED blockFn => fun s => (.val (.BLOCKED (wrapF wfn blockFn)), s)

/-- `wrap`. -/
def wrap (evt : SEvt σ ι (Base σ ε τ V)) (wfn : V → Comp σ ε W) : SEvt σ ι (Base σ ε τ W) :=
  wrap' (wrapBaseEvt wfn) evt

/-- The base event `q` is `p` with `f` run after its `doitFn` and after its `blockFn`. -/
inductive AndThen (f : V → Comp σ ε W) (p : Base σ ε τ V) (q : Base σ ε τ W) (s : σ) : Prop
  | enabled (s' : σ) (prio : ℤ) (doitFn : Unit → Comp σ ε V)
      (hp : p s = (.val (.ENABLED prio doitFn), s'))
      (hq : q s = (.val (.ENABLED prio fun x => (doitFn x).bind f), s'))
  | blocked (s' : σ) (blockFn : τ → Comp σ ε V)
      (hp : p s = (.val (.BLOCKED blockFn), s'))
      (hq : q s = (.val (.BLOCKED fun x => (blockFn x).bind f), s'))
  | raised (s' : σ) (x : Exn ε) (hp : p s = (.raise x, s')) (hq : q s = (.raise x, s'))
  | asleep (s' : σ) (hp : p s = (.asleep, s')) (hq : q s = (.asleep, s'))

theorem wrapBaseEvt_andThen (f : V → Comp σ ε W) (p : Base σ ε τ V) (s : σ) :
    AndThen f p (wrapBaseEvt f p) s := by
  rcases hp : p s with ⟨r, s'⟩
  cases r with
  | val st =>
    cases st with
    | ENABLED prio doitFn =>
      apply AndThen.enabled s' prio doitFn hp
      simp only [wrapBaseEvt, Comp.bind, hp]
      rfl
    | BLOCKED blockFn =>
      apply AndThen.blocked s' blockFn hp
      simp only [wrapBaseEvt, Comp.bind, hp]
      rfl
  | raise x => exact .raised s' x hp (by simp only [wrapBaseEvt, Comp.bind, hp])
  | asleep => exact .asleep s' hp (by simp only [wrapBaseEvt, Comp.bind, hp])

theorem wrapBaseEvt_comp (f : V → Comp σ ε W) (g : W → Comp σ ε X) (p : Base σ ε τ V) :
    wrapBaseEvt g (wrapBaseEvt f p) = wrapBaseEvt (fun v => (f v).bind g) p := by
  unfold wrapBaseEvt
  rw [Comp.bind_assoc]
  congr 1
  funext st
  cases st with
  | ENABLED prio doitFn =>
    have hdoit : wrapF g (wrapF f doitFn) = wrapF (fun v => (f v).bind g) doitFn := by
      funext x
      exact Comp.bind_assoc (doitFn x) f g
    funext s
    simp only [Comp.bind, hdoit]
  | BLOCKED blockFn =>
    have hblock : wrapF g (wrapF f blockFn) = wrapF (fun v => (f v).bind g) blockFn := by
      funext x
      exact Comp.bind_assoc (blockFn x) f g
    funext s
    simp only [Comp.bind, hblock]

/-! ### What `wrap` offers -/

mutual

theorem force_wrap' (F : β → γ) : ∀ (evt : SEvt σ ι β) (w : World σ ι),
    force (wrap' F evt) w = ((force evt w).1.map F, (force evt w).2)
  | .bevt _, _ => rfl
  | .choose evts, w => forceBL_wrapList F evts [] w
  | .guard _ g _, w => force_wrap' F (g w.user) _

theorem forceBL_wrapList (F : β → γ) : ∀ (evts : List (SEvt σ ι β)) (bevts : List β)
    (w : World σ ι), forceBL (wrapList F evts) (bevts.map F) w =
      ((forceBL evts bevts w).1.map F, (forceBL evts bevts w).2)
  | [], _, _ => rfl
  | evt :: evts, bevts, w => by
    rw [wrapList, forceBL, forceBL, force_wrap' F evt, ← map_append,
      forceBL_wrapList F evts]

end

mutual

theorem wrap'_wrap' {δ : Type} {F : β → γ} {G : γ → δ} {H : β → δ} (h : ∀ b, G (F b) = H b) :
    ∀ evt : SEvt σ ι β, wrap' G (wrap' F evt) = wrap' H evt
  | .bevt bevts => by
    simp only [wrap', map_map, SEvt.bevt.injEq]
    exact map_congr_left fun b _ => h b
  | .choose evts => by
    rw [wrap', wrap', wrap', wrapList_wrapList h evts]
  | .guard n g next => by
    rw [wrap', wrap', wrap']
    congr 1
    funext s
    exact wrap'_wrap' h (g s)

theorem wrapList_wrapList {δ : Type} {F : β → γ} {G : γ → δ} {H : β → δ}
    (h : ∀ b, G (F b) = H b) :
    ∀ evts : List (SEvt σ ι β), wrapList G (wrapList F evts) = wrapList H evts
  | [] => rfl
  | evt :: evts => by
    rw [wrapList, wrapList, wrapList, wrap'_wrap' h evt, wrapList_wrapList h evts]

end

/-- The combinators preserve the base events that are offered.  `choose` offers those of its
alternatives, and a synchronisation runs each guard once; `wrap` runs its function after each
`doitFn` and `blockFn` and leaves the priorities and the guards alone; and two functions of `wrap`
compose. -/
theorem combinators_offer :
    (∀ (evts : List (SEvt σ ι β)) (w : World σ ι),
      (force (choose evts) w).1.Perm (forceEach evts w).1 ∧
        (force (choose evts) w).2 = (forceEach evts w).2 ∧
        (force (choose evts) w).2.ran = w.ran ++ (guardsList evts w.user).1) ∧
    (∀ {α : Type} (onSync onAsync : List β → σ → α × σ) (w : World σ ι),
      (∀ evt, (sync onSync onAsync (.SEVT evt) w).2.ran = w.ran ++ (guards evt w.user).1) ∧
        ∀ evt evt', (sync onSync onAsync (.AEVT evt evt') w).2.ran =
          w.ran ++ (guards evt' w.user).1 ++
            (guards evt (forceHelper onAsync evt' w).2.user).1) ∧
    (∀ (evt : SEvt σ ι (Base σ ε τ V)) (f : V → Comp σ ε W) (w : World σ ι),
      List.Forall₂ (fun p q => ∀ s, AndThen f p q s) (force evt w).1 (force (wrap evt f) w).1 ∧
        (force (wrap evt f) w).2 = (force evt w).2) ∧
    ∀ (evt : SEvt σ ι (Base σ ε τ V)) (f : V → Comp σ ε W) (g : W → Comp σ ε X),
      wrap (wrap evt f) g = wrap evt fun v => (f v).bind g := by
  refine ⟨?_, ?_, ?_, ?_⟩
  · intro evts w
    obtain ⟨hperm, hworld⟩ := choose_same evts w
    have hran := forceBL_ran evts [] w
    simp only [forceEach, List.append_nil] at hperm hworld
    refine ⟨hperm, hworld, ?_⟩
    rw [hworld, ← (forceBL_spec evts [] w).2, hran]
  · intro α onSync onAsync w
    constructor
    · intro evt
      exact forceHelper_ran onSync evt w
    · intro evt evt'
      rw [sync, forceHelper_ran, forceHelper_ran]
  · intro evt f w
    rw [wrap, force_wrap']
    refine ⟨?_, rfl⟩
    rw [List.forall₂_map_right_iff, List.forall₂_same]
    intro p _ s
    exact wrapBaseEvt_andThen f p s
  · intro evt f g
    exact wrap'_wrap' (wrapBaseEvt_comp f g) evt

end MultiMLton.Event.Guarded
