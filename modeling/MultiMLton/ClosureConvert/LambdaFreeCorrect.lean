import MultiMLton.ClosureConvert.LambdaFree

/-!
# The free variables are exact

In a well-formed program a variable that occurs free in a part is not bound in it (`Apart`), so that
a part finds exactly the variables that occur free in it (`Spec`), by mutual induction over the
syntax. Every lambda has its free variables then; those of a group of functions share the ones of
the group (`lambdaFree_exact`).
-/

namespace MultiMLton.Sxml

open List Function


/-- The property lists of the lambdas of a place that are given recs. -/
def Site.recPlists : Site → List ℕ
  | .val _ => []
  | .group ds => ds.plists

theorem Site.recPlists_subset (site : Site) : site.recPlists ⊆ site.plists := by
  cases site with
  | val l => exact nil_subset _
  | group ds => exact List.Subset.refl _

namespace LambdaFree

variable {o : Var}

/-- The lambdas of a place have the variables that they should. -/
def Correct (o : Var) (s : State) : Site → Prop
  | .val l => Exactly (s.lambdaFrees l.plist) (l.free o)
  | .group ds => ∀ d ∈ ds.toList,
      Exactly (s.lambdaFrees d.2.plist) (ds.free o \ ds.vars.toFinset) ∧
      Exactly (s.lambdaRecs d.2.plist) (d.2.free o ∩ ds.vars.toFinset)

theorem Correct.congr {s s' : State} {site : Site} (h : Correct o s site)
    (hsame : ∀ p ∈ site.plists, s'.lambdaFrees p = s.lambdaFrees p ∧
      s'.lambdaRecs p = s.lambdaRecs p) : Correct o s' site := by
  cases site with
  | val l =>
    change Exactly (s'.lambdaFrees l.plist) _
    rw [(hsame l.plist mem_cons_self).1]
    exact h
  | group ds =>
    intro d hd
    obtain ⟨hfrees, hrecs⟩ := hsame d.2.plist (mem_map_of_mem hd)
    rw [hfrees, hrecs]
    exact h d hd

/-- What a part does, with its places of lambdas. -/
structure Spec (o : Var) (F : Finset Var) (X B : List Var) (S : List Site) (s s' : State) :
    Prop where
  runs : Runs F X B (S.flatMap Site.plists) (S.flatMap Site.recPlists) s s'
  correct : ∀ site ∈ S, Correct o s' site

/-- No variable occurs free and is bound, and all that is bound differs. -/
structure Apart (F : Finset Var) (B : List Var) (S : List Site) : Prop where
  nodup : B.Nodup
  disjoint : ∀ x ∈ F, x ∉ B
  plists : (S.flatMap Site.plists).Nodup

variable {F F' : Finset Var} {X X' X'' B B' : List Var} {S S' : List Site} {s s' s'' : State}

/-- Of two parts one after the other, where the first binds `X` for the second. -/
theorem Apart.split (h : Apart (F ∪ ( F' \ X.toFinset)) (B ++ B') (S ++ S')) (hX : X ⊆ B) :
    Apart F B S ∧ Apart F' B' S' ∧ ∀ x ∈ F', x ∈ B → x ∈ X := by
  obtain ⟨hB, hB', hne⟩ := nodup_append.1 h.nodup
  have hplists := h.plists
  rw [flatMap_append] at hplists
  obtain ⟨hS, hS', -⟩ := nodup_append.1 hplists
  have hF' : ∀ x ∈ F', x ∉ X → x ∉ B ++ B' := fun x hx hxX =>
    h.disjoint x (by simp [hx, hxX])
  refine ⟨⟨hB, fun x hx hxB => ?_, hS⟩, ⟨hB', fun x hx hxB' => ?_, hS'⟩, fun x hx hxB => ?_⟩
  · exact h.disjoint x (Finset.mem_union_left _ hx) (mem_append_left _ hxB)
  · by_cases hxX : x ∈ X
    · exact hne x (hX hxX) x hxB' rfl
    · exact hF' x hx hxX (mem_append_right _ hxB')
  · by_contra hxX
    exact hF' x hx hxX (mem_append_left _ hxB)

/-- Where the first binds nothing for the second. -/
theorem Apart.split_nil (h : Apart (F ∪ F') (B ++ B') (S ++ S')) : Apart F B S ∧ Apart F' B' S' := by
  have hsdiff : F' \ ([] : List Var).toFinset = F' := by simp
  rw [← hsdiff] at h
  obtain ⟨h1, h2, -⟩ := h.split (nil_subset _)
  exact ⟨h1, h2⟩

namespace Spec

theorem of_runs (h : Runs F X B [] [] s s') : Spec o F X B [] s s' := ⟨h, nofun⟩

theorem forget (h : Spec o F X B S s s') : Spec o F [] B S s s' := ⟨h.runs.forget, h.correct⟩

theorem trans (h : Spec o F X B S s s') (h' : Spec o F' X' B' S' s' s'') (hX : X ⊆ B)
    (hF : ∀ x ∈ F', x ∈ B → x ∈ X) (hS : ((S ++ S').flatMap Site.plists).Nodup) :
    Spec o (F ∪ ( F' \ X.toFinset)) (X ++ X') (B ++ B') (S ++ S') s s'' := by
  have hruns := h.runs.trans h'.runs hX hF
  rw [← flatMap_append, ← flatMap_append] at hruns
  rw [flatMap_append] at hS
  refine ⟨hruns, fun site hsite => ?_⟩
  rcases mem_append.1 hsite with hmem | hmem
  · refine (h.correct site hmem).congr fun p hp => ?_
    have hp' : p ∉ S'.flatMap Site.plists := fun hp' =>
      (nodup_append.1 hS).2.2 p (mem_flatMap.2 ⟨site, hmem, hp⟩) p hp' rfl
    refine ⟨h'.runs.frees_other p hp', h'.runs.recs_other p fun hp'' => hp' ?_⟩
    obtain ⟨site', hmem', hp'''⟩ := mem_flatMap.1 hp''
    exact mem_flatMap.2 ⟨site', hmem', site'.recPlists_subset hp'''⟩
  · exact h'.correct site hmem

/-- Two parts one after the other, of which each does what it should where it is apart. -/
theorem seq (hA : Apart (F ∪ ( F' \ X.toFinset)) (B ++ B') (S ++ S')) (hs : s.Scoped) (hX : X ⊆ B)
    (h : Apart F B S → s.Scoped → Spec o F X B S s s')
    (h' : Apart F' B' S' → s'.Scoped → Spec o F' X' B' S' s' s'') :
    Spec o (F ∪ ( F' \ X.toFinset)) (X ++ X') (B ++ B') (S ++ S') s s'' := by
  obtain ⟨hA1, hA2, hF⟩ := hA.split hX
  have h1 := h hA1 hs
  exact h1.trans (h' hA2 (h1.runs.isScoped hs)) hX hF hA.plists

/-- Where the first binds nothing for the second. -/
theorem seq_nil (hA : Apart (F ∪ F') (B ++ B') (S ++ S')) (hs : s.Scoped)
    (h : Apart F B S → s.Scoped → Spec o F X B S s s')
    (h' : Apart F' B' S' → s'.Scoped → Spec o F' X' B' S' s' s'') :
    Spec o (F ∪ F') X' (B ++ B') (S ++ S') s s'' := by
  have hsdiff : F' \ ([] : List Var).toFinset = F' := by simp
  rw [← hsdiff] at hA ⊢
  exact seq hA hs (nil_subset _) (fun hA hs => (h hA hs).forget)
    (fun hA hs => h' hA hs)

end Spec

/-- The functions of a group are bound, and all have the same frees. -/
theorem setFrees_spec (xs : List Var) : (ds : Funs) → (s : State) →
    Runs ∅ ds.vars ds.vars ds.plists [] s (setFrees xs ds s) ∧
      ∀ p ∈ ds.plists, (setFrees xs ds s).lambdaFrees p = xs
  | .nil, s => ⟨.refl s, nofun⟩
  | .cons x l ds, s => by
    obtain ⟨hruns, hset⟩ := setFrees_spec xs ds (bind x (s.setFree l xs))
    have h1 := (Runs.setFree s l xs).trans (Runs.bind (s.setFree l xs) x) (nil_subset _)
      fun _ hF => nomatch hF
    have h2 := h1.trans hruns (List.Subset.refl _) fun _ hF => nomatch hF
    have h3 : Runs ∅ (x :: ds.vars) (x :: ds.vars) (l.plist :: ds.plists) [] s
        (setFrees xs ds (bind x (s.setFree l xs))) := by simpa using h2
    refine ⟨h3, fun p hp => ?_⟩
    by_cases hp' : p ∈ ds.plists
    · exact hset p hp'
    · have heq : p = l.plist := (mem_cons.1 hp).resolve_right hp'
      refine (hruns.frees_other p hp').trans (((Runs.bind (s.setFree l xs) x).frees_other p
        not_mem_nil).trans ?_)
      rw [heq]
      exact update_self ..

/-- A lambda is given its frees, which occur free where it stands. -/
theorem setFree_vars_spec {l : Lambda} {xs : List Var} (hA : Apart (l.free o) l.binders
      (.val l :: l.sites)) (hxs : Exactly xs (l.free o)) (h : Spec o ∅ [] [] l.sites s s') :
    Spec o (l.free o) [] l.binders (.val l :: l.sites) s (vars xs (s'.setFree l xs)) := by
  have hvars := Runs.vars (s'.setFree l xs) xs
  have hset := (Runs.setFree s' l xs).trans_nil hvars fun _ _ => not_mem_nil
  have hruns := h.runs.trans_nil hset fun _ _ => not_mem_nil
  have hfree : xs.toFinset = l.free o := Finset.ext fun x => by
    rw [mem_toFinset, hxs.2]
  have hP : l.sites.flatMap Site.plists ++ ([l.plist] ++ []) ⊆
      (Site.val l :: l.sites).flatMap Site.plists := by
    intro p hp
    simpa [Site.plists, or_comm] using hp
  have hval : (vars xs (s'.setFree l xs)).lambdaFrees l.plist = xs :=
    (hvars.frees_other _ not_mem_nil).trans (update_self ..)
  have hnotin : l.plist ∉ l.sites.flatMap Site.plists := (nodup_cons.1 hA.plists).1
  refine ⟨?_, fun site hsite => ?_⟩
  · have := hruns.weaken (C := l.binders) (R := (Site.val l :: l.sites).flatMap Site.plists)
      (T := (Site.val l :: l.sites).flatMap Site.recPlists) (by simp) hP (by simp [Site.recPlists])
    simpa [hfree] using this
  · rcases mem_cons.1 hsite with rfl | hmem
    · change Exactly ((vars xs (s'.setFree l xs)).lambdaFrees l.plist) _
      rwa [hval]
    · refine (h.correct site hmem).congr fun p hp => ⟨?_, ?_⟩
      · refine (hvars.frees_other _ not_mem_nil).trans (update_of_ne ?_ ..)
        rintro rfl
        exact hnotin (mem_flatMap.2 ⟨site, hmem, hp⟩)
      · exact hvars.recs_other _ not_mem_nil

/-- The variables of a pattern are bound before the branch. -/
theorem binds_spec (s : State) (xs : List Var) :
    Spec o ∅ xs xs [] s (xs.foldl (fun s x => bind x s) s) :=
  .of_runs (.binds s xs)

/-- A value is bound after its expression. -/
theorem bind_spec {x : Var} (hA : Apart F (B ++ [x]) S) (hs : s.Scoped)
    (h : Apart F B S → s.Scoped → Spec o F [] B S s s') :
    Spec o F [x] (B ++ [x]) S s (bind x s') := by
  have hA' : Apart (F ∪ ∅) (B ++ [x]) (S ++ []) := by
    rwa [Finset.union_empty, append_nil]
  have h1 := Spec.seq_nil hA' hs h fun _ _ => .of_runs (.bind s' x)
  rwa [Finset.union_empty, append_nil] at h1

/-- The frees of a group are those that its scope found, and occur free where it stands. -/
theorem group_spec {ds : Funs} {xs : List Var} {s1 : State}
    (hplists : (ds.plists ++ ds.sites.flatMap Site.plists).Nodup)
    (hxs : Exactly xs (ds.free o \ ds.vars.toFinset))
    (hruns : Runs ∅ [] [] (ds.sites.flatMap Site.plists)
      (ds.plists ++ ds.sites.flatMap Site.recPlists) s s1)
    (hsites : ∀ site ∈ ds.sites, Correct o s1 site)
    (hrecs : ∀ d ∈ ds.toList,
      Exactly (s1.lambdaRecs d.2.plist) (d.2.free o ∩ ds.vars.toFinset)) :
    Spec o (ds.free o \ ds.vars.toFinset) ds.vars (ds.vars ++ ds.binders) (.group ds :: ds.sites) s
      (vars xs (setFrees xs ds s1)) := by
  obtain ⟨hset, hset'⟩ := setFrees_spec xs ds s1
  have hvars := Runs.vars (setFrees xs ds s1) xs
  have hfree : xs.toFinset = ds.free o \ ds.vars.toFinset := Finset.ext fun x => by
    rw [mem_toFinset, hxs.2]
  rw [hfree] at hvars
  have h1 := hruns.trans (hset.trans hvars (List.Subset.refl _) fun _ _ hx => hx)
    (nil_subset _) fun _ _ hB => hB
  have h2 := h1.weaken (C := ds.vars ++ ds.binders)
    (R := (Site.group ds :: ds.sites).flatMap Site.plists)
    (T := (Site.group ds :: ds.sites).flatMap Site.recPlists) (by simp)
    (fun p hp => by simpa [Site.plists, or_comm] using hp)
    (fun p hp => by simpa [Site.recPlists] using hp)
  refine ⟨by simpa using h2, fun site hsite => ?_⟩
  rcases mem_cons.1 hsite with rfl | hmem
  · intro d hd
    have hp : d.2.plist ∈ ds.plists := mem_map_of_mem hd
    rw [hvars.frees_other _ not_mem_nil, hset' _ hp, hvars.recs_other _ not_mem_nil,
      hset.recs_other _ not_mem_nil]
    exact ⟨hxs, hrecs d hd⟩
  · refine (hsites site hmem).congr fun p hp => ⟨?_, ?_⟩
    · refine (hvars.frees_other _ not_mem_nil).trans (hset.frees_other p fun hp' => ?_)
      exact (nodup_append.1 hplists).2.2 p hp' p (mem_flatMap.2 ⟨site, hmem, hp⟩) rfl
    · exact (hvars.recs_other _ not_mem_nil).trans (hset.recs_other _ not_mem_nil)

/-- One function of a group, and the others after it. -/
theorem cons_spec {x : Var} {l : Lambda} {ds : Funs} {V : List Var}
    (hS : ((Funs.cons x l ds).plists ++ (Funs.cons x l ds).sites.flatMap Site.plists).Nodup)
    (hxs : Exactly (lambda o l s).1 (l.free o))
    (hl : Spec o ∅ [] [] l.sites s (lambda o l s).2) (hs : s.Scoped)
    (ih : ∀ s : State, s.Scoped → (ds.plists ++ ds.sites.flatMap Site.plists).Nodup →
      Runs (ds.free o \ V.toFinset) [] ds.binders (ds.sites.flatMap Site.plists)
          (ds.plists ++ ds.sites.flatMap Site.recPlists) s (funs o V ds s) ∧
        (∀ site ∈ ds.sites, Correct o (funs o V ds s) site) ∧
        ∀ d ∈ ds.toList,
          Exactly ((funs o V ds s).lambdaRecs d.2.plist) (d.2.free o ∩ V.toFinset)) :
    Runs ((Funs.cons x l ds).free o \ V.toFinset) [] (Funs.cons x l ds).binders
        ((Funs.cons x l ds).sites.flatMap Site.plists)
        ((Funs.cons x l ds).plists ++ (Funs.cons x l ds).sites.flatMap Site.recPlists) s
        (funs o V (.cons x l ds) s) ∧
      (∀ site ∈ (Funs.cons x l ds).sites, Correct o (funs o V (.cons x l ds) s) site) ∧
      ∀ d ∈ (Funs.cons x l ds).toList,
        Exactly ((funs o V (.cons x l ds) s).lambdaRecs d.2.plist) (d.2.free o ∩ V.toFinset) := by
  set ys := (lambda o l s).1 with hys
  set s1 := (lambda o l s).2 with hs1
  set s2 := vars (ys.filter fun x => decide (x ∉ V)) s1 with hs2
  set s3 := s2.setRec l (ys.filter fun x => decide (x ∈ V)) with hs3
  have hplists : (l.plist :: (ds.plists ++ (l.sites ++ ds.sites).flatMap Site.plists)).Nodup := hS
  rw [flatMap_append] at hplists
  obtain ⟨hl', hrest⟩ := nodup_cons.1 hplists
  obtain ⟨hds, hsub, hne⟩ := nodup_append.1 hrest
  obtain ⟨-, hsub', hne'⟩ := nodup_append.1 hsub
  have hvars : Runs (l.free o \ V.toFinset) [] [] [] [] s1 s2 := by
    have hfree : (ys.filter fun x => decide (x ∉ V)).toFinset = l.free o \ V.toFinset := by
      ext x
      simp [hxs.2]
    exact hfree ▸ Runs.vars s1 _
  have hrec : Runs ∅ [] [] [] [l.plist] s2 s3 := Runs.setRec s2 l _
  have h1 := (hl.runs.trans_nil hvars fun _ _ => not_mem_nil).trans_nil hrec
    fun _ _ => not_mem_nil
  obtain ⟨hruns, hsites, hrecs⟩ := ih s3 (h1.isScoped hs)
    (nodup_append.2 ⟨hds, hsub', fun p hp q hq => hne p hp q (mem_append_right _ hq)⟩)
  have hlast : s3.lambdaRecs l.plist = ys.filter fun x => decide (x ∈ V) :=
    update_self ..
  -- the recs of `l` and the places in it stay
  have hnotds : l.plist ∉ ds.plists ++ ds.sites.flatMap Site.recPlists := by
    intro hp
    refine hl' (mem_append.2 ?_)
    rcases mem_append.1 hp with hp | hp
    · exact .inl hp
    · obtain ⟨site, hmem, hp⟩ := mem_flatMap.1 hp
      exact .inr (mem_append_right _ (mem_flatMap.2
        ⟨site, hmem, site.recPlists_subset hp⟩))
  refine ⟨?_, fun site hsite => ?_, fun d hd => ?_⟩
  · have h2 := (h1.trans_nil hruns fun _ _ => not_mem_nil).weaken
      (C := l.binders ++ ds.binders) (R := (l.sites ++ ds.sites).flatMap Site.plists)
      (T := l.plist :: (ds.plists ++ (l.sites ++ ds.sites).flatMap Site.recPlists))
      (by simp) (by simp) (fun p hp => by
        simp only [mem_append, mem_cons, not_mem_nil, or_false, flatMap_append]
          at hp ⊢
        tauto)
    rw [Finset.empty_union, Finset.union_empty, ← Finset.union_sdiff_distrib] at h2
    exact h2
  · rcases mem_append.1 hsite with hmem | hmem
    · have hin : ∀ p ∈ site.plists, p ∈ l.sites.flatMap Site.plists := fun p hp =>
        mem_flatMap.2 ⟨site, hmem, hp⟩
      refine (hl.correct site hmem).congr fun p hp => ⟨?_, ?_⟩
      · refine (hruns.frees_other p fun hp' => hne' p (hin p hp) p hp' rfl).trans ?_
        exact (hrec.frees_other p not_mem_nil).trans (hvars.frees_other p not_mem_nil)
      · refine (hruns.recs_other p fun hp' => ?_).trans ((hrec.recs_other p fun hp' => ?_).trans
          (hvars.recs_other p not_mem_nil))
        · rcases mem_append.1 hp' with hp' | hp'
          · exact hne p hp' p (mem_append_left _ (hin p hp)) rfl
          · obtain ⟨site', hmem', hp''⟩ := mem_flatMap.1 hp'
            exact hne' p (hin p hp) p (mem_flatMap.2
              ⟨site', hmem', site'.recPlists_subset hp''⟩) rfl
        · rw [mem_singleton] at hp'
          subst hp'
          exact hl' (mem_append_right _ (mem_append_left _ (hin _ hp)))
    · exact hsites site hmem
  · rcases mem_cons.1 hd with rfl | hd
    · change Exactly ((funs o V ds s3).lambdaRecs l.plist) (l.free o ∩ V.toFinset)
      rw [hruns.recs_other _ hnotds, hlast]
      refine ⟨hxs.1.filter _, fun x => ?_⟩
      rw [mem_filter, decide_eq_true_iff, hxs.2, Finset.mem_inter, mem_toFinset]
    · exact hrecs d hd

mutual

theorem exp_spec : (e : Exp) → (s : State) → Apart (e.free o) e.binders e.sites → s.Scoped →
    Spec o (e.free o) [] e.binders e.sites s (exp o e s)
  | .result x, s, _, _ => .of_runs (.var s x)
  | .dec d e, s, hA, hs => by
    have hvars : d.vars ⊆ d.binders := by
      cases d with
      | exception con arg => exact nil_subset _
      | func ds => exact subset_append_left ..
      | monoVal x ty e | polyVal x ty e => exact subset_append_right ..
    exact (Spec.seq hA hs hvars (dec_spec d s) (exp_spec e _)).forget

theorem dec_spec : (d : Dec) → (s : State) → Apart (d.free o) d.binders d.sites → s.Scoped →
    Spec o (d.free o) d.vars d.binders d.sites s (dec o d s)
  | .exception _ _, s, _, _ => .of_runs (.refl s)
  | .monoVal x _ e, s, hA, hs => bind_spec hA hs (primExp_spec e s)
  | .polyVal x _ e, s, hA, hs => bind_spec hA hs (exp_spec e s)
  | .func ds, s, hA, hs => by
    have hplists : (ds.plists ++ ds.sites.flatMap Site.plists).Nodup := hA.plists
    obtain ⟨-, hB, hne⟩ := nodup_append.1 hA.nodup
    obtain ⟨-, hS, hneS⟩ := nodup_append.1 hplists
    have hA' : Apart (ds.free o) ds.binders ds.sites := by
      refine ⟨hB, fun x hx hxB => ?_, hS⟩
      by_cases hxV : x ∈ ds.vars
      · exact hne x hxV x hxB rfl
      · exact hA.disjoint x (Finset.mem_sdiff.2 ⟨hx, by simpa using hxV⟩)
          (mem_append_right _ hxB)
    obtain ⟨hruns, hsites, hrecs⟩ := funs_spec ds ds.vars s.enter hA' hplists
      ⟨_, _, State.enter_good hs.fresh⟩
    obtain ⟨hxs, hscope, hlf, hlr⟩ := newScope_spec hs.fresh hruns
    exact group_spec hplists hxs hscope (fun site hsite => (hsites site hsite).congr fun p _ =>
      ⟨congrFun hlf p, congrFun hlr p⟩) fun d hd => congrFun hlr d.2.plist ▸ hrecs d hd

theorem funs_spec : (ds : Funs) → (V : List Var) → (s : State) →
    Apart (ds.free o) ds.binders ds.sites → (ds.plists ++ ds.sites.flatMap Site.plists).Nodup →
    s.Scoped →
    Runs (ds.free o \ V.toFinset) [] ds.binders (ds.sites.flatMap Site.plists)
        (ds.plists ++ ds.sites.flatMap Site.recPlists) s (funs o V ds s) ∧
      (∀ site ∈ ds.sites, Correct o (funs o V ds s) site) ∧
      ∀ d ∈ ds.toList,
        Exactly ((funs o V ds s).lambdaRecs d.2.plist) (d.2.free o ∩ V.toFinset)
  | .nil, V, s, _, _, _ => by
    refine ⟨?_, nofun, nofun⟩
    have h := Runs.refl s
    rwa [← Finset.empty_sdiff V.toFinset] at h
  | .cons x l ds, V, s, hA, hS, hs => by
    obtain ⟨hA1, hA2⟩ := Apart.split_nil hA
    obtain ⟨hxs, hl⟩ := lambda_spec l s hA1 hs
    exact cons_spec hS hxs hl hs (fun s hs hS => funs_spec ds V s hA2 hS hs)

theorem primExp_spec : (e : PrimExp) → (s : State) → Apart (e.free o) e.binders e.sites → s.Scoped →
    Spec o (e.free o) [] e.binders e.sites s (primExp o e s)
  | .app func arg, s, hA, hs =>
    Spec.seq_nil (B := []) (S := []) hA hs (fun _ _ => .of_runs (.var s func))
      fun _ _ => .of_runs (.var _ arg)
  | .case test c d, s, hA, hs =>
    Spec.seq_nil (B := []) (S := []) hA hs (fun _ _ => .of_runs (.var s test))
      fun hA hs => Spec.seq_nil hA hs (default_spec d _) (cases_spec c _)
  | .conApp _ arg, s, _, _ => by
    have h := Runs.vars s arg.toList
    rw [show arg.toList.toFinset = arg.toFinset by cases arg <;> rfl] at h
    exact .of_runs h
  | .const _, s, _, _ => .of_runs (.refl s)
  | .handle body x handler, s, hA, hs => by
    have hcatch : ∅ ∪ (handler.free o \ [x].toFinset) = handler.free o \ {x} := by simp
    unfold PrimExp.free at hA ⊢
    rw [← hcatch] at hA ⊢
    exact Spec.seq_nil hA hs (exp_spec body s) fun hA hs =>
      (Spec.seq (B := [x]) (S := []) hA hs (List.Subset.refl _) (fun _ _ => .of_runs (.bind _ x))
        (exp_spec handler _)).forget
  | .lambda l, s, hA, hs => by
    have hA' : Apart (l.free o) l.binders l.sites :=
      ⟨hA.nodup, hA.disjoint, (nodup_cons.1 hA.plists).2⟩
    obtain ⟨hxs, hl⟩ := lambda_spec l s hA' hs
    exact setFree_vars_spec hA hxs hl
  | .primApp prim args, s, hA, hs => by
    refine Spec.seq_nil (B := []) (S := []) (X := []) hA hs (fun _ _ => .of_runs ?_)
      fun _ _ => .of_runs (.vars _ args)
    split_ifs
    · exact .var s o
    · exact .refl s
  | .profile, s, _, _ => .of_runs (.refl s)
  | .raise exn, s, _, _ => .of_runs (.var s exn)
  | .select tuple _, s, _, _ => .of_runs (.var s tuple)
  | .tuple xs, s, _, _ => .of_runs (.vars s xs)
  | .var x, s, _, _ => .of_runs (.var s x)

theorem cases_spec : (c : Cases) → (s : State) → Apart (c.free o) c.binders c.sites → s.Scoped →
    Spec o (c.free o) [] c.binders c.sites s (cases o c s)
  | .nil, s, _, _ => .of_runs (.refl s)
  | .cons p e c, s, hA, hs => by
    have hpat : ∅ ∪ (e.free o \ p.vars.toFinset) = e.free o \ p.vars.toFinset := by simp
    unfold Cases.free at hA ⊢
    rw [← hpat] at hA ⊢
    exact Spec.seq_nil hA hs (fun hA hs => Spec.seq (S := []) hA hs (List.Subset.refl _)
      (fun _ _ => binds_spec s p.vars) (exp_spec e _)) (cases_spec c _)

theorem default_spec : (d : Default) → (s : State) → Apart (d.free o) d.binders d.sites →
    s.Scoped → Spec o (d.free o) [] d.binders d.sites s (default o d s)
  | .none, s, _, _ => .of_runs (.refl s)
  | .some e, s, hA, hs => exp_spec e s hA hs

theorem lambda_spec : (l : Lambda) → (s : State) → Apart (l.free o) l.binders l.sites →
    s.Scoped →
    Exactly (lambda o l s).1 (l.free o) ∧ Spec o ∅ [] [] l.sites s (lambda o l s).2
  | .mk _ x e, s, hA, hs => by
    have harg : ∅ ∪ (e.free o \ [x].toFinset) = e.free o \ {x} := by simp
    unfold Lambda.free at hA ⊢
    rw [← harg] at hA ⊢
    have h := Spec.seq (B := [x]) (S := []) hA ⟨_, _, State.enter_good hs.fresh⟩
      (List.Subset.refl _) (fun _ _ => .of_runs (.bind _ x)) (exp_spec e _)
    obtain ⟨hxs, hscope, hlf, hlr⟩ := newScope_spec (f := fun s => exp o e (bind x s)) hs.fresh
      h.runs
    exact ⟨hxs, hscope, fun site hsite => (h.correct site hsite).congr fun p _ =>
      ⟨congrFun hlf p, congrFun hlr p⟩⟩

end

end LambdaFree

open LambdaFree

/-- A lambda alone is in no group. -/
theorem plist_not_mem_recPlists {S : List Site} (hS : (S.flatMap Site.plists).Nodup) {l : Lambda}
    (hl : .val l ∈ S) : l.plist ∉ S.flatMap Site.recPlists := by
  intro hp
  obtain ⟨site, hmem, hp⟩ := mem_flatMap.1 hp
  have hne : Site.val l ≠ site := by
    rintro rfl
    cases hp
  have : Std.Symm (onFun List.Disjoint Site.plists) := ⟨fun _ _ h => List.Disjoint.symm h⟩
  have hdisjoint := (nodup_flatMap.1 hS).2.forall hl hmem hne
  exact hdisjoint mem_cons_self (site.recPlists_subset hp)

/-- **Free-variable analysis is exact**: after `lambdaFree`, the frees of every lambda alone are its
free variables, and it has no recs; the frees of every function of a group are the variables that
occur free in the group, without its own, and its recs those of the group that occur free in it.
All are without duplicates. -/
theorem lambdaFree_exact (p : Program) (hp : p.WellFormed) : ∃ s, lambdaFree p = some s ∧
    (∀ l, .val l ∈ p.body.sites →
      Exactly (s.lambdaFrees l.plist) (l.free p.overflow) ∧ s.lambdaRecs l.plist = []) ∧
    ∀ ds, .group ds ∈ p.body.sites → ∀ d ∈ ds.toList,
      Exactly (s.lambdaFrees d.2.plist) (ds.free p.overflow \ ds.vars.toFinset) ∧
        Exactly (s.lambdaRecs d.2.plist) (d.2.free p.overflow ∩ ds.vars.toFinset) := by
  have hfresh : ∀ x, init.frees x < init.next := fun _ => Nat.zero_lt_one
  have hA : Apart (p.body.free p.overflow) p.body.binders p.body.sites :=
    ⟨hp.binders, fun x hx => absurd (hp.closed ▸ hx) (Finset.notMem_empty x), hp.plists⟩
  have hspec := exp_spec p.body init.enter hA ⟨_, _, State.enter_good hfresh⟩
  obtain ⟨hfrees, hruns, hlf, hlr⟩ := newScope_spec hfresh hspec.runs
  have hempty : (newScope (exp p.overflow p.body) init).1 = [] := by
    refine List.eq_nil_iff_forall_not_mem.2 fun x hx => ?_
    rw [hfrees.2, hp.closed] at hx
    cases hx
  have hcorrect : ∀ site ∈ p.body.sites,
      Correct p.overflow (newScope (exp p.overflow p.body) init).2 site := fun site hsite =>
    (hspec.correct site hsite).congr fun p _ => ⟨congrFun hlf p, congrFun hlr p⟩
  refine ⟨(newScope (exp p.overflow p.body) init).2, ?_, fun l hl => ⟨hcorrect _ hl, ?_⟩,
    fun ds hds => hcorrect _ hds⟩
  · unfold lambdaFree
    dsimp only
    rw [hempty]
    rfl
  · exact hruns.recs_other _ (plist_not_mem_recPlists hp.plists hl)

/-- `val rec f = fn x => (y, g, f) and g = fn z => (f, w)` -/
def recGroup : Funs :=
  .cons 3 (.mk 0 4 (.dec (.monoVal 5 (.con .tuple []) (.tuple [1, 6, 3])) (.result 5)))
    (.cons 6 (.mk 1 7 (.dec (.monoVal 8 (.con .tuple []) (.tuple [3, 2])) (.result 8))) .nil)

/-- The group, where `y` and `w` are the variables 1 and 2. -/
def recProgram : Program where
  body := .dec (.monoVal 0 (.con .tuple []) (.tuple [])) (.dec (.monoVal 1 (.con .tuple []) (.tuple []))
    (.dec (.monoVal 2 (.con .tuple []) (.tuple [])) (.dec (.func recGroup) (.result 0))))
  overflow := 0

theorem recProgram_wellFormed : recProgram.WellFormed := ⟨by decide, by decide, by decide⟩

/-- The frees of both are `y` and `w`. -/
theorem lambdaFree_exact_rec : ∃ s, lambdaFree recProgram = some s ∧
    ∀ d ∈ recGroup.toList, Exactly (s.lambdaFrees d.2.plist) {1, 2} := by
  obtain ⟨s, hs, -, hgroup⟩ := lambdaFree_exact recProgram recProgram_wellFormed
  have h := hgroup recGroup (by simp [recProgram, Exp.sites, Dec.sites, PrimExp.sites])
  have hfree : recGroup.free recProgram.overflow \ recGroup.vars.toFinset = {1, 2} := by decide
  exact ⟨s, hs, fun d hd => hfree ▸ (h d hd).1⟩

/-- The functions of a group share their frees: `y` is one of `g`, where it does not occur. -/
theorem lambdaFree_shares : recProgram.WellFormed ∧ .group recGroup ∈ recProgram.body.sites ∧
    ∃ s, lambdaFree recProgram = some s ∧ ∃ d ∈ recGroup.toList,
      ¬ Exactly (s.lambdaFrees d.2.plist)
        (d.2.free recProgram.overflow \ recGroup.vars.toFinset) := by
  refine ⟨recProgram_wellFormed, by simp [recProgram, Exp.sites, Dec.sites, PrimExp.sites], _, rfl,
    (6, _), List.mem_cons_of_mem _ List.mem_cons_self, fun h => ?_⟩
  have hy := (h.2 1).1 (by decide)
  exact absurd hy (by decide)

end MultiMLton.Sxml
