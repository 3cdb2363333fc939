import MultiMLton.Atoms.Prim

/-!
# Constants that no rule handles

`unhandledConst` of `match-compile/match-compile.fun`: from the constants of a column, one of the same
type that is not among them.

* `unhandledConst_intInf`, `unhandledConst_wordVector`: integers, and strings, which have a longest
  length;
* `searchLoop_mem_iff`, `search_word_mem_iff`: the search for a word moves on by one number and by one
  element at once, so that it stops at the second of two equal elements;
* `unhandledConst_exact`: when the constant that is found is of the type and not in the list.
-/

namespace MultiMLton.MatchCompile

open MultiMLton.Atoms List

/-- `Tycon.t`, of datatypes and exceptions -/
inductive Tycon
  | exn
  | reff
  | named (id : ℕ)
  deriving DecidableEq

/-- `Type.t`; for all types whose patterns are variables only, `var` stands. -/
inductive Ty
  | con (tycon : Tycon) (args : List Ty)
  | intInf
  | tuple (ts : List Ty)
  | var (a : ℕ)
  | wordVector (s : WordSize)
  | word (s : WordSize)

/-- The type of a constant in a pattern. -/
def constTy : Const → Option Ty
  | .intInf _ => some .intInf
  | .null => none
  | .real _ => none
  | .word w => some (.word w.size)
  | .wordVector v => some (.wordVector v.elementSize)

/-- Why the compiler stops. -/
inductive Stop
  | bug (msg : String)
  | chr
  | overflow
  | subscript
  /-- no turns are left -/
  | turns
  deriving DecidableEq

/-- The loop of `search` in `unhandledConst`. -/
def searchLoop : List ℤ → ℤ → ℤ
  | [], c => c
  | c' :: cs, c => if c ≠ c' then c else searchLoop cs (c + 1)

/-- `search` -/
def search (isMin : ℤ → Bool) (cs : List ℤ) : ℤ :=
  let cs := cs.mergeSort (· ≤ ·)
  let c := cs.headD 0
  if !isMin c then c - 1 else searchLoop cs c

def extractIntInf : Const → Except Stop ℤ
  | .intInf i => .ok i
  | _ => .error (.bug "MatchCompile.unhandledConst: expected IntInf")

def extractWord : Const → Except Stop ℤ
  | .word w => .ok w.value
  | _ => .error (.bug "MatchCompile.unhandledConst: expected Word")

def extractLength : Const → Except Stop ℕ
  | .wordVector v => .ok v.elements.length
  | _ => .error (.bug "MatchCompile.unhandledConst: expected Word8Vector")

/-- `WordXVector.tabulate` -/
def tabulate (elementSize : WordSize) (n : ℕ) (value : ℤ) : Except Stop WordXVector :=
  if h : n < 2 ^ 31 then
    .ok {
      elementSize := elementSize
      elements := List.replicate n (WordX.make value elementSize)
      sizes := fun w hw => by rw [List.eq_of_mem_replicate hw]; rfl
      length_lt := by rwa [List.length_replicate] }
  else .error .overflow

/-- `unhandledConst` -/
def unhandledConst : List Const → Except Stop Const
  | [] => .error .subscript
  | c :: cs =>
    match c with
    | .intInf _ => do
      let is ← (c :: cs).mapM extractIntInf
      .ok (.intInf (search (fun _ => false) is))
    | .null => .error (.bug "MatchCompile.unhandledConst: match on null is not allowed")
    | .real _ => .error (.bug "MatchCompile.unhandledConst: match on real is not allowed")
    | .word w => do
      let is ← (c :: cs).mapM extractWord
      .ok (.word (WordX.make (search (fun i => decide (i = 0)) is) w.size))
    | .wordVector v => do
      let ns ← (c :: cs).mapM extractLength
      -- the longest, and one `#"a"` more
      let v ← tabulate v.elementSize (ns.foldl max 0 + 1) 97
      .ok (.wordVector v)

/-! ### The search -/

theorem mapM_eq_ok {α β : Type} {f : α → Except Stop β} {as : List α} {bs : List β} :
    as.mapM f = .ok bs ↔ List.Forall₂ (fun a b => f a = .ok b) as bs := by
  induction as generalizing bs with
  | nil =>
    rw [mapM_nil, forall₂_nil_left_iff]
    exact ⟨fun h => by cases h; rfl, fun h => by rw [h]; rfl⟩
  | cons a as ih =>
    rw [mapM_cons, forall₂_cons_left_iff]
    cases hfa : f a with
    | error e =>
      refine iff_of_false (fun h => by cases h) ?_
      rintro ⟨b, bs', hb, -⟩
      cases hb
    | ok b =>
      cases hrest : as.mapM f with
      | error e =>
        refine iff_of_false (fun h => by cases h) ?_
        rintro ⟨b', bs', -, hbs', -⟩
        rw [← ih, hrest] at hbs'
        cases hbs'
      | ok bs' =>
        constructor
        · intro h
          cases h
          exact ⟨b, bs', rfl, ih.1 hrest, rfl⟩
        · rintro ⟨b', bs'', hb, hbs, rfl⟩
          cases hb
          rw [← ih, hrest] at hbs
          cases hbs
          rfl

/-- The list that is searched. -/
theorem mergeSort_le (cs : List ℤ) : (cs.mergeSort (· ≤ ·)).Pairwise (· ≤ ·) := by
  simpa using @pairwise_mergeSort ℤ (fun a b => decide (a ≤ b))
    (fun a b c => by simpa using le_trans) (fun a b => by simpa using le_total a b) cs

variable {cs : List ℤ}

/-- The head of the sorted list is the least. -/
theorem headD_mergeSort (hne : cs ≠ []) :
    (cs.mergeSort (· ≤ ·)).headD 0 ∈ cs ∧ ∀ x ∈ cs, (cs.mergeSort (· ≤ ·)).headD 0 ≤ x := by
  have hsorted := mergeSort_le cs
  have hmem {x : ℤ} : x ∈ cs.mergeSort (· ≤ ·) ↔ x ∈ cs := List.mem_mergeSort
  cases hsort : cs.mergeSort (· ≤ ·) with
  | nil =>
    obtain ⟨x, hx⟩ := exists_mem_of_ne_nil cs hne
    rw [← hmem, hsort] at hx
    cases hx
  | cons c rest =>
    rw [hsort] at hsorted hmem
    refine ⟨hmem.1 mem_cons_self, fun x hx => ?_⟩
    rcases mem_cons.1 (hmem.2 hx) with rfl | hx
    · exact le_rfl
    · exact (pairwise_cons.1 hsorted).1 x hx

theorem search_notMem (hne : cs ≠ []) : search (fun _ => false) cs ∉ cs := by
  obtain ⟨-, hle⟩ := headD_mergeSort hne
  rw [search, if_pos Bool.not_false]
  intro hmem
  have hge := hle _ hmem
  omega

/-! ### Unhandled constants -/

theorem unhandledConst_intInf {is : List ℤ} (hne : is ≠ []) :
    ∃ i, unhandledConst (is.map .intInf) = .ok (.intInf i) ∧ i ∉ is := by
  cases is with
  | nil => exact absurd rfl hne
  | cons i is =>
    have hmap : ((i :: is).map Const.intInf).mapM extractIntInf = .ok (i :: is) := by
      rw [mapM_eq_ok, forall₂_map_left_iff, forall₂_same]
      exact fun _ _ => rfl
    refine ⟨_, ?_, search_notMem hne⟩
    rw [map_cons] at hmap ⊢
    simp only [unhandledConst, hmap, bind, Except.bind]

/-- The size is that of the first word. -/
theorem unhandledConst_map_word {l : List WordX} {s : WordSize} (hne : l ≠ [])
    (hsize : ∀ w ∈ l, w.size = s) : unhandledConst (l.map .word) =
      .ok (.word (WordX.make (search (fun i => decide (i = 0)) (l.map WordX.value)) s)) := by
  cases l with
  | nil => exact absurd rfl hne
  | cons w ws =>
    have hmap : ((w :: ws).map Const.word).mapM extractWord =
        .ok ((w :: ws).map WordX.value) := by
      rw [mapM_eq_ok, forall₂_map_left_iff, forall₂_map_right_iff, forall₂_same]
      exact fun _ _ => rfl
    rw [← hsize w mem_cons_self]
    rw [map_cons] at hmap ⊢
    simp only [unhandledConst, hmap, bind, Except.bind]

theorem length_le_foldl_max (ns : List ℕ) (m : ℕ) :
    m ≤ ns.foldl max m ∧ ∀ n ∈ ns, n ≤ ns.foldl max m := by
  induction ns generalizing m with
  | nil => exact ⟨le_rfl, fun n hn => by cases hn⟩
  | cons n ns ih =>
    obtain ⟨hm, hall⟩ := ih (max m n)
    rw [foldl_cons]
    refine ⟨(le_max_left m n).trans hm, fun n' hn' => ?_⟩
    rcases mem_cons.1 hn' with rfl | hn'
    · exact (le_max_right m n').trans hm
    · exact hall n' hn'

theorem foldl_max_lt {ns : List ℕ} {m b : ℕ} (hm : m < b) (h : ∀ n ∈ ns, n < b) :
    ns.foldl max m < b := by
  induction ns generalizing m with
  | nil => exact hm
  | cons n ns ih =>
    exact ih (max_lt hm (h n mem_cons_self)) fun n' hn' => h n' (mem_cons_of_mem _ hn')

/-- A string one longer than the others, if there is one. -/
theorem unhandledConst_wordVector {vs : List WordXVector} {s : WordSize} (hne : vs ≠ [])
    (hsize : ∀ v ∈ vs, v.elementSize = s) :
    ((∃ k, unhandledConst (vs.map .wordVector) = .ok k) ↔
      ∀ v ∈ vs, v.elements.length + 1 < 2 ^ 31) ∧
    ∀ k, unhandledConst (vs.map .wordVector) = .ok k →
      ∃ v, k = .wordVector v ∧ v.elementSize = s ∧ v ∉ vs := by
  cases vs with
  | nil => exact absurd rfl hne
  | cons v vs =>
    have hmap : ((v :: vs).map Const.wordVector).mapM extractLength =
        .ok ((v :: vs).map fun v => v.elements.length) := by
      rw [mapM_eq_ok, forall₂_map_left_iff, forall₂_map_right_iff, forall₂_same]
      exact fun _ _ => rfl
    obtain ⟨-, hmax⟩ := length_le_foldl_max ((v :: vs).map fun v => v.elements.length) 0
    rw [map_cons] at hmap
    rw [map_cons]
    simp only [unhandledConst, hmap, bind, Except.bind, tabulate]
    by_cases hlen : ((v :: vs).map fun v => v.elements.length).foldl max 0 + 1 < 2 ^ 31
    · rw [dif_pos hlen]
      refine ⟨iff_of_true ⟨_, rfl⟩ fun v' hv' => ?_, fun k hk => ?_⟩
      · have hle := hmax _ (mem_map_of_mem (f := fun v => v.elements.length) hv')
        omega
      · cases hk
        refine ⟨_, rfl, hsize v mem_cons_self, fun hmem => ?_⟩
        have hle := hmax _ (mem_map_of_mem (f := fun v => v.elements.length) hmem)
        rw [length_replicate] at hle
        omega
    · rw [dif_neg hlen]
      refine ⟨iff_of_false (fun ⟨k, hk⟩ => by cases hk) fun hall => hlen ?_,
        fun k hk => by cases hk⟩
      have hlt : ((v :: vs).map fun v => v.elements.length).foldl max 0 < 2 ^ 31 - 1 :=
        foldl_max_lt (by norm_num) fun n hn => by
          obtain ⟨v', hv', rfl⟩ := mem_map.1 hn
          have h := hall v' hv'
          omega
      omega

/-! ### Constants of a column -/

section Column

variable {ks : List Const} {t : Ty}

theorem exists_intInfs (h : ∀ k ∈ ks, constTy k = some .intInf) :
    ∃ is : List ℤ, ks = is.map .intInf := by
  induction ks with
  | nil => exact ⟨[], rfl⟩
  | cons k ks ih =>
    obtain ⟨is, rfl⟩ := ih fun k' hk' => h k' (mem_cons_of_mem _ hk')
    have hk := h k mem_cons_self
    cases k with
    | intInf i => exact ⟨i :: is, rfl⟩
    | _ => simp [constTy] at hk

theorem exists_words {s : WordSize} (h : ∀ k ∈ ks, constTy k = some (.word s)) :
    ∃ ws : List WordX, ks = ws.map .word ∧ ∀ w ∈ ws, w.size = s := by
  induction ks with
  | nil => exact ⟨[], rfl, fun w hw => by cases hw⟩
  | cons k ks ih =>
    obtain ⟨ws, rfl, hsize⟩ := ih fun k' hk' => h k' (mem_cons_of_mem _ hk')
    have hk := h k mem_cons_self
    cases k with
    | word w => exact ⟨w :: ws, rfl, forall_mem_cons.2 ⟨by simpa [constTy] using hk, hsize⟩⟩
    | _ => simp [constTy] at hk

theorem exists_wordVectors {s : WordSize} (h : ∀ k ∈ ks, constTy k = some (.wordVector s)) :
    ∃ vs : List WordXVector, ks = vs.map .wordVector ∧ ∀ v ∈ vs, v.elementSize = s := by
  induction ks with
  | nil => exact ⟨[], rfl, fun v hv => by cases hv⟩
  | cons k ks ih =>
    obtain ⟨vs, rfl, hsize⟩ := ih fun k' hk' => h k' (mem_cons_of_mem _ hk')
    have hk := h k mem_cons_self
    cases k with
    | wordVector v =>
      exact ⟨v :: vs, rfl, forall_mem_cons.2 ⟨by simpa [constTy] using hk, hsize⟩⟩
    | _ => simp [constTy] at hk

end Column

/-! ### Constants that occur more than once -/

/-- Some number occurs twice, and all numbers up to the next one occur. -/
def RunRepeats (c : ℤ) (cs : List ℤ) : Prop :=
  ∃ v, 2 ≤ cs.count v ∧ ∀ j, c ≤ j → j ≤ v + 1 → j ∈ cs

theorem le_searchLoop (cs : List ℤ) (c : ℤ) : c ≤ searchLoop cs c := by
  induction cs generalizing c with
  | nil => exact le_rfl
  | cons c' cs ih =>
    rw [searchLoop]
    split_ifs
    · exact le_rfl
    · have hle := ih (c + 1)
      omega

/-- All numbers that are passed are in the list. -/
theorem mem_of_lt_searchLoop {c j : ℤ} (hj : c ≤ j) (hlt : j < searchLoop cs c) : j ∈ cs := by
  induction cs generalizing c with
  | nil => exact absurd hlt (not_lt.2 hj)
  | cons c' cs ih =>
    rw [searchLoop] at hlt
    by_cases hne : c ≠ c'
    · rw [if_pos hne] at hlt
      omega
    · rw [if_neg hne] at hlt
      by_cases hjc : j = c'
      · exact hjc ▸ mem_cons_self
      · exact mem_cons_of_mem _ (ih (by omega) hlt)

theorem runRepeats_cons {c : ℤ} (hlt : ∀ x ∈ cs, c < x) :
    RunRepeats c (c :: cs) ↔ RunRepeats (c + 1) cs := by
  have hnot : c ∉ cs := fun hmem => lt_irrefl c (hlt c hmem)
  constructor
  · rintro ⟨v, hcount, hall⟩
    have hv : v ≠ c := by
      rintro rfl
      rw [count_cons_self, count_eq_zero.2 hnot] at hcount
      omega
    rw [count_cons_of_ne hv.symm] at hcount
    refine ⟨v, hcount, fun j hj hjv => ?_⟩
    rcases mem_cons.1 (hall j (by omega) hjv) with rfl | hmem
    · omega
    · exact hmem
  · rintro ⟨v, hcount, hall⟩
    refine ⟨v, hcount.trans count_le_count_cons, fun j hj hjv => ?_⟩
    by_cases hjc : j = c
    · exact hjc ▸ mem_cons_self
    · exact mem_cons_of_mem _ (hall j (by omega) hjv)

/-- The number at which the loop stops is in a sorted list only behind a repetition. -/
theorem searchLoop_mem_iff {c : ℤ} (hsorted : cs.Pairwise (· ≤ ·))
    (hle : ∀ x ∈ cs, c ≤ x) : searchLoop cs c ∈ cs ↔ RunRepeats c cs := by
  induction cs generalizing c with
  | nil => simp [RunRepeats]
  | cons c' cs ih =>
    rw [pairwise_cons] at hsorted
    rw [searchLoop]
    by_cases hne : c ≠ c'
    · have hc' : c ≤ c' := hle c' mem_cons_self
      have hnot : c ∉ c' :: cs := fun hmem => by
        rcases mem_cons.1 hmem with heq | hmem
        · exact hne heq
        · have hle' := hsorted.1 c hmem
          omega
      rw [if_pos hne]
      refine iff_of_false hnot fun ⟨v, hcount, hall⟩ => hnot (hall c le_rfl ?_)
      have hv := hle v (count_pos_iff.1 (by omega))
      omega
    · obtain rfl : c = c' := not_not.1 hne
      rw [if_neg hne]
      by_cases hmem : c ∈ cs
      · -- the second of two equal elements, which is the next
        obtain ⟨rest, rfl⟩ : ∃ rest, cs = c :: rest := by
          cases cs with
          | nil => cases hmem
          | cons c'' rest =>
            have hle' := (pairwise_cons.1 hsorted.2).1
            have hc := hsorted.1 c'' mem_cons_self
            rcases mem_cons.1 hmem with rfl | hrest
            · exact ⟨rest, rfl⟩
            · exact ⟨rest, by rw [le_antisymm hc (hle' c hrest)]⟩
        have hstop : searchLoop (c :: rest) (c + 1) = c + 1 := by
          rw [searchLoop, if_pos (by omega)]
        rw [hstop]
        constructor
        · intro hnext
          refine ⟨c, by simp, fun j hj hjc => ?_⟩
          obtain rfl | rfl : j = c ∨ j = c + 1 := by omega
          · exact mem_cons_self
          · exact hnext
        · rintro ⟨v, hcount, hall⟩
          have hv := hle v (count_pos_iff.1 (by omega))
          exact hall (c + 1) (by omega) (by omega)
      · have hlt (x : ℤ) (hx : x ∈ cs) : c < x :=
          lt_of_le_of_ne (hsorted.1 x hx) fun heq => hmem (heq ▸ hx)
        have hgt := le_searchLoop cs (c + 1)
        rw [runRepeats_cons hlt, ← ih hsorted.2 fun x hx => by have := hlt x hx; omega,
          mem_cons]
        exact or_iff_right (by omega)

/-- What the search for a word finds: a number below the modulus if there is one left, which is in
the list if numbers are repeated in the run from 0 on. -/
theorem search_word_mem_iff (hne : cs ≠ []) (hnonneg : ∀ x ∈ cs, 0 ≤ x) :
    0 ≤ search (fun i => decide (i = 0)) cs ∧
    (∀ n, (∀ x ∈ cs, x < n) → (∃ j, 0 ≤ j ∧ j < n ∧ j ∉ cs) →
      search (fun i => decide (i = 0)) cs < n) ∧
    (search (fun i => decide (i = 0)) cs ∈ cs ↔ RunRepeats 0 cs) := by
  obtain ⟨hmem, hle⟩ := headD_mergeSort hne
  have hhead := hnonneg _ hmem
  have hperm := mergeSort_perm cs (· ≤ ·)
  rw [search]
  by_cases hzero : (cs.mergeSort (· ≤ ·)).headD 0 = 0
  · have hsort (x : ℤ) : x ∈ cs.mergeSort (· ≤ ·) ↔ x ∈ cs := List.mem_mergeSort
    simp only [hzero, decide_true, Bool.not_true, Bool.false_eq_true, if_false]
    refine ⟨le_searchLoop _ 0, fun n hn ⟨j, hj, hjn, hnot⟩ => ?_, ?_⟩
    · by_contra hge
      exact hnot ((hsort j).1 (mem_of_lt_searchLoop hj (by omega)))
    · rw [← hsort, searchLoop_mem_iff (mergeSort_le cs) fun x hx => hnonneg x ((hsort x).1 hx)]
      simp only [RunRepeats, hsort, hperm.count_eq]
  · simp only [hzero, decide_false, Bool.not_false, if_true]
    refine ⟨by omega, fun n hn _ => ?_, iff_of_false (fun h => ?_) ?_⟩
    · have hlt := hn _ hmem
      omega
    · have hge := hle _ h
      omega
    · rintro ⟨v, hcount, hall⟩
      have hv := hnonneg v (count_pos_iff.1 (by omega))
      have hge := hle 0 (hall 0 le_rfl (by omega))
      omega

/-! ### The constant that is found -/

/-- The constants among which the code finds another one: there are some, no word that occurs twice
comes, with all words below it, before one that occurs, and no string has the greatest length. -/
def Findable (ks : List Const) : Prop :=
  ks ≠ [] ∧
  (¬ ∃ w, 2 ≤ ks.count (.word w) ∧
    ∀ w', w'.size = w.size → w'.value ≤ w.value + 1 → .word w' ∈ ks) ∧
  ∀ v, .wordVector v ∈ ks → v.elements.length + 1 < 2 ^ 31

section Words

variable {ws : List WordX} {s : WordSize}

theorem count_map_value (hsize : ∀ w ∈ ws, w.size = s) {w : WordX} (hw : w.size = s) :
    (ws.map WordX.value).count w.value = ws.count w := by
  induction ws with
  | nil => rfl
  | cons w' ws ih =>
    have hw' := hsize w' mem_cons_self
    have hiff : w'.value = w.value ↔ w' = w :=
      ⟨fun h => WordX.ext (hw'.trans hw.symm) h, fun h => h ▸ rfl⟩
    rw [map_cons, count_cons, count_cons,
      ih fun w'' hw'' => hsize w'' (mem_cons_of_mem _ hw'')]
    simp only [beq_iff_eq, hiff]

/-- The run of numbers, as words, where not all words are there. -/
theorem runRepeats_map_value (hsize : ∀ w ∈ ws, w.size = s) (hmiss : ∃ w, w.size = s ∧ w ∉ ws) :
    RunRepeats 0 (ws.map WordX.value) ↔
      ∃ w, 2 ≤ ws.count w ∧ ∀ w', w'.size = w.size → w'.value ≤ w.value + 1 → w' ∈ ws := by
  have hmem {w : WordX} (hw : w.size = s) : w.value ∈ ws.map WordX.value ↔ w ∈ ws := by
    refine ⟨fun h => ?_, mem_map_of_mem⟩
    obtain ⟨w', hw', heq⟩ := mem_map.1 h
    exact WordX.ext ((hsize w' hw').trans hw.symm) heq ▸ hw'
  constructor
  · rintro ⟨v, hcount, hall⟩
    have hpos : 0 < (ws.map WordX.value).count v := by omega
    obtain ⟨w, hw, rfl⟩ := mem_map.1 (count_pos_iff.1 hpos)
    rw [count_map_value hsize (hsize w hw)] at hcount
    exact ⟨w, hcount, fun w' hw' hle =>
      (hmem (hw'.trans (hsize w hw))).1 (hall _ w'.nonneg hle)⟩
  · rintro ⟨w, hcount, hall⟩
    have hw : w ∈ ws := count_pos_iff.1 (by omega)
    refine ⟨w.value, by rwa [count_map_value hsize (hsize w hw)], fun j hj hjw => ?_⟩
    obtain ⟨w₀, hw₀, hnot⟩ := hmiss
    -- behind the last word of a size there is none, and all would be there
    have hlt : w.value + 1 < s.modulus := by
      by_contra hge
      refine hnot (hall w₀ (hw₀.trans (hsize w hw).symm) ?_)
      have hlt₀ := w₀.lt_modulus
      rw [hw₀] at hlt₀
      omega
    have hvalue : (WordX.make j s).value = j := Int.emod_eq_of_lt hj (by omega)
    rw [← hvalue, hmem rfl]
    exact hall _ (hsize w hw).symm (by rwa [hvalue])

theorem unhandledConst_words (hne : ws ≠ []) (hsize : ∀ w ∈ ws, w.size = s)
    (hmiss : ∃ w, w.size = s ∧ w ∉ ws) :
    ∃ w, unhandledConst (ws.map .word) = .ok (.word w) ∧ w.size = s ∧
      (w ∈ ws ↔ ∃ w, 2 ≤ ws.count w ∧ ∀ w', w'.size = w.size → w'.value ≤ w.value + 1 → w' ∈ ws) := by
  have hne' : ws.map WordX.value ≠ [] := by simpa using hne
  have hnonneg : ∀ x ∈ ws.map WordX.value, 0 ≤ x := by simpa using fun w _ => w.nonneg
  have hlt : ∀ x ∈ ws.map WordX.value, x < s.modulus := by
    intro x hx
    obtain ⟨w, hw, rfl⟩ := mem_map.1 hx
    rw [← hsize w hw]
    exact w.lt_modulus
  obtain ⟨hge, hbound, hiff⟩ := search_word_mem_iff hne' hnonneg
  have hfits := hbound s.modulus hlt <| by
    obtain ⟨w, hw, hnot⟩ := hmiss
    refine ⟨w.value, w.nonneg, hw ▸ w.lt_modulus, fun hmem => hnot ?_⟩
    obtain ⟨w', hw', heq⟩ := mem_map.1 hmem
    exact WordX.ext ((hsize w' hw').trans hw.symm) heq ▸ hw'
  have hvalue : (WordX.make (search (fun i => decide (i = 0)) (ws.map WordX.value)) s).value =
      search (fun i => decide (i = 0)) (ws.map WordX.value) := Int.emod_eq_of_lt hge hfits
  refine ⟨WordX.make (search (fun i => decide (i = 0)) (ws.map WordX.value)) s,
    unhandledConst_map_word hne hsize, rfl, ?_⟩
  rw [← runRepeats_map_value hsize hmiss, ← hiff]
  constructor
  · intro hmem
    rw [← hvalue]
    exact mem_map_of_mem hmem
  · intro hmem
    obtain ⟨w, hw, heq⟩ := mem_map.1 hmem
    exact WordX.ext (hsize w hw) (heq.trans hvalue.symm) ▸ hw

end Words

section Column

variable {ks : List Const} {t : Ty}

/-- For a list of constants of one type that does not have all of them, the code returns a constant
of the type that is not in the list exactly if one can be found. -/
theorem unhandledConst_exact (hty : ∀ k ∈ ks, constTy k = some t)
    (hmiss : ∃ k, constTy k = some t ∧ k ∉ ks) :
    (∃ k, unhandledConst ks = .ok k ∧ constTy k = some t ∧ k ∉ ks) ↔ Findable ks := by
  by_cases hne : ks = []
  · subst hne
    refine iff_of_false ?_ fun h => h.1 rfl
    rintro ⟨k, hk, -⟩
    cases hk
  obtain ⟨k₀, hk₀⟩ := List.exists_mem_of_ne_nil ks hne
  have hk₀ty := hty k₀ hk₀
  cases k₀ with
  | intInf i =>
    obtain rfl : Ty.intInf = t := by simpa [constTy] using hk₀ty
    obtain ⟨is, rfl⟩ := exists_intInfs hty
    obtain ⟨i, heq, hnot⟩ := unhandledConst_intInf (by simpa using hne)
    refine iff_of_true ⟨_, heq, rfl, by simpa using hnot⟩ ⟨hne, ?_, by simp⟩
    rintro ⟨w, hcount, -⟩
    have hmem : Const.word w ∈ is.map Const.intInf := List.count_pos_iff.1 (by omega)
    simp at hmem
  | null | real => simp [constTy] at hk₀ty
  | word w =>
    obtain rfl : Ty.word w.size = t := by simpa [constTy] using hk₀ty
    obtain ⟨ws, rfl, hsize⟩ := exists_words hty
    have hcount (w' : WordX) : (ws.map Const.word).count (.word w') = ws.count w' :=
      List.count_map_of_injective _ _ (fun _ _ h => Const.word.inj h) _
    have hmiss' : ∃ w', w'.size = w.size ∧ w' ∉ ws := by
      obtain ⟨k, hk, hnot⟩ := hmiss
      cases k with
      | word w' => exact ⟨w', by simpa [constTy] using hk, by simpa using hnot⟩
      | _ => simp [constTy] at hk
    obtain ⟨w', heq, hw', hiff⟩ := unhandledConst_words (by simpa using hne) hsize hmiss'
    rw [heq]
    constructor
    · rintro ⟨k, hk, -, hnot⟩
      cases hk
      refine ⟨hne, ?_, by simp⟩
      simpa [hcount, hiff] using hnot
    · rintro ⟨-, hrun, -⟩
      refine ⟨_, rfl, by rw [constTy, hw'], ?_⟩
      simpa [hcount, hiff] using hrun
  | wordVector v =>
    obtain rfl : Ty.wordVector v.elementSize = t := by simpa [constTy] using hk₀ty
    obtain ⟨vs, rfl, hsize⟩ := exists_wordVectors hty
    obtain ⟨hok, hspec⟩ := unhandledConst_wordVector (by simpa using hne) hsize
    constructor
    · rintro ⟨k, hk, -⟩
      refine ⟨hne, ?_, by simpa using hok.1 ⟨k, hk⟩⟩
      rintro ⟨w, hcount, -⟩
      have hmem : Const.word w ∈ vs.map Const.wordVector := List.count_pos_iff.1 (by omega)
      simp at hmem
    · rintro ⟨-, -, hlen⟩
      obtain ⟨k, hk⟩ := hok.2 (by simpa using hlen)
      obtain ⟨v', rfl, hv', hnot⟩ := hspec k hk
      exact ⟨_, hk, by rw [constTy, hv'], by simpa using hnot⟩

/-- Bytes with the constant one. -/
theorem unhandledConst_exact_one :
    let one : Const := .word (WordX.make 1 ⟨8, by decide, by decide⟩)
    (∃ k, unhandledConst [one] = .ok k ∧ constTy k = some (.word ⟨8, by decide, by decide⟩) ∧
      k ∉ [one]) ↔ Findable [one] :=
  unhandledConst_exact (fun k hk => by rw [List.mem_singleton.1 hk]; rfl)
    ⟨.word (WordX.make 0 ⟨8, by decide, by decide⟩), rfl, by decide⟩

/-- Of the bytes 0, 0 and 1 the code returns the last. -/
theorem unhandledConst_repeated :
    let s : WordSize := ⟨8, by decide, by decide⟩
    let byte (i : ℤ) : Const := .word (WordX.make i s)
    unhandledConst [byte 0, byte 0, byte 1] = .ok (byte 1) ∧
      byte 1 ∈ [byte 0, byte 0, byte 1] ∧ byte 2 ∉ [byte 0, byte 0, byte 1] := by
  intro s byte
  have hsort : ([0, 0, 1] : List ℤ).mergeSort (· ≤ ·) = [0, 0, 1] :=
    List.mergeSort_of_pairwise (by decide)
  have hsearch : search (fun i => decide (i = 0)) [0, 0, 1] = 1 := by
    rw [search, hsort]
    rfl
  have hfound : unhandledConst [byte 0, byte 0, byte 1] =
      .ok (byte (search (fun i => decide (i = 0)) [0, 0, 1])) :=
    unhandledConst_map_word (s := s) (l := [WordX.make 0 s, WordX.make 0 s, WordX.make 1 s])
      (by simp) (by simp [WordX.make])
  refine ⟨hfound.trans ?_, by decide, by decide⟩
  rw [hsearch]

end Column

end MultiMLton.MatchCompile
