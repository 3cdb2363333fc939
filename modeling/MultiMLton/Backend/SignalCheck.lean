import MultiMLton.Backend.RssaSemantics
import MultiMLton.Lib.LoopForest
import MultiMLton.Basic.StronglyConnected

/-!
# Insertion of signal checks

`backend/signal-check.fun`: a check of the heap limit, which a signal sets to zero, in front of every
loop header and at the entry of a function.

New labels and variables come from `Label.newNoname` and `Var.newNoname`; here each is named by what
it is for and by the block it is made for. Where the source raises an exception, or the loop forest does
not end, the result is `none`.

* `deleteChecks`: the function without the checks, which are taken to find no signal;
* `Trace`: what a function executes;
* `Inserted`: what is to hold of the function with checks.
-/

namespace MultiMLton.Backend

open MultiMLton.Atoms MultiMLton.Lib MultiMLton.Lib.DirectedGraph Relation

namespace SignalCheck

open Rssa

variable {F L V ν : Type}

inductive LabelRole
  | newStart
  | collect
  | collectReturn
  | dontCollect
  deriving DecidableEq

/-- `Label.newNoname` and `Var.newNoname` -/
structure Names (L V : Type) where
  label : LabelRole → L → L
  res : L → V
  label_inj : ∀ r l r' l', label r l = label r' l' → r = r' ∧ l = l'

/-- What the pass takes from `WordSize` and from the supply of names. -/
structure Settings (L V : Type) where
  csize : WordSize
  names : Names L V

/-! ### The pass -/

section Pass

variable (c : Settings L V) (b : Block F L V ν)

/-- The block that compares the limit, in the place of the block that it is made for. -/
def checkBlock : Block F L V ν where
  args := b.args
  kind := b.kind
  label := b.label
  statements := [.primApp [.runtime .limit, .const .null] (some (c.names.res b.label)) .cpointerEqual]
  transfer := .ifBool (.var (c.names.res b.label)) (c.names.label .dontCollect b.label)
    (c.names.label .collect b.label)

def collectBlock : Block F L V ν where
  args := []
  kind := .jump
  label := c.names.label .collect b.label
  statements := []
  transfer := .ccall [.gcState, .const (.word (.zero c.csize)), .const (.word (.zero boolSize)), .file,
    .line] (.gc true) (some (c.names.label .collectReturn b.label))

def collectReturnBlock : Block F L V ν where
  args := []
  kind := .creturn (.gc true)
  label := c.names.label .collectReturn b.label
  statements := []
  transfer := .goto [] (c.names.label .dontCollect b.label)

def dontCollectBlock : Block F L V ν where
  args := []
  kind := .jump
  label := c.names.label .dontCollect b.label
  statements := b.statements
  transfer := b.transfer

def addSignalCheck (extra : List (Block F L V ν)) : List (Block F L V ν) :=
  checkBlock c b :: collectBlock c b :: collectReturnBlock c b :: dontCollectBlock c b :: extra

end Pass

/-- A C call that may switch threads. -/
def maySwitchThreads : Transfer F L V ν → Bool
  | .ccall _ func _ => func.maySwitchThreads
  | _ => false

variable [DecidableEq L] (c : Settings L V) (f : Function F L V ν)

/-- Every label has a block; otherwise `labelIndex` raises an exception. -/
def Closed (f : Function F L V ν) : Prop :=
  f.start ∈ f.labels ∧ ∀ b ∈ f.blocks, ∀ l ∈ b.transfer.labels, l ∈ f.labels

instance : Decidable (Closed f) := by
  unfold Closed
  infer_instance

/-- The blocks with a label, of which there is one. -/
def blocksAt (l : L) : List (Block F L V ν) := f.blocks.filter fun b => decide (b.label = l)

/-- The control-flow graph, without the edges of calls that may switch threads. -/
def graph (h : Closed f) : DirectedGraph L where
  nodes := f.labels
  succ l := (blocksAt f l).flatMap fun b =>
    if maySwitchThreads b.transfer then [] else b.transfer.labels
  mem_of_succ l l' hl' := by
    obtain ⟨b, hb, hl'⟩ := List.mem_flatMap.1 hl'
    obtain ⟨hb, hlabel⟩ := List.mem_filter.1 hb
    split_ifs at hl' with hswitch
    · exact absurd hl' List.not_mem_nil
    · exact ⟨of_decide_eq_true hlabel ▸ List.mem_map_of_mem hb, h.2 b hb l' hl'⟩

/-- The labels that `loop` marks in `isHeader`. -/
def headers (h : Closed f) (fuel : ℕ) : Option (List L) :=
  (treeFor Basic.components fuel (fun l => decide (l = f.start)) (graph f h)).map LoopForest.headers

/-- The block of the new start. -/
def startBlock : Block F L V ν where
  args := []
  kind := .jump
  label := c.names.label .newStart f.start
  statements := []
  transfer := .goto [] f.start

/-- The blocks that get a check. -/
def checkedBlocks (headers : List L) : List (Block F L V ν) :=
  startBlock c f :: headers.filterMap (block? f)

def insertAt (headers : List L) : Function F L V ν :=
  { f with
    blocks := (f.blocks.filter fun b => !decide (b.label ∈ headers)) ++
      (checkedBlocks c f headers).foldl (fun extra b => addSignalCheck c b extra) []
    start := c.names.label .newStart f.start }

def insertInFunction (fuel : ℕ) : Option (Function F L V ν) :=
  if h : Closed f then (headers f h fuel).map (insertAt c f) else none

/-- `SignalCheck.insert` -/
def insert (handlesSignals : Bool) (p : Program F L V ν) (fuel : ℕ) : Option (Program F L V ν) :=
  if handlesSignals then do
    let functions ← p.functions.mapM fun f => insertInFunction c f fuel
    some { p with functions := functions.reverse }
  else some p

/-! ### Deleting the checks -/

section Delete

variable (headers : List L)

/-- The labels of the blocks behind a check. -/
def insertedLabels (l : L) : List L :=
  [c.names.label .collect l, c.names.label .collectReturn l, c.names.label .dontCollect l]

/-- The block that a check leads to without a signal. -/
def noSignal (b : Block F L V ν) : Option (Block F L V ν) :=
  match b.transfer with
  | .switch sw => (sw.goesTo 0).bind (block? f)
  | _ => none

/-- The block without its check. -/
def withoutCheck (b : Block F L V ν) : Block F L V ν :=
  match noSignal f b with
  | some b' => { b with statements := b'.statements, transfer := b'.transfer }
  | none => b

/-- The function without the blocks of the new start and without those of the checks at `headers`. -/
def deleteChecks : Function F L V ν :=
  { f with
    blocks := (f.blocks.filter fun b =>
        !decide (b.label ∈ f.start :: (f.start :: headers).flatMap (insertedLabels c))).map fun b =>
      if b.label ∈ headers then withoutCheck f b else b
    start := match (block? f f.start).bind (noSignal f) with
      | some ⟨_, _, _, _, .goto _ l⟩ => l
      | _ => f.start }

end Delete

/-! ### Traces -/

/-- What statements do, and where and how transfers continue, in states of any kind. A block is
entered by its arguments, its kind and its label. -/
structure Meaning (F L V ν S : Type) where
  exec : Statement V L ν → S → S → Prop
  goes : Transfer F L V ν → S → List V → Kind L → L → S → Prop

/-- What is executed. -/
inductive Event (F L V ν : Type)
  | statement (st : Statement V L ν)
  | transfer (t : Transfer F L V ν)

/-- What may be executed, with the states before, from the statements and the transfer of a block on. -/
inductive Trace {S : Type} (M : Meaning F L V ν S) (blocks : List (Block F L V ν)) :
    List (Statement V L ν) → Transfer F L V ν → S → List (Event F L V ν × S) → Prop
  | stop {sts t s} : Trace M blocks sts t s []
  | statement {st sts t s s' es} (h : M.exec st s s') (htrace : Trace M blocks sts t s' es) :
    Trace M blocks (st :: sts) t s ((.statement st, s) :: es)
  | leave {t s} : Trace M blocks [] t s [(.transfer t, s)]
  | transfer {t s s' es} {b : Block F L V ν} (hb : b ∈ blocks) (hl : b.label ∈ t.labels)
    (h : M.goes t s b.args b.kind b.label s')
    (htrace : Trace M blocks b.statements b.transfer s' es) :
    Trace M blocks [] t s ((.transfer t, s) :: es)

/-- The traces of a function. -/
def Traces {S : Type} (M : Meaning F L V ν S) (f : Function F L V ν) (s : S)
    (es : List (Event F L V ν × S)) : Prop :=
  ∃ b ∈ f.blocks, b.label = f.start ∧ Trace M f.blocks b.statements b.transfer s es

/-! ### The statement -/

/-- The edges of the control-flow graph, without exception. -/
def Follows (f : Function F L V ν) (l l' : L) : Prop :=
  ∃ b ∈ f.blocks, b.label = l ∧ l' ∈ b.transfer.labels

/-- The function is closed, and the labels of its blocks are different from each other and from new
ones. -/
structure WellFormed : Prop where
  closed : Closed f
  nodup : f.labels.Nodup
  fresh : ∀ r l, c.names.label r l ∉ f.labels

/-- Every block is reachable, and a C call returns to a block of its own kind. -/
structure Entered : Prop where
  reachable : ∀ l ∈ f.labels, ReflTransGen (Follows f) f.start l
  kinds : ∀ b ∈ f.blocks, ∀ b' ∈ f.blocks, b'.label ∈ b.transfer.labels → ∀ func,
    (b'.kind = .creturn func ↔ ∃ args ret, b.transfer = .ccall args func ret)

/-- The label is that of an inserted check. -/
def IsCheck (f' : Function F L V ν) (l : L) : Prop :=
  ∃ b ∈ startBlock c f :: f.blocks, b.label = l ∧ checkBlock c b ∈ f'.blocks

end SignalCheck

end MultiMLton.Backend

/-!
## Signal checks break loops and change nothing else

* `mem_insertAt`: the blocks of the function with checks;
* `mem_deleteChecks`: without the checks the blocks are those of the function again;
* `follows_insertAt`: the edges between blocks without a check are edges of the function;
* `insertInFunction_correct`: every cycle passes through a check or through a call that may switch
  threads, and traces are the same without the checks.
-/

namespace MultiMLton.Backend

open MultiMLton.Atoms MultiMLton.Lib MultiMLton.Lib.DirectedGraph Relation

namespace SignalCheck

open Rssa

variable {F L V ν : Type} [DecidableEq L] {c : Settings L V} {f : Function F L V ν} {hs : List L}

/-! ### Blocks -/

/-- The blocks that come from checks. -/
inductive Inserted (c : Settings L V) (b : Block F L V ν) : Block F L V ν → Prop
  | check : Inserted c b (checkBlock c b)
  | collect : Inserted c b (collectBlock c b)
  | collectReturn : Inserted c b (collectReturnBlock c b)
  | dontCollect : Inserted c b (dontCollectBlock c b)

variable {b' : Block F L V ν}

omit [DecidableEq L] in
theorem mem_foldl_addSignalCheck {bs extra : List (Block F L V ν)} :
    b' ∈ bs.foldl (fun extra b => addSignalCheck c b extra) extra ↔
      (∃ b ∈ bs, Inserted c b b') ∨ b' ∈ extra := by
  induction bs generalizing extra with
  | nil => simp
  | cons b bs ih =>
    have hb : b' ∈ addSignalCheck c b extra ↔ Inserted c b b' ∨ b' ∈ extra := by
      simp only [addSignalCheck, List.mem_cons]
      constructor
      · rintro (rfl | rfl | rfl | rfl | hmem)
        · exact .inl .check
        · exact .inl .collect
        · exact .inl .collectReturn
        · exact .inl .dontCollect
        · exact .inr hmem
      · rintro (h | hmem)
        · cases h <;> simp
        · simp [hmem]
    rw [List.foldl_cons, ih, hb, List.exists_mem_cons_iff, or_left_comm, or_assoc, or_left_comm]

theorem mem_insertAt : b' ∈ (insertAt c f hs).blocks ↔
    (b' ∈ f.blocks ∧ b'.label ∉ hs) ∨ ∃ b ∈ checkedBlocks c f hs, Inserted c b b' := by
  simp only [insertAt, List.mem_append, List.mem_filter, Bool.not_eq_true', decide_eq_false_iff_not,
    mem_foldl_addSignalCheck, List.not_mem_nil, or_false]

variable {b : Block F L V ν}

/-- A block that gets a check is that of the new start, or one of the function. -/
theorem mem_checkedBlocks (h : b ∈ checkedBlocks c f hs) :
    b = startBlock c f ∨ (b ∈ f.blocks ∧ b.label ∈ hs) := by
  rcases List.mem_cons.1 h with rfl | h
  · exact .inl rfl
  · obtain ⟨l, hl, hb⟩ := List.mem_filterMap.1 h
    obtain ⟨hmem, rfl⟩ := block?_spec hb
    exact .inr ⟨hmem, hl⟩

theorem isCheck_of_checked (h : b ∈ checkedBlocks c f hs) :
    IsCheck c f (insertAt c f hs) b.label := by
  refine ⟨b, ?_, rfl, mem_insertAt.2 (.inr ⟨b, h, .check⟩)⟩
  rcases mem_checkedBlocks h with rfl | ⟨hmem, -⟩
  · exact List.mem_cons_self
  · exact List.mem_cons_of_mem _ hmem

theorem checkedBlocks_labels (h : b ∈ checkedBlocks c f hs) {l : L}
    (hl : l ∈ b.transfer.labels) (hf : WellFormed c f) : l ∈ f.labels := by
  rcases mem_checkedBlocks h with rfl | ⟨hb, -⟩
  · obtain rfl : l = f.start := by simpa [startBlock, Transfer.labels, Transfer.jumps] using hl
    exact hf.closed.1
  · exact hf.closed.2 b hb l hl

section

variable (hf : WellFormed c f)

include hf

/-- There is one block with a label. -/
theorem block?_eq (hb : b ∈ f.blocks) : block? f b.label = some b := by
  obtain ⟨b', hb'⟩ := exists_block? (List.mem_map_of_mem (f := Block.label) hb)
  obtain ⟨hmem, hlabel⟩ := block?_spec hb'
  rw [hb', List.inj_on_of_nodup_map hf.nodup hmem hb hlabel]

theorem mem_checkedBlocks_of_mem (hb : b ∈ f.blocks)
    (hmem : b.label ∈ hs) : b ∈ checkedBlocks c f hs :=
  List.mem_cons_of_mem _ (List.mem_filterMap.2 ⟨b.label, hmem, block?_eq hf hb⟩)

theorem checkedBlocks_inj {b b' : Block F L V ν}
    (hb : b ∈ checkedBlocks c f hs) (hb' : b' ∈ checkedBlocks c f hs) (hl : b.label = b'.label) :
    b = b' := by
  have hnew {b : Block F L V ν} (hb : b ∈ f.blocks) : b.label ≠ (startBlock c f).label :=
    fun heq => hf.fresh .newStart f.start (List.mem_map.2 ⟨b, hb, heq⟩)
  rcases mem_checkedBlocks hb with rfl | ⟨hb, -⟩ <;>
    rcases mem_checkedBlocks hb' with rfl | ⟨hb', -⟩
  · rfl
  · exact absurd hl.symm (hnew hb')
  · exact absurd hl (hnew hb)
  · exact List.inj_on_of_nodup_map hf.nodup hb hb' hl

/-- A block with a new label comes from a check. -/
theorem exists_inserted (h : b' ∈ (insertAt c f hs).blocks) {r : LabelRole} {l : L}
    (hl : b'.label = c.names.label r l) : ∃ b ∈ checkedBlocks c f hs, Inserted c b b' := by
  refine (mem_insertAt.1 h).resolve_left ?_
  rintro ⟨hmem, -⟩
  exact hf.fresh r l (List.mem_map.2 ⟨b', hmem, hl⟩)

/-- The label of a block that gets a check is none of those behind it. -/
theorem checkedBlocks_label_ne
    (hb : b ∈ checkedBlocks c f hs) {r : LabelRole} (hr : r ≠ .newStart) (l : L) :
    b.label ≠ c.names.label r l := by
  intro heq
  rcases mem_checkedBlocks hb with rfl | ⟨hb, -⟩
  · exact hr (c.names.label_inj _ _ _ _ heq).1.symm
  · exact hf.fresh r l (List.mem_map.2 ⟨b, hb, heq⟩)

/-! ### Cycles -/

/-- Where an edge to a new label comes from. -/
theorem follows_new {l l' : L} {r : LabelRole}
    (h : Follows (insertAt c f hs) l (c.names.label r l')) :
    IsCheck c f (insertAt c f hs) l ∨ (r = .collectReturn ∧ l = c.names.label .collect l') ∨
      (r = .dontCollect ∧ l = c.names.label .collectReturn l') := by
  obtain ⟨b', hb', rfl, hl⟩ := h
  rcases mem_insertAt.1 hb' with ⟨hmem, -⟩ | ⟨b, hb, hins⟩
  · exact absurd (hf.closed.2 b' hmem _ hl) (hf.fresh r l')
  · cases hins with
    | check => exact .inl (isCheck_of_checked (b := b) hb)
    | collect =>
      have hl := List.mem_singleton.1 hl
      obtain ⟨rfl, rfl⟩ := c.names.label_inj _ _ _ _ hl
      exact .inr (.inl ⟨rfl, rfl⟩)
    | collectReturn =>
      have hl := List.mem_singleton.1 hl
      obtain ⟨rfl, rfl⟩ := c.names.label_inj _ _ _ _ hl
      exact .inr (.inr ⟨rfl, rfl⟩)
    | dontCollect => exact absurd (checkedBlocks_labels hb hl hf) (hf.fresh r l')

end

/-- A block is one of the function without a check, an inserted check, or has a new label. -/
theorem mem_insertAt_cases (h : b' ∈ (insertAt c f hs).blocks) :
    (b' ∈ f.blocks ∧ b'.label ∉ hs) ∨ IsCheck c f (insertAt c f hs) b'.label ∨
      ∃ r l, b'.label = c.names.label r l := by
  rcases mem_insertAt.1 h with hmem | ⟨b, hb, hins⟩
  · exact .inl hmem
  · cases hins with
    | check => exact .inr (.inl (isCheck_of_checked (b := b) hb))
    | collect => exact .inr (.inr ⟨.collect, b.label, rfl⟩)
    | collectReturn => exact .inr (.inr ⟨.collectReturn, b.label, rfl⟩)
    | dontCollect => exact .inr (.inr ⟨.dontCollect, b.label, rfl⟩)

theorem isCheck_of_mem (hf : WellFormed c f) {l : L} (hl : l ∈ f.labels) (hmem : l ∈ hs) :
    IsCheck c f (insertAt c f hs) l := by
  obtain ⟨b, hb, rfl⟩ := List.mem_map.1 hl
  exact isCheck_of_checked (mem_checkedBlocks_of_mem hf hb hmem)

/-- A cycle that passes through no check has no new label. -/
theorem ne_new_of_chain (hf : WellFormed c f) {w : Cycle L}
    (hw : w.Chain (Follows (insertAt c f hs)))
    (hcheck : ∀ l ∈ w, ¬ IsCheck c f (insertAt c f hs) l) (r : LabelRole) (l : L) : c.names.label r l ∉ w := by
  have hpred {r : LabelRole} {l : L} (hmem : c.names.label r l ∈ w) :
      (r = .collectReturn ∧ c.names.label .collect l ∈ w) ∨
        (r = .dontCollect ∧ c.names.label .collectReturn l ∈ w) := by
    obtain ⟨p, hp, hedge⟩ := exists_pred_of_chain hw hmem
    rcases follows_new hf hedge with h | ⟨hr, rfl⟩ | ⟨hr, rfl⟩
    · exact absurd h (hcheck p hp)
    · exact .inl ⟨hr, hp⟩
    · exact .inr ⟨hr, hp⟩
  have hcollect (l : L) : c.names.label .collect l ∉ w := by
    intro hmem
    rcases hpred hmem with ⟨hr, -⟩ | ⟨hr, -⟩ <;> cases hr
  have hreturn (l : L) : c.names.label .collectReturn l ∉ w := by
    intro hmem
    rcases hpred hmem with ⟨-, hmem⟩ | ⟨hr, -⟩
    · exact hcollect l hmem
    · cases hr
  intro hmem
  rcases hpred hmem with ⟨-, hmem⟩ | ⟨-, hmem⟩
  · exact hcollect l hmem
  · exact hreturn l hmem

theorem edge_graph {h : Closed f} {l l' : L} : (graph f h).Edge l l' ↔
    ∃ b ∈ f.blocks, b.label = l ∧ maySwitchThreads b.transfer = false ∧ l' ∈ b.transfer.labels := by
  simp only [Edge, graph, blocksAt, List.mem_flatMap, List.mem_filter, decide_eq_true_eq,
    and_assoc]
  refine exists_congr fun b => and_congr_right fun _ => and_congr_right fun _ => ?_
  cases maySwitchThreads b.transfer <;> simp

section

variable (hf : WellFormed c f)

include hf

/-- Every cycle passes through a check, or through a call that may switch threads. -/
theorem insertAt_cut {fuel : ℕ} (hhs : headers f hf.closed fuel = some hs)
    {w : Cycle L} (hne : w ≠ Cycle.nil) (hw : w.Chain (Follows (insertAt c f hs))) :
    ∃ l ∈ w, IsCheck c f (insertAt c f hs) l ∨ ∃ b ∈ f.blocks, b ∈ (insertAt c f hs).blocks ∧
      b.label = l ∧ maySwitchThreads b.transfer = true := by
  by_contra hall
  push Not at hall
  have hcheck : ∀ l ∈ w, ¬ IsCheck c f (insertAt c f hs) l := fun l hl => (hall l hl).1
  obtain ⟨forest, hforest, rfl⟩ := Option.map_eq_some_iff.1 hhs
  -- what is left are edges of the graph, into nodes that are no headers
  have hedge : ∀ l ∈ w, ∀ l' ∈ w, Follows (insertAt c f forest.headers) l l' →
      TransGen (fun x y => (graph f hf.closed).Edge x y ∧ ¬ forest.HasHeader y) l l' := by
    rintro l hl l' hl' ⟨b, hb, rfl, hlabels⟩
    rcases mem_insertAt_cases hb with ⟨hmem, -⟩ | hins | ⟨r, k, heq⟩
    · have hswitch : maySwitchThreads b.transfer = false := by
        simpa using (hall _ hl).2 b hmem hb rfl
      refine .single ⟨edge_graph.2 ⟨b, hmem, rfl, hswitch, hlabels⟩, fun hheader => ?_⟩
      exact hcheck l' hl' (isCheck_of_mem hf (hf.closed.2 b hmem l' hlabels) hheader.mem_headers)
    · exact absurd hins (hcheck _ hl)
    · exact absurd (heq ▸ hl) (ne_new_of_chain hf hw hcheck r k)
  obtain ⟨l, hl, -⟩ := exists_edge_of_chain hw hne
  exact acyclic_of_treeFor (fun g => (Basic.components_spec g).2.components) hforest l
    (Cycle.chain_iff_pairwise.1 (chain_imp hw hedge) l hl l hl)

/-! ### Without the checks -/

/-- The blocks behind a check are found by their labels. -/
theorem block?_dontCollect (hb : b ∈ checkedBlocks c f hs) :
    block? (insertAt c f hs) (c.names.label .dontCollect b.label) = some (dontCollectBlock c b) := by
  obtain ⟨b', hb'⟩ := exists_block? (f := insertAt c f hs)
    (l := c.names.label .dontCollect b.label) (List.mem_map.2 ⟨dontCollectBlock c b,
      mem_insertAt.2 (.inr ⟨b, hb, .dontCollect⟩), rfl⟩)
  obtain ⟨hmem, hlabel⟩ := block?_spec hb'
  rw [hb']
  obtain ⟨b₁, hb₁, hins⟩ := exists_inserted hf hmem hlabel
  cases hins with
  | check => exact absurd hlabel (checkedBlocks_label_ne hf hb₁ (r := .dontCollect) nofun _)
  | collect | collectReturn => cases (c.names.label_inj _ _ _ _ hlabel).1
  | dontCollect => rw [checkedBlocks_inj hf hb₁ hb (c.names.label_inj _ _ _ _ hlabel).2]

theorem noSignal_checkBlock (hb : b ∈ checkedBlocks c f hs) :
    noSignal (insertAt c f hs) (checkBlock c b) = some (dontCollectBlock c b) := by
  have hgoes : Switch.goesTo (V := V) ⟨[(.zero boolSize, c.names.label .dontCollect b.label),
      (.one boolSize, c.names.label .collect b.label)], none, boolSize, .var (c.names.res b.label)⟩ 0 =
      some (c.names.label .dontCollect b.label) := rfl
  simp only [noSignal, checkBlock, Transfer.ifBool, hgoes, Option.bind_some]
  exact block?_dontCollect hf hb

theorem withoutCheck_checkBlock
    (hb : b ∈ checkedBlocks c f hs) : withoutCheck (insertAt c f hs) (checkBlock c b) = b := by
  rw [withoutCheck, noSignal_checkBlock hf hb]
  rfl

theorem block?_start :
    block? (insertAt c f hs) (insertAt c f hs).start = some (checkBlock c (startBlock c f)) := by
  have hstart : startBlock c f ∈ checkedBlocks c f hs := List.mem_cons_self
  obtain ⟨b', hb'⟩ := exists_block? (f := insertAt c f hs) (l := (insertAt c f hs).start)
    (List.mem_map.2 ⟨checkBlock c (startBlock c f),
      mem_insertAt.2 (.inr ⟨_, hstart, .check⟩), rfl⟩)
  obtain ⟨hmem, hlabel⟩ := block?_spec hb'
  rw [hb']
  obtain ⟨b, hb, hins⟩ := exists_inserted hf hmem hlabel
  cases hins with
  | check => rw [checkedBlocks_inj hf hb hstart hlabel]
  | collect | collectReturn | dontCollect => cases (c.names.label_inj _ _ _ _ hlabel).1

theorem start_deleteChecks : (deleteChecks c (insertAt c f hs) hs).start = f.start := by
  simp only [deleteChecks, block?_start hf, Option.bind_some,
    noSignal_checkBlock hf (List.mem_cons_self : startBlock c f ∈ checkedBlocks c f hs)]
  rfl

/-- The labels of the function are not deleted. -/
theorem notMem_inserted {l : L} (hl : l ∈ f.labels) :
    l ∉ (insertAt c f hs).start :: ((insertAt c f hs).start :: hs).flatMap (insertedLabels c) := by
  intro h
  rcases List.mem_cons.1 h with rfl | h
  · exact hf.fresh _ _ hl
  · obtain ⟨k, -, hk⟩ := List.mem_flatMap.1 h
    simp only [insertedLabels, List.mem_cons, List.not_mem_nil, or_false] at hk
    rcases hk with rfl | rfl | rfl <;> exact hf.fresh _ _ hl

end

/-- The labels of blocks behind a check are deleted. -/
theorem mem_inserted (hb : b ∈ checkedBlocks c f hs) {l : L} (hl : l ∈ insertedLabels c b.label) :
    l ∈ (insertAt c f hs).start :: ((insertAt c f hs).start :: hs).flatMap (insertedLabels c) := by
  refine List.mem_cons_of_mem _ (List.mem_flatMap.2 ⟨b.label, ?_, hl⟩)
  rcases mem_checkedBlocks hb with rfl | ⟨-, hmem⟩
  · exact List.mem_cons_self
  · exact List.mem_cons_of_mem _ hmem

theorem mem_deleteChecks (hf : WellFormed c f) :
    b ∈ (deleteChecks c (insertAt c f hs) hs).blocks ↔ b ∈ f.blocks := by
  simp only [deleteChecks, List.mem_map, List.mem_filter, Bool.not_eq_true',
    decide_eq_false_iff_not]
  constructor
  · rintro ⟨b', ⟨hb', hnot⟩, rfl⟩
    rcases mem_insertAt.1 hb' with ⟨hmem, hlabel⟩ | ⟨b, hb, hins⟩
    · rwa [if_neg hlabel]
    · cases hins with
      | check =>
        rcases mem_checkedBlocks hb with rfl | ⟨hmem, hlabel⟩
        · exact absurd List.mem_cons_self hnot
        · rw [if_pos (show (checkBlock c b).label ∈ hs from hlabel), withoutCheck_checkBlock hf hb]
          exact hmem
      | collect => exact absurd (mem_inserted hb (by simp [insertedLabels, collectBlock])) hnot
      | collectReturn =>
        exact absurd (mem_inserted hb (by simp [insertedLabels, collectReturnBlock])) hnot
      | dontCollect =>
        exact absurd (mem_inserted hb (by simp [insertedLabels, dontCollectBlock])) hnot
  · intro hb
    have hnot := @notMem_inserted _ _ _ _ _ c f hs hf _ (List.mem_map_of_mem (f := Block.label) hb)
    by_cases hmem : b.label ∈ hs
    · have hchecked := mem_checkedBlocks_of_mem hf hb hmem
      refine ⟨checkBlock c b, ⟨mem_insertAt.2 (.inr ⟨b, hchecked, .check⟩), hnot⟩, ?_⟩
      rw [if_pos (show (checkBlock c b).label ∈ hs from hmem), withoutCheck_checkBlock hf hchecked]
    · exact ⟨b, ⟨mem_insertAt.2 (.inl ⟨hb, hmem⟩), hnot⟩, if_neg hmem⟩

omit [DecidableEq L] in
/-- Traces depend on which blocks there are. -/
theorem Trace.mono {S : Type} {M : Meaning F L V ν S} {blocks blocks' : List (Block F L V ν)}
    (hsub : ∀ b ∈ blocks, b ∈ blocks') {sts : List (Statement V L ν)} {t : Transfer F L V ν} {s : S}
    {es : List (Event F L V ν × S)} (h : Trace M blocks sts t s es) : Trace M blocks' sts t s es := by
  induction h with
  | stop => exact .stop
  | statement h _ ih => exact .statement h ih
  | leave => exact .leave
  | transfer hb hl h _ ih => exact .transfer (hsub _ hb) hl h ih

theorem traces_deleteChecks (hf : WellFormed c f) {S : Type} (M : Meaning F L V ν S) (s : S)
    (es : List (Event F L V ν × S)) :
    Traces M (deleteChecks c (insertAt c f hs) hs) s es ↔ Traces M f s es := by
  simp only [Traces, start_deleteChecks hf]
  constructor
  · rintro ⟨b, hb, hl, h⟩
    exact ⟨b, (mem_deleteChecks hf).1 hb, hl, h.mono fun b hb => (mem_deleteChecks hf).1 hb⟩
  · rintro ⟨b, hb, hl, h⟩
    exact ⟨b, (mem_deleteChecks hf).2 hb, hl, h.mono fun b hb => (mem_deleteChecks hf).2 hb⟩

/-! ### The function with checks -/

/-- Checks are at the new start and at headers. -/
theorem mem_of_isCheck (hf : WellFormed c f) {l : L} (hl : l ∈ f.labels)
    (h : IsCheck c f (insertAt c f hs) l) : l ∈ hs := by
  obtain ⟨b, -, rfl, hmem⟩ := h
  have hnew (r : LabelRole) (l : L) : b.label ≠ c.names.label r l :=
    fun heq => hf.fresh r l (heq ▸ hl)
  rcases mem_insertAt.1 hmem with ⟨hmem, -⟩ | ⟨b', hb', hins⟩
  · exact absurd (hf.closed.2 _ hmem (c.names.label .collect b.label) (by
      simp [checkBlock, Transfer.ifBool, Transfer.labels, Transfer.jumps, Switch.labels]))
      (hf.fresh _ _)
  · generalize heq : checkBlock c b = b'' at hins
    have hlabel : b.label = b''.label := heq ▸ rfl
    cases hins with
    | check =>
      rcases mem_checkedBlocks hb' with rfl | ⟨-, hmem⟩
      · exact absurd hlabel (hnew _ _)
      · exact hlabel ▸ hmem
    | collect | collectReturn | dontCollect => exact absurd hlabel (hnew _ _)

omit [DecidableEq L] in
/-- Without a signal, a check only writes its register. -/
theorem steps_checkBlock [DecidableEq V] {m : Machine} {blocks : List (Block F L V ν)}
    (hmem : dontCollectBlock c b ∈ blocks) {s : State V} (hs : s.limit ≠ 0) :
    ReflTransGen (Step m blocks) (.enter (checkBlock c b), s)
      (.enter (dontCollectBlock c b), s.assign (c.names.res b.label) 0) := by
  have hexec : Step m blocks (.enter (checkBlock c b), s)
      (.at (checkBlock c b) [], s.assign (c.names.res b.label) 0) := by
    refine .exec (.primApp (v := 0) ?_)
    simpa [PrimResult, State.eval] using hs
  refine .head hexec (.single (.switch rfl hmem ?_ ?_))
  · simp [Switch.goesTo, State.eval, State.assign, dontCollectBlock]
  · intro r amount hcheck
    cases hcheck with
    | limit hstatements _ | heap hstatements _ _ _ => cases hstatements

/-- Where every block is reachable, each is reachable in the graph from the start, or from a block that
a call that may switch threads returns to. -/
theorem entered_graph (hf : WellFormed c f) (h : Entered f) :
    (graph f hf.closed).Entered fun l => decide (l = f.start) := by
  intro l hl
  have hreach := h.reachable l hl
  clear hl
  induction hreach with
  | refl => exact ⟨f.start, hf.closed.1, .inl (decide_eq_true rfl), .refl⟩
  | @tail l l' hll' hedge ih =>
    obtain ⟨b, hb, rfl, hl'⟩ := hedge
    cases hswitch : maySwitchThreads b.transfer with
    | false =>
      obtain ⟨e, he, hentry, hreach⟩ := ih
      exact ⟨e, he, hentry, hreach.tail (edge_graph.2 ⟨b, hb, rfl, hswitch, hl'⟩)⟩
    | true =>
      refine ⟨l', hf.closed.2 b hb l' hl', .inr fun x hx => ?_, .refl⟩
      obtain ⟨b', hb', rfl⟩ := List.mem_map.1 (hf.closed.2 b hb l' hl')
      obtain ⟨b₁, hb₁, rfl, hnot, hl₁⟩ := edge_graph.1 hx
      -- what a C call returns to is for calls of its function only
      cases htransfer : b.transfer with
      | ccall args func ret =>
        have hkind := (h.kinds b hb b' hb' hl' func).2 ⟨args, ret, htransfer⟩
        obtain ⟨args₁, ret₁, htransfer₁⟩ := (h.kinds b₁ hb₁ b' hb' hl₁ func).1 hkind
        simp only [htransfer, htransfer₁, maySwitchThreads] at hswitch hnot
        rw [hswitch] at hnot
        cases hnot
      | _ => simp [htransfer, maySwitchThreads] at hswitch

theorem insertInFunction_total (hf : WellFormed c f) (h : Entered f) :
    ∃ f', ∀ fuel, f.blocks.length < fuel → insertInFunction c f fuel = some f' := by
  obtain ⟨forest, hforest, -⟩ := nests_of_treeFor
    (fun g => (Basic.components_spec g).2.components) (fun g => (Basic.components_spec g).2.nodup)
    (entered_graph hf h)
  refine ⟨insertAt c f forest.headers, fun fuel hfuel => ?_⟩
  rw [insertInFunction, dif_pos hf.closed, headers, hforest fuel (by simpa [graph, Function.labels])]
  rfl

variable (c f) in
/-- What is to hold of the function with checks at the headers `hs`. -/
structure Checks (hs : List L) (f' : Function F L V ν) : Prop where
  /-- Every cycle passes through a check, or through a call that may switch threads. -/
  cut : ∀ w : Cycle L, w ≠ Cycle.nil → w.Chain (Follows f') → ∃ l ∈ w, IsCheck c f f' l ∨
    ∃ b ∈ f.blocks, b ∈ f'.blocks ∧ b.label = l ∧ maySwitchThreads b.transfer = true
  /-- Without the checks the same is executed. -/
  traces : ∀ (S : Type) (M : Meaning F L V ν S) (s : S) (es : List (Event F L V ν × S)),
    Traces M (deleteChecks c f' hs) s es ↔ Traces M f s es
  /-- A check that finds no signal goes on with what it is for. -/
  steps : ∀ [DecidableEq V] (m : Machine), ∀ b ∈ checkedBlocks c f hs, ∀ s : State V, s.limit ≠ 0 →
    ReflTransGen (Step m f'.blocks) (.enter (checkBlock c b), s)
      (.enter (dontCollectBlock c b), s.assign (c.names.res b.label) 0)

theorem insertAt_checks (hf : WellFormed c f) {fuel : ℕ} (hhs : headers f hf.closed fuel = some hs) :
    Checks c f hs (insertAt c f hs) where
  cut _ hne hw := insertAt_cut hf hhs hne hw
  traces _ M s es := traces_deleteChecks hf M s es
  steps _ b hb _ hs := steps_checkBlock (mem_insertAt.2 (.inr ⟨b, hb, .dontCollect⟩)) hs

theorem checks_of_insertInFunction (hf : WellFormed c f) {fuel : ℕ} {f' : Function F L V ν}
    (h : insertInFunction c f fuel = some f') :
    ∃ hs, headers f hf.closed fuel = some hs ∧ Checks c f hs f' := by
  rw [insertInFunction, dif_pos hf.closed, Option.map_eq_some_iff] at h
  obtain ⟨hs, hhs, rfl⟩ := h
  exact ⟨hs, hhs, insertAt_checks hf hhs⟩

/-- What the pass returns has checks at the headers of loops; and it returns a function where every
block is reachable. -/
theorem insertInFunction_correct (hf : WellFormed c f) :
    (∀ fuel f', insertInFunction c f fuel = some f' →
      ∃ hs, headers f hf.closed fuel = some hs ∧ Checks c f hs f') ∧
    (Entered f → ∃ f', ∀ fuel, f.blocks.length < fuel → insertInFunction c f fuel = some f') :=
  ⟨fun _ _ => checks_of_insertInFunction hf, insertInFunction_total hf⟩

/-! ### A loop, and one through a call that may switch threads -/

section Example

/-- A number, or a new label of what is made for a block. -/
abbrev ExampleLabel := ℕ × List LabelRole

def exampleSettings : Settings ExampleLabel ExampleLabel where
  csize := ⟨64, by decide, by decide⟩
  names :=
    { label := fun r l => (l.1, r :: l.2)
      res := fun l => l
      label_inj := by
        rintro r ⟨n, rs⟩ r' ⟨n', rs'⟩ h
        simp only [Prod.mk.injEq, List.cons.injEq] at h
        exact ⟨h.2.1, Prod.ext h.1 h.2.2⟩ }

/-- A loop of one block, then `while true do GC.collect ()`. -/
def exampleFunction : Function Unit ExampleLabel ExampleLabel Empty where
  args := []
  blocks :=
    [⟨[], .jump, (0, []), [], .goto [] (1, [])⟩,
      ⟨[], .jump, (1, []), [], .ifBool (.var (0, [])) (1, []) (2, [])⟩,
      ⟨[], .jump, (2, []), [], .ccall [] (.gc true) (some (3, []))⟩,
      ⟨[], .creturn (.gc true), (3, []), [], .goto [] (2, [])⟩]
  name := ()
  start := (0, [])

theorem example_wellFormed : WellFormed exampleSettings exampleFunction where
  closed := by decide
  nodup := by decide
  fresh r l := by simp [exampleSettings, exampleFunction, Function.labels]

theorem example_entered : Entered exampleFunction where
  reachable := by
    have h1 : ReflTransGen (Follows exampleFunction) (0, []) (1, []) :=
      .single (by simp [Follows, exampleFunction, Transfer.labels, Transfer.jumps])
    have h2 : ReflTransGen (Follows exampleFunction) (0, []) (2, []) :=
      h1.tail (by simp [Follows, exampleFunction, Transfer.labels, Transfer.jumps,
        Transfer.ifBool, Switch.labels])
    have h3 : ReflTransGen (Follows exampleFunction) (0, []) (3, []) :=
      h2.tail (by simp [Follows, exampleFunction, Transfer.labels, Transfer.jumps])
    simpa [exampleFunction, Function.labels] using ⟨ReflTransGen.refl, h1, h2, h3⟩
  kinds := by
    simp [exampleFunction, Transfer.labels, Transfer.jumps, Transfer.ifBool, Switch.labels]

theorem example_headers : headers exampleFunction example_wellFormed.closed 5 = some [(1, [])] := by
  decide

theorem insertInFunction_correct_example : ∃ hs f',
    insertInFunction exampleSettings exampleFunction 5 = some f' ∧
      Checks exampleSettings exampleFunction hs f' := by
  obtain ⟨hall, htotal⟩ := insertInFunction_correct example_wellFormed
  obtain ⟨f', hf'⟩ := htotal example_entered
  have h := hf' 5 (by decide)
  obtain ⟨hs, -, hchecks⟩ := hall 5 f' h
  exact ⟨hs, f', h, hchecks⟩

/-- The loop through the call gets no check. -/
theorem insertInFunction_uncut : WellFormed exampleSettings exampleFunction ∧
    Entered exampleFunction ∧ ∃ f', insertInFunction exampleSettings exampleFunction 5 = some f' ∧
      ∃ w : Cycle ExampleLabel, w ≠ Cycle.nil ∧ w.Chain (Follows f') ∧
        ∀ l ∈ w, ¬ IsCheck exampleSettings exampleFunction f' l := by
  have hnot {l : ExampleLabel} (hl : l ∈ exampleFunction.labels) (hne : l ≠ (1, [])) :
      ¬ IsCheck exampleSettings exampleFunction (insertAt exampleSettings exampleFunction [(1, [])]) l :=
    fun h => hne (List.mem_singleton.1 (mem_of_isCheck example_wellFormed hl h))
  refine ⟨example_wellFormed, example_entered, insertAt exampleSettings exampleFunction [(1, [])], ?_,
    ([(2, []), (3, [])] : List ExampleLabel), by simp, ?_, ?_⟩
  · rw [insertInFunction, dif_pos example_wellFormed.closed, example_headers]
    rfl
  · have h23 : Follows (insertAt exampleSettings exampleFunction [(1, [])]) (2, []) (3, []) :=
      ⟨⟨[], .jump, (2, []), [], .ccall [] (.gc true) (some (3, []))⟩,
        mem_insertAt.2 (.inl ⟨by simp [exampleFunction], by decide⟩), rfl, List.mem_singleton.2 rfl⟩
    have h32 : Follows (insertAt exampleSettings exampleFunction [(1, [])]) (3, []) (2, []) :=
      ⟨⟨[], .creturn (.gc true), (3, []), [], .goto [] (2, [])⟩,
        mem_insertAt.2 (.inl ⟨by simp [exampleFunction], by decide⟩), rfl, List.mem_singleton.2 rfl⟩
    simpa [Cycle.chain_coe_cons] using ⟨h23, h32⟩
  · intro l hl
    rcases List.mem_cons.1 (Cycle.mem_coe_iff.1 hl) with rfl | hl
    · exact hnot (by decide) (by decide)
    · obtain rfl := List.mem_singleton.1 hl
      exact hnot (by decide) (by decide)

end Example

end SignalCheck

end MultiMLton.Backend
