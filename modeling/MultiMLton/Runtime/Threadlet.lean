import Mathlib.Tactic
import MultiMLton.Runtime.SchedulerQueue

/-!
# Parasites

`gc/threadlet.c` cuts a parasite off the stack of its host, by a copy and a jump on the current
stack or by extraction from a suspended one, and puts it on the stack of another host.  Exception
handlers are offsets from the stack bottom, in `exnStack` and in the link slots of the frames.

* `GC_copyParasite`, `GC_jumpDown`, `GC_extractParasite`, `GC_prefixAndSwitchTo`;
* `Handlers`: the handlers that are visited by following the links;
* `copyParasite_spec`, `extractParasite_spec`, `prefixAndSwitchTo_spec`: the frames arrive;
* `parasite_moves`: the handlers do not.

A stack is what is stored at each offset from its bottom.  The growth of the stack of the target
changes neither, and is left out with the reserved sizes and the collections.
-/

namespace MultiMLton.Threadlet

open List
open Scheduler (sizeT)

/-! ### Stacks and threads -/

structure GC_stack where
  used : ℕ
  isParasitic : Bool
  mem : ℕ → ℕ

structure GC_thread where
  exnStack : ℕ
  stack : GC_stack

/-- A processor; `stackTop` is an offset. -/
structure GC_state where
  stackTop : ℕ
  exnStack : ℕ
  threadCurrent : GC_thread
  copiedSize : ℕ
  atomicState : ℕ

/-- `BOGUS_EXN_STACK` -/
def BOGUS_EXN_STACK : ℕ := 2 ^ 64 - 1

/-- `GC_RETURNADDRESS_SIZE` -/
def GC_RETURNADDRESS_SIZE : ℕ := 8

def memcpy (dst : ℕ → ℕ) (off : ℕ) (src : ℕ → ℕ) (start n : ℕ) : ℕ → ℕ :=
  fun i => if off ≤ i ∧ i < off + n then src (start + (i - off)) else dst i

def newThread : GC_thread where
  exnStack := BOGUS_EXN_STACK
  stack := ⟨0, false, fun _ => 0⟩

section

-- the size of the frame of a return address
variable (layoutSize : ℕ → Option ℕ)

def GC_getFrameBottom (s : GC_state) : Option ℕ :=
  (layoutSize (s.threadCurrent.stack.mem (s.stackTop - GC_RETURNADDRESS_SIZE))).map
    fun size => s.stackTop - size

def GC_copyParasite (s : GC_state) (startOffset : ℕ) : Option (GC_thread × GC_state) := do
  let stop ← GC_getFrameBottom layoutSize s
  let current := s.threadCurrent
  let s := { s with
    threadCurrent := ⟨s.exnStack, { current.stack with used := s.stackTop }⟩ }
  if startOffset < stop ∧ startOffset < s.exnStack then
    let numBytes := stop - startOffset
    let th : GC_thread :=
      { newThread with
        -- the exception stack offset relative to parasite bottom
        exnStack := sizeT (s.exnStack + 2 ^ 64 - startOffset)
        stack :=
          { used := numBytes
            isParasitic := true
            mem := memcpy newThread.stack.mem 0 s.threadCurrent.stack.mem startOffset numBytes } }
    some (th, { s with copiedSize := numBytes })
  else none

def GC_jumpDown (s : GC_state) (offset : ℕ) : GC_state :=
  { s with
    stackTop := offset
    atomicState := s.atomicState - 1 }

/-- The parasite, and the suspended thread without it. -/
def GC_extractParasite (oriThrd : GC_thread) (startOffset : ℕ) : Option (GC_thread × GC_thread) :=
  if startOffset ≤ oriThrd.stack.used then
    let numBytes := oriThrd.stack.used - startOffset
    let th : GC_thread :=
      { newThread with
        stack :=
          { used := numBytes
            isParasitic := true
            mem := memcpy newThread.stack.mem 0 oriThrd.stack.mem startOffset numBytes } }
    some (th, { oriThrd with stack := { oriThrd.stack with used := startOffset } })
  else none

def GC_prefixAndSwitchTo (s : GC_state) (thrd : GC_thread) : Option GC_state := do
  let start ← GC_getFrameBottom layoutSize s
  -- restore exception state
  let exnStack := sizeT (start + thrd.exnStack)
  return { s with
    stackTop := start + thrd.stack.used
    exnStack := exnStack
    threadCurrent :=
      { exnStack := exnStack
        stack := { s.threadCurrent.stack with
          mem := memcpy s.threadCurrent.stack.mem start thrd.stack.mem 0 thrd.stack.used } }
    atomicState := s.atomicState - 1 }

end

/-! ### Handlers -/

/-- A handler of a frame: the `exnStack` that stands for it, and its link slot. -/
structure Handler where
  exnStack : ℕ
  link : ℕ

/-- The handler after its frame has moved. -/
def Handler.move (bottom start : ℕ) (h : Handler) : Handler :=
  ⟨start + (h.exnStack - bottom), start + (h.link - bottom)⟩

/-- The links lead from one `exnStack` through the handlers to another one. -/
inductive Handlers (mem : ℕ → ℕ) : ℕ → List Handler → ℕ → Prop
  | nil (e : ℕ) : Handlers mem e [] e
  | cons (h : Handler) {hs : List Handler} {e : ℕ} (next : Handlers mem (mem h.link) hs e) :
      Handlers mem h.exnStack (h :: hs) e

/-- A parasite lies between `bottom` and `top`, its default handler at least with it; `below` is the
handler that was current below the bottom. -/
structure Parasite (mem : ℕ → ℕ) (exnStack bottom top : ℕ) (hs : List Handler) (below : ℕ) :
    Prop where
  handlers : Handlers mem exnStack hs below
  default : hs ≠ []
  inside : ∀ h ∈ hs, bottom < h.exnStack ∧ h.exnStack ≤ top ∧ bottom ≤ h.link ∧ h.link < top
  under : below ≤ bottom
  top : top < 2 ^ 63

/-- The host of a parasite runs on its stack, or is suspended. -/
inductive Host
  | current (s : GC_state)
  | suspended (oriThrd : GC_thread)

def Host.thread : Host → GC_thread
  | .current s => ⟨s.exnStack, s.threadCurrent.stack⟩
  | .suspended oriThrd => oriThrd

/-- Where the parasite ends: below the calling frame, or with the stack. -/
def Host.top (layoutSize : ℕ → Option ℕ) : Host → Option ℕ
  | .current s => GC_getFrameBottom layoutSize s
  | .suspended oriThrd => some oriThrd.stack.used

/-- The two ways to cut a parasite off: the parasite, and its host afterwards. -/
def Host.cut (layoutSize : ℕ → Option ℕ) : Host → ℕ → Option (GC_thread × GC_thread)
  | .current s, bottom => (GC_copyParasite layoutSize s bottom).map fun r =>
      let s := GC_jumpDown r.2 bottom
      (r.1, ⟨s.exnStack, { s.threadCurrent.stack with used := s.stackTop }⟩)
  | .suspended oriThrd, bottom => GC_extractParasite oriThrd bottom

/-- The `exnStack` of the parasite that is cut off. -/
def Host.saved : Host → ℕ → ℕ
  | .current s, bottom => s.exnStack - bottom
  | .suspended _, _ => BOGUS_EXN_STACK

/-- The host has the frames below the bottom, and the handler that was current there. -/
structure Cut (thrd : GC_thread) (bottom below : ℕ) (thrd' : GC_thread) : Prop where
  used : thrd'.stack.used = bottom
  frames : ∀ i < bottom, thrd'.stack.mem i = thrd.stack.mem i
  handler : thrd'.exnStack = below

/-- The target has its frames below the calling frame, then those of the parasite. -/
structure Spliced (mem : ℕ → ℕ) (bottom top : ℕ) (t : GC_state) (start : ℕ) (t' : GC_state) :
    Prop where
  used : t'.stackTop = start + (top - bottom)
  frames : ∀ i < start, t'.threadCurrent.stack.mem i = t.threadCurrent.stack.mem i
  parasite : ∀ i < top - bottom, t'.threadCurrent.stack.mem (start + i) = mem (bottom + i)

/-- The innermost handler of the parasite is current, and the links lead through its handlers to the
handler that was current in the target. -/
structure Handled (exnStack bottom : ℕ) (hs : List Handler) (t : GC_state) (start : ℕ)
    (t' : GC_state) : Prop where
  current : t'.exnStack = start + (exnStack - bottom)
  handlers : Handlers t'.threadCurrent.stack.mem t'.exnStack (hs.map (Handler.move bottom start))
    t.exnStack

theorem handlers_nil_iff {mem : ℕ → ℕ} {x e : ℕ} : Handlers mem x [] e ↔ x = e := by
  constructor
  · intro h
    cases h
    rfl
  · rintro rfl
    exact .nil x

theorem handlers_cons_iff {mem : ℕ → ℕ} {x e : ℕ} {h : Handler} {hs : List Handler} :
    Handlers mem x (h :: hs) e ↔ x = h.exnStack ∧ Handlers mem (mem h.link) hs e := by
  constructor
  · intro hchain
    cases hchain with
    | cons _ next => exact ⟨rfl, next⟩
  · rintro ⟨rfl, next⟩
    exact .cons h next

variable {layoutSize : ℕ → Option ℕ} {mem : ℕ → ℕ} {exnStack bottom top below start : ℕ}
  {hs : List Handler} {s t : GC_state}

theorem Parasite.exnStack_bounds (h : Parasite mem exnStack bottom top hs below) :
    bottom < exnStack ∧ exnStack ≤ top := by
  cases h.handlers with
  | nil => exact absurd rfl h.default
  | cons h' _ =>
    have hin := h.inside h' (mem_cons_self ..)
    exact ⟨hin.1, hin.2.1⟩

theorem Parasite.bottom_lt (h : Parasite mem exnStack bottom top hs below) : bottom < top :=
  h.exnStack_bounds.1.trans_le h.exnStack_bounds.2

/-- The handler above the bottom is not the one below. -/
theorem Parasite.ne_below (h : Parasite mem exnStack bottom top hs below) : exnStack ≠ below :=
  (h.under.trans_lt h.exnStack_bounds.1).ne'

/-! ### Cutting -/

/-- The parasite arrives whole, with its handler relative to its bottom; the host keeps the frames
below, and the `exnStack` of the parasite. -/
theorem copyParasite_spec (hframe : GC_getFrameBottom layoutSize s = some top)
    (h : Parasite s.threadCurrent.stack.mem s.exnStack bottom top hs below) :
    ∃ th s', GC_copyParasite layoutSize s bottom = some (th, s') ∧
      th.exnStack = s.exnStack - bottom ∧ th.stack.used = top - bottom ∧
      (∀ i < top - bottom, th.stack.mem i = s.threadCurrent.stack.mem (bottom + i)) ∧
      (GC_jumpDown s' bottom).stackTop = bottom ∧
      (GC_jumpDown s' bottom).exnStack = s.exnStack ∧
      (GC_jumpDown s' bottom).threadCurrent.stack.mem = s.threadCurrent.stack.mem := by
  obtain ⟨hlt, hle⟩ := h.exnStack_bounds
  have hguard : bottom < top ∧ bottom < s.exnStack := ⟨h.bottom_lt, hlt⟩
  simp only [GC_copyParasite, hframe, Option.bind_eq_bind, Option.bind_some, if_pos hguard]
  refine ⟨_, _, rfl, ?_, ?_, ?_, rfl, rfl, rfl⟩
  · have htop := h.top
    show (s.exnStack + 2 ^ 64 - bottom) % 2 ^ 64 = s.exnStack - bottom
    omega
  · rfl
  · intro i hi
    show memcpy _ 0 _ bottom (top - bottom) i = _
    have hcopied : 0 ≤ i ∧ i < 0 + (top - bottom) := by omega
    rw [memcpy, if_pos hcopied, Nat.sub_zero]

/-- As for the copy, but the parasite gets no handler. -/
theorem extractParasite_spec {oriThrd : GC_thread}
    (h : Parasite oriThrd.stack.mem oriThrd.exnStack bottom oriThrd.stack.used hs below) :
    ∃ th thrd, GC_extractParasite oriThrd bottom = some (th, thrd) ∧
      th.exnStack = BOGUS_EXN_STACK ∧ th.stack.used = oriThrd.stack.used - bottom ∧
      (∀ i < oriThrd.stack.used - bottom, th.stack.mem i = oriThrd.stack.mem (bottom + i)) ∧
      thrd.stack.used = bottom ∧ thrd.exnStack = oriThrd.exnStack ∧
      thrd.stack.mem = oriThrd.stack.mem := by
  refine ⟨_, _, if_pos h.bottom_lt.le, rfl, rfl, ?_, rfl, rfl, rfl⟩
  intro i hi
  show memcpy _ 0 _ bottom (oriThrd.stack.used - bottom) i = _
  have hcopied : 0 ≤ i ∧ i < 0 + (oriThrd.stack.used - bottom) := by omega
  rw [memcpy, if_pos hcopied, Nat.sub_zero]

/-! ### Splicing -/

theorem prefixAndSwitchTo_spec {th : GC_thread}
    (hframe : GC_getFrameBottom layoutSize t = some start) (hused : th.stack.used = top - bottom)
    (hmem : ∀ i < top - bottom, th.stack.mem i = mem (bottom + i)) :
    ∃ t', GC_prefixAndSwitchTo layoutSize t th = some t' ∧ Spliced mem bottom top t start t' ∧
      t'.exnStack = sizeT (start + th.exnStack) := by
  refine ⟨_, by rw [GC_prefixAndSwitchTo, hframe]; rfl, ⟨?_, ?_, ?_⟩, rfl⟩
  · show start + th.stack.used = _
    rw [hused]
  · intro i hi
    show memcpy _ start _ 0 _ i = _
    have hnot : ¬ (start ≤ i ∧ i < start + th.stack.used) := by omega
    rw [memcpy, if_neg hnot]
  · intro i hi
    show memcpy _ start _ 0 _ (start + i) = _
    have hcopied : start ≤ start + i ∧ start + i < start + th.stack.used := by omega
    rw [memcpy, if_pos hcopied, Nat.add_sub_cancel_left, Nat.zero_add, hmem i hi]

/-- The link of a moved handler is the old one. -/
theorem Spliced.link {t' : GC_state} (h : Spliced mem bottom top t start t') {g : Handler}
    (hle : bottom ≤ g.link) (hlt : g.link < top) :
    t'.threadCurrent.stack.mem (g.move bottom start).link = mem g.link := by
  show t'.threadCurrent.stack.mem (start + (g.link - bottom)) = _
  rw [h.parasite _ (by omega), Nat.add_sub_cancel' hle]

/-- The links of the copied frames lead through the handlers of the parasite if these have not
moved, or if there is only the default handler. -/
theorem Spliced.handlers_iff {t' : GC_state} (h : Spliced mem bottom top t start t') (e : ℕ) :
    ∀ hs exnStack, Handlers mem exnStack hs below → hs ≠ [] →
      (∀ g ∈ hs, bottom < g.exnStack ∧ g.exnStack ≤ top ∧ bottom ≤ g.link ∧ g.link < top) →
      (Handlers t'.threadCurrent.stack.mem (start + (exnStack - bottom))
          (hs.map (Handler.move bottom start)) e ↔
        e = below ∧ (start = bottom ∨ hs.length = 1))
  | [], _, _, hne, _ => absurd rfl hne
  | [g], exnStack, hchain, _, hin => by
    obtain ⟨rfl, hnext⟩ := handlers_cons_iff.mp hchain
    obtain ⟨-, -, hle, hlt⟩ := hin g (mem_singleton_self g)
    rw [map_singleton, handlers_cons_iff, handlers_nil_iff, h.link hle hlt,
      handlers_nil_iff.mp hnext]
    constructor
    · rintro ⟨-, rfl⟩
      exact ⟨rfl, Or.inr rfl⟩
    · rintro ⟨rfl, -⟩
      exact ⟨rfl, rfl⟩
  | g :: g' :: hs, exnStack, hchain, _, hin => by
    obtain ⟨rfl, hnext⟩ := handlers_cons_iff.mp hchain
    obtain ⟨-, -, hle, hlt⟩ := hin g (mem_cons_self ..)
    have hin' := fun k hk => hin k (mem_cons_of_mem g hk)
    have hlt' := (hin' g' (mem_cons_self ..)).1
    have ih := handlers_iff h e (g' :: hs) _ hnext (cons_ne_nil _ _) hin'
    -- the link of the first handler is the old offset of the second one
    have hold := (handlers_cons_iff.mp hnext).1
    rw [map_cons, handlers_cons_iff, h.link hle hlt, hold]
    rw [hold] at ih
    constructor
    · rintro ⟨-, hrest⟩
      have hmoved : g'.exnStack = start + (g'.exnStack - bottom) :=
        (handlers_cons_iff.mp hrest).1
      rw [← hmoved] at ih
      exact ⟨(ih.mp hrest).1, Or.inl (by omega)⟩
    · rintro ⟨he, hstart | hone⟩
      · refine ⟨rfl, ?_⟩
        have hrest := ih.mpr ⟨he, Or.inl hstart⟩
        rw [hstart, Nat.add_sub_cancel' hlt'.le] at hrest
        rw [hstart]
        exact hrest
      · simp at hone

/-! ### Moves -/

/-- The parasite arrives whole; the host keeps the frames below, but also the `exnStack` of the
parasite, which gets its own relative to its bottom by a copy, and none by an extraction. -/
theorem cut_spec {host : Host} (htop : host.top layoutSize = some top)
    (h : Parasite host.thread.stack.mem host.thread.exnStack bottom top hs below) :
    ∃ th thrd, host.cut layoutSize bottom = some (th, thrd) ∧ th.stack.used = top - bottom ∧
      (∀ i < top - bottom, th.stack.mem i = host.thread.stack.mem (bottom + i)) ∧
      thrd.stack.used = bottom ∧ thrd.stack.mem = host.thread.stack.mem ∧
      thrd.exnStack = host.thread.exnStack ∧ th.exnStack = host.saved bottom := by
  cases host with
  | current s =>
    obtain ⟨th, s', hcopy, hexn, hused, hmem, htop', hexn', hmem'⟩ := copyParasite_spec htop h
    obtain ⟨s'', hs''⟩ : ∃ s'', GC_jumpDown s' bottom = s'' := ⟨_, rfl⟩
    rw [hs''] at htop' hexn' hmem'
    refine ⟨th, ⟨s''.exnStack, { s''.threadCurrent.stack with used := s''.stackTop }⟩, ?_, hused,
      hmem, htop', hmem', hexn', hexn⟩
    rw [Host.cut, hcopy, ← hs'']
    rfl
  | suspended oriThrd =>
    cases htop
    obtain ⟨th, thrd, hextract, hexn, hused, hmem, hused', hexn', hmem'⟩ := extractParasite_spec h
    exact ⟨th, thrd, hextract, hused, hmem, hused', hmem', hexn', hexn⟩

/-- The handler of a copied parasite is right for its place in the target, that of an extracted one
is not. -/
theorem exnStack_iff {host : Host}
    (h : Parasite host.thread.stack.mem host.thread.exnStack bottom top hs below)
    (hstart : start < 2 ^ 63) :
    sizeT (start + host.saved bottom) = start + (host.thread.exnStack - bottom) ↔
      ∃ s, host = .current s := by
  obtain ⟨hlt, hle⟩ := h.exnStack_bounds
  have htop := h.top
  cases host with
  | current s =>
    refine iff_of_true ?_ ⟨s, rfl⟩
    have hle' : s.exnStack ≤ top := hle
    show sizeT (start + (s.exnStack - bottom)) = start + (s.exnStack - bottom)
    exact Nat.mod_eq_of_lt (by omega)
  | suspended oriThrd =>
    refine iff_of_false ?_ (by simp)
    show (start + (2 ^ 64 - 1)) % 2 ^ 64 ≠ _
    omega

/-- In every move the frames are where they belong, and the current handler of the host is wrong.
The handlers of the parasite are right in the target only after a copy, to the same offset or with
the default handler alone, and if the handler that was below the parasite is current there. -/
theorem parasite_moves (layoutSize : ℕ → Option ℕ) (host : Host) (htop : host.top layoutSize = some top)
    (h : Parasite host.thread.stack.mem host.thread.exnStack bottom top hs below)
    (htarget : GC_getFrameBottom layoutSize t = some start) (hstart : start < 2 ^ 63) :
    ∃ th thrd t', host.cut layoutSize bottom = some (th, thrd) ∧
      GC_prefixAndSwitchTo layoutSize t th = some t' ∧
      thrd.stack.used = bottom ∧ thrd.stack.mem = host.thread.stack.mem ∧
      Spliced host.thread.stack.mem bottom top t start t' ∧
      ¬ Cut host.thread bottom below thrd ∧
      (Handled host.thread.exnStack bottom hs t start t' ↔
        (∃ s, host = .current s) ∧ t.exnStack = below ∧ (start = bottom ∨ hs.length = 1)) := by
  obtain ⟨th, thrd, hcut, hused, hmem, hused', hmem', hexn', hexn⟩ := cut_spec htop h
  obtain ⟨t', hprefix, hspliced, hcurrent⟩ := prefixAndSwitchTo_spec htarget hused hmem
  refine ⟨th, thrd, t', hcut, hprefix, hused', hmem', hspliced, ?_, ?_⟩
  · intro hno
    exact h.ne_below (hexn'.symm.trans hno.handler)
  · rw [← exnStack_iff h hstart, ← hexn, ← hcurrent,
      ← hspliced.handlers_iff t.exnStack hs _ h.handlers h.default h.inside]
    constructor
    · intro hhandled
      exact ⟨hhandled.current, hhandled.current ▸ hhandled.handlers⟩
    · rintro ⟨hplace, hchain⟩
      exact ⟨hplace, hplace ▸ hchain⟩

/-! ### One parasite -/

/-- A stack with frames of 16 bytes, a parasite with its default handler from 24 to 56, and below it
the handler 16. -/
def host : GC_state where
  stackTop := 72
  exnStack := 40
  threadCurrent := ⟨40, ⟨72, false, fun i => if i = 40 then 16 else 0⟩⟩
  copiedSize := 0
  atomicState := 1

theorem host_parasite :
    Parasite host.threadCurrent.stack.mem host.exnStack 24 56 [⟨40, 40⟩] 16 where
  handlers := .cons ⟨40, 40⟩ (.nil 16)
  default := cons_ne_nil _ _
  inside := by simp
  under := by norm_num
  top := by norm_num

/-- The parasite is put on the stack that it has been cut off from. -/
theorem parasite_moves_host : ∃ th thrd t',
    (Host.current host).cut (fun _ => some 16) 24 = some (th, thrd) ∧
      GC_prefixAndSwitchTo (fun _ => some 16) host th = some t' ∧ t'.stackTop = 88 := by
  obtain ⟨th, thrd, t', hcut, hprefix, -, -, hspliced, -⟩ :=
    parasite_moves (fun _ => some 16) (.current host) (t := host) rfl host_parasite rfl
      (by decide)
  exact ⟨th, thrd, t', hcut, hprefix, hspliced.used⟩

/-- After the jump the host has the handler of the parasite. -/
theorem host_not_cut : Parasite host.threadCurrent.stack.mem host.exnStack 24 56 [⟨40, 40⟩] 16 ∧
    ∃ th thrd, (Host.current host).cut (fun _ => some 16) 24 = some (th, thrd) ∧
      thrd.stack.used = 24 ∧ thrd.exnStack = 40 ∧ ¬ Cut (Host.current host).thread 24 16 thrd := by
  refine ⟨host_parasite, _, _, rfl, rfl, rfl, ?_⟩
  intro h
  exact absurd h.handler (by decide)

end MultiMLton.Threadlet
