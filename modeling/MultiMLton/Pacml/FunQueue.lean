import MultiMLton.Lib.Linearizability
import MultiMLton.Pacml.ImpQueue

/-!
# `FunQueue`, and lazy cleaning of both queues

`util/fun-queue.sml` is the functional twin of `ImpQueue`: its operations return the new queue,
and it has no `undeque` and no `cleanSuffix`.

* the operations of `FunQueue`;
* `FifoOp`, `Filtered`: what an operation does to a list of elements when a fixed predicate says
  which of them are of no more use;
* `impQueue_step`, `funQueue_step`: each operation of either queue is one on the list;
* `queues_refine_filtered`: so is every run, and none raises an exception.
-/

namespace MultiMLton

namespace FunQueue

open ImpQueue (filterPrefix filter filterRev)

variable {α : Type*}

/-- `'a t`. -/
structure T (α : Type*) where
  front : List α
  back : List α
  deriving DecidableEq

/-- The elements, the first one to be taken first. -/
def T.contents (q : T α) : List α := q.front ++ q.back.reverse

def cleanPrefix (q : T α) (p : α → Bool) : T α :=
  match filterPrefix p q.front with
  | [] => ⟨filterPrefix p q.back.reverse, []⟩
  | front' => ⟨front', q.back⟩

def clean (q : T α) (p : α → Bool) : T α :=
  match filter p q.front with
  | [] => ⟨filterRev p q.back, []⟩
  | front' => ⟨front', filter p q.back⟩

def cleanAndDeque (q : T α) (p : α → Bool) : Option α × T α :=
  match filter p q.front with
  | [] =>
    match filterRev p q.back with
    | [] => (none, ⟨[], []⟩)
    | x :: front' => (some x, ⟨front', []⟩)
  | [x] => (some x, ⟨filterRev p q.back, []⟩)
  | x :: front' => (some x, ⟨front', filter p q.back⟩)

def dequeLazyClean (q : T α) (p : α → Bool) : Except String (Option α × T α) :=
  let q := cleanPrefix q p
  match q.front with
  | [] =>
    match q.back with
    | [] => .ok (none, ⟨[], []⟩)
    | l =>
      match filterRev p l with
      | [] => .error "FunQueue.dequeLazyClean:impossible"
      | x :: front' => .ok (some x, ⟨front', []⟩)
  | x :: front' => .ok (some x, ⟨front', q.back⟩)

def deque (q : T α) : Except String (Option (α × T α)) :=
  match q.front with
  | [] =>
    match q.back with
    | [] => .ok none
    | l =>
      match l.reverse with
      | [] => .error "FunQueue.deque:impossible"
      | x :: front' => .ok (some (x, ⟨front', []⟩))
  | x :: front' => .ok (some (x, ⟨front', q.back⟩))

def empty (q : T α) : Bool :=
  match q.front with
  | [] =>
    match q.back with
    | [] => true
    | _ => false
  | _ => false

def enque (q : T α) (x : α) : T α := ⟨q.front, x :: q.back⟩

def new : T α := ⟨[], []⟩

def peek (q : T α) : Except String (Option α) :=
  match q.front with
  | [] =>
    match q.back with
    | [] => .ok none
    | l =>
      match l.reverse with
      | [] => .error "FunQueue.peek:impossible"
      | x :: _ => .ok (some x)
  | x :: _ => .ok (some x)

/-! ### The functional queue behind an imperative one -/

/-- The same two lists in references. -/
def T.toImp (q : T α) : ImpQueue.T α := ⟨q.front, q.back⟩

section

variable (q : T α)

include q

@[simp] theorem contents_toImp : q.toImp.contents = q.contents := rfl

theorem toImp_cleanPrefix (p : α → Bool) :
    (cleanPrefix q p).toImp = ImpQueue.cleanPrefix q.toImp p := by
  unfold cleanPrefix ImpQueue.cleanPrefix T.toImp
  cases filterPrefix p q.front <;> rfl

theorem toImp_clean (p : α → Bool) : (clean q p).toImp = ImpQueue.clean q.toImp p := by
  unfold clean ImpQueue.clean T.toImp
  cases filter p q.front <;> rfl

theorem toImp_cleanAndDeque (p : α → Bool) :
    ((cleanAndDeque q p).1, (cleanAndDeque q p).2.toImp) = ImpQueue.cleanAndDeque q.toImp p := by
  unfold cleanAndDeque ImpQueue.cleanAndDeque T.toImp
  rcases filter p q.front with _ | ⟨x, _ | ⟨y, ys⟩⟩
  · cases filterRev p q.back <;> rfl
  · rfl
  · rfl

theorem contents_enque (x : α) : (enque q x).contents = q.contents ++ [x] :=
  ImpQueue.contents_enque q.toImp x

theorem contents_cleanPrefix (p : α → Bool) :
    (cleanPrefix q p).contents = q.contents.dropWhile p := by
  rw [← contents_toImp, toImp_cleanPrefix, ImpQueue.contents_cleanPrefix, contents_toImp]

theorem contents_clean (p : α → Bool) : (clean q p).contents = filter p q.contents := by
  rw [← contents_toImp, toImp_clean, ImpQueue.contents_clean, contents_toImp]

theorem cleanAndDeque_eq (p : α → Bool) : (cleanAndDeque q p).1 = (filter p q.contents).head? ∧
      (cleanAndDeque q p).2.contents = (filter p q.contents).tail := by
  have h := toImp_cleanAndDeque q p
  have himp := ImpQueue.cleanAndDeque_eq q.toImp p
  rw [← h] at himp
  exact himp

theorem dequeLazyClean_eq (p : α → Bool) :
    ∃ q', dequeLazyClean q p = .ok ((q.contents.dropWhile p).head?, q') ∧
      q'.contents = (q.contents.dropWhile p).tail := by
  have hfront : (cleanPrefix q p).front = [] → (cleanPrefix q p).back = [] := by
    unfold cleanPrefix
    cases filterPrefix p q.front with
    | nil => simp
    | cons x xs => simp
  rw [← contents_cleanPrefix]
  unfold dequeLazyClean T.contents
  cases h : (cleanPrefix q p).front with
  | nil => exact ⟨⟨[], []⟩, by simp [h, hfront h], by simp [hfront h]⟩
  | cons x front' => exact ⟨⟨front', (cleanPrefix q p).back⟩, by simp [h], by simp⟩

theorem deque_eq : (q.contents = [] ∧ deque q = .ok none) ∨
      ∃ x q', q.contents = x :: q'.contents ∧ deque q = .ok (some (x, q')) := by
  unfold deque
  rcases q with ⟨_ | ⟨x, xs⟩, back⟩
  · cases hb : back.reverse with
    | nil =>
      obtain rfl : back = [] := by simpa using hb
      exact .inl ⟨rfl, rfl⟩
    | cons x xs =>
      cases back with
      | nil => simp at hb
      | cons y ys =>
        exact .inr ⟨x, ⟨xs, []⟩, by simp [T.contents, hb], by simp only [hb]⟩
  · exact .inr ⟨x, ⟨xs, back⟩, rfl, rfl⟩

theorem peek_eq : peek q = .ok q.contents.head? := by
  unfold peek
  rcases q with ⟨_ | ⟨x, xs⟩, back⟩
  · cases hb : back.reverse with
    | nil =>
      obtain rfl : back = [] := by simpa using hb
      rfl
    | cons x xs =>
      cases back with
      | nil => simp at hb
      | cons y ys => simp only [hb, T.contents]; rfl
  · rfl

theorem empty_eq : empty q = q.contents.isEmpty :=
  ImpQueue.empty_eq q.toImp

end

end FunQueue

/-! ### Lazy cleaning of a list -/

variable {α : Type*}

/-- The operations on a queue. -/
inductive FifoOp (α : Type*)
  | enque (x : α)
  | undeque (x : α)
  | deque
  | peek
  | empty
  | cleanPrefix
  | cleanSuffix
  | clean
  | cleanAndDeque
  | dequeLazyClean

/-- What an operation returns: nothing, an element if there is one, or a boolean. -/
inductive Reply (α : Type*)
  | unit
  | elem (x : Option α)
  | bool (b : Bool)

/-- One operation on the list of elements, those that satisfy `p` being of no more use. -/
def Filtered (p : α → Bool) (xs : List α) : FifoOp α → Reply α → List α → Prop
  | .enque x, r, ys => r = .unit ∧ ys = xs ++ [x]
  | .undeque x, r, ys => r = .unit ∧ ys = x :: xs
  | .deque, r, ys => r = .elem xs.head? ∧ ys = xs.tail
  | .peek, r, ys => r = .elem xs.head? ∧ ys = xs
  | .empty, r, ys => r = .bool xs.isEmpty ∧ ys = xs
  | .cleanPrefix, r, ys => r = .unit ∧ ys = xs.dropWhile p
  -- how many elements go from the end is left open
  | .cleanSuffix, r, ys => r = .unit ∧ ∃ dropped, xs = ys ++ dropped ∧ ∀ x ∈ dropped, p x = true
  | .clean, r, ys => r = .unit ∧ ys = xs.filter fun x => !p x
  | .cleanAndDeque, r, ys =>
    r = .elem (xs.find? fun x => !p x) ∧ ys = (xs.filter fun x => !p x).tail
  | .dequeLazyClean, r, ys =>
    r = .elem (xs.find? fun x => !p x) ∧ ys = (xs.dropWhile p).tail

/-- One operation on an `ImpQueue`. -/
def ImpQueue.exec (p : α → Bool) (q : ImpQueue.T α) :
    FifoOp α → Except String (Reply α × ImpQueue.T α)
  | .enque x => .ok (.unit, enque q x)
  | .undeque x => .ok (.unit, undeque q x)
  | .deque => (deque q).map fun r => (.elem r.1, r.2)
  | .peek => (peek q).map fun r => (.elem r.1, r.2)
  | .empty => .ok (.bool (empty q), q)
  | .cleanPrefix => .ok (.unit, cleanPrefix q p)
  | .cleanSuffix => .ok (.unit, cleanSuffix q p)
  | .clean => .ok (.unit, clean q p)
  | .cleanAndDeque => .ok (.elem (cleanAndDeque q p).1, (cleanAndDeque q p).2)
  | .dequeLazyClean => (dequeLazyClean q p).map fun r => (.elem r.1, r.2)

/-- The operations that `FunQueue` has. -/
inductive FunQueue.Op (α : Type*)
  | enque (x : α)
  | deque
  | peek
  | empty
  | cleanPrefix
  | clean
  | cleanAndDeque
  | dequeLazyClean

/-- They are among those of a queue. -/
def FunQueue.Op.toFifo : FunQueue.Op α → FifoOp α
  | .enque x => .enque x
  | .deque => .deque
  | .peek => .peek
  | .empty => .empty
  | .cleanPrefix => .cleanPrefix
  | .clean => .clean
  | .cleanAndDeque => .cleanAndDeque
  | .dequeLazyClean => .dequeLazyClean

/-- One operation on a `FunQueue`, with the queue that its user goes on with. -/
def FunQueue.exec (p : α → Bool) (q : FunQueue.T α) :
    FunQueue.Op α → Except String (Reply α × FunQueue.T α)
  | .enque x => .ok (.unit, enque q x)
  | .deque => (deque q).map fun r =>
    match r with
    | none => (.elem none, q)
    | some (x, q') => (.elem (some x), q')
  | .peek => (peek q).map fun r => (.elem r, q)
  | .empty => .ok (.bool (empty q), q)
  | .cleanPrefix => .ok (.unit, cleanPrefix q p)
  | .clean => .ok (.unit, clean q p)
  | .cleanAndDeque => .ok (.elem (cleanAndDeque q p).1, (cleanAndDeque q p).2)
  | .dequeLazyClean => (dequeLazyClean q p).map fun r => (.elem r.1, r.2)

theorem find?_not_eq_dropWhile (p : α → Bool) (xs : List α) :
    (xs.find? fun x => !p x) = (xs.dropWhile p).head? := by
  induction xs with
  | nil => rfl
  | cons x xs ih => by_cases hx : p x = true <;> simp [hx, ih]

theorem find?_not_eq_filter (p : α → Bool) (xs : List α) :
    (xs.find? fun x => !p x) = (ImpQueue.filter p xs).head? := by
  rw [ImpQueue.filter, List.head?_filter]

/-- Each operation of `ImpQueue` is the operation on the list of its elements. -/
theorem impQueue_step (p : α → Bool) (q : ImpQueue.T α) (op : FifoOp α) :
    ∃ r q', ImpQueue.exec p q op = .ok (r, q') ∧ Filtered p q.contents op r q'.contents := by
  cases op with
  | enque x => exact ⟨_, _, rfl, rfl, ImpQueue.contents_enque q x⟩
  | undeque x => exact ⟨_, _, rfl, rfl, ImpQueue.contents_undeque q x⟩
  | deque =>
    obtain ⟨q', hq, hc⟩ := ImpQueue.deque_eq q
    exact ⟨_, q', by simp only [ImpQueue.exec, hq]; rfl, rfl, hc⟩
  | peek =>
    obtain ⟨q', hq, hc⟩ := ImpQueue.peek_eq q
    exact ⟨_, q', by simp only [ImpQueue.exec, hq]; rfl, rfl, hc⟩
  | empty => exact ⟨_, _, rfl, by rw [ImpQueue.empty_eq], rfl⟩
  | cleanPrefix => exact ⟨_, _, rfl, rfl, ImpQueue.contents_cleanPrefix q p⟩
  | cleanSuffix => exact ⟨_, _, rfl, rfl, ImpQueue.contents_cleanSuffix q p⟩
  | clean => exact ⟨_, _, rfl, rfl, ImpQueue.contents_clean q p⟩
  | cleanAndDeque =>
    obtain ⟨hx, hc⟩ := ImpQueue.cleanAndDeque_eq q p
    exact ⟨_, _, rfl, by rw [hx, find?_not_eq_filter], hc⟩
  | dequeLazyClean =>
    obtain ⟨q', hq, hc⟩ := ImpQueue.dequeLazyClean_eq q p
    exact ⟨_, q', by simp only [ImpQueue.exec, hq]; rfl, by rw [find?_not_eq_dropWhile], hc⟩

/-- Each operation of `FunQueue` is the operation on the list of its elements. -/
theorem funQueue_step (p : α → Bool) (q : FunQueue.T α) (op : FunQueue.Op α) :
    ∃ r q', FunQueue.exec p q op = .ok (r, q') ∧
      Filtered p q.contents op.toFifo r q'.contents := by
  cases op with
  | enque x => exact ⟨_, _, rfl, rfl, FunQueue.contents_enque q x⟩
  | deque =>
    rcases FunQueue.deque_eq q with ⟨hc, hq⟩ | ⟨x, q', hc, hq⟩
    · exact ⟨.elem none, q, by simp only [FunQueue.exec, hq]; rfl, by rw [hc]; rfl, by rw [hc]; rfl⟩
    · exact ⟨.elem (some x), q', by simp only [FunQueue.exec, hq]; rfl, by rw [hc]; rfl,
        by rw [hc]; rfl⟩
  | peek => exact ⟨_, q, by simp only [FunQueue.exec, FunQueue.peek_eq]; rfl, rfl, rfl⟩
  | empty => exact ⟨_, _, rfl, by rw [FunQueue.empty_eq], rfl⟩
  | cleanPrefix => exact ⟨_, _, rfl, rfl, FunQueue.contents_cleanPrefix q p⟩
  | clean => exact ⟨_, _, rfl, rfl, FunQueue.contents_clean q p⟩
  | cleanAndDeque =>
    obtain ⟨hx, hc⟩ := FunQueue.cleanAndDeque_eq q p
    exact ⟨_, _, rfl, by rw [hx, find?_not_eq_filter], hc⟩
  | dequeLazyClean =>
    obtain ⟨q', hq, hc⟩ := FunQueue.dequeLazyClean_eq q p
    exact ⟨_, q', by simp only [FunQueue.exec, hq]; rfl, by rw [find?_not_eq_dropWhile], hc⟩

open SequentialObject

/-- **Both queues refine a filtered FIFO list**: whatever operations are made on them, one after
the other, none raises an exception, and the elements evolve as the list does. -/
theorem queues_refine_filtered (p : α → Bool) :
    (∀ (q : ImpQueue.T α) (ops : List (FifoOp α)), ∃ rs q',
      runOps (ImpQueue.exec p) q ops = .ok (rs, q') ∧
        Evolves (Filtered p) q.contents ops rs q'.contents) ∧
    (∀ (q : FunQueue.T α) (ops : List (FunQueue.Op α)), ∃ rs q',
      runOps (FunQueue.exec p) q ops = .ok (rs, q') ∧
        Evolves (fun xs op => Filtered p xs op.toFifo) q.contents ops rs q'.contents) :=
  ⟨runOps_evolves ImpQueue.T.contents (impQueue_step p),
    runOps_evolves FunQueue.T.contents (funQueue_step p)⟩

end MultiMLton
