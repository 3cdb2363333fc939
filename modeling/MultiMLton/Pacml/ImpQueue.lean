import Mathlib.Data.List.TakeWhile

/-!
# `ImpQueue`

The queue of `util/imp-queue.sml`: a front list and a reversed back list.  The cleaning
operations drop elements that satisfy a predicate, those that the reader has no more use for.

* `contents`: the elements of a queue in their order;
* `contents_cleanPrefix`, `contents_cleanSuffix_sublist`, `contents_enque`: what the operations
  do to the contents;
* `dequeLazyClean_eq`: `dequeLazyClean` takes the first element that the predicate spares, and
  never raises;
* `contents_clean`, `cleanAndDeque_eq`, `deque_eq`, `peek_eq`, `empty_eq`: the other operations.
-/

namespace MultiMLton.ImpQueue

open List

variable {α : Type*}

/-- `'a t`. -/
structure T (α : Type*) where
  front : List α
  back : List α
  deriving DecidableEq

/-- The elements, the first one to be taken first. -/
def T.contents (q : T α) : List α := q.front ++ q.back.reverse

def new : T α := ⟨[], []⟩

def filterPrefix (p : α → Bool) : List α → List α
  | [] => []
  | y :: ys => if p y then filterPrefix p ys else y :: ys

def filterRevAcc (p : α → Bool) : List α → List α → List α
  | [], zs => zs
  | y :: ys, zs => if p y then filterRevAcc p ys zs else filterRevAcc p ys (y :: zs)

def filterRev (p : α → Bool) (xs : List α) : List α := filterRevAcc p xs []

def cleanPrefix (q : T α) (p : α → Bool) : T α :=
  match filterPrefix p q.front with
  | [] => ⟨filterPrefix p q.back.reverse, []⟩
  | front' => ⟨front', q.back⟩

def cleanSuffix (q : T α) (p : α → Bool) : T α := ⟨q.front, filterPrefix p q.back⟩

def dequeLazyClean (q : T α) (p : α → Bool) : Except String (Option α × T α) :=
  let q := cleanPrefix q p
  match q.front with
  | [] =>
    match q.back with
    | [] => .ok (none, q)
    | l =>
      match filterRev p l with
      | [] => .error "ImpQueue.dequeLazyClean:impossible"
      | x :: front' => .ok (some x, ⟨front', []⟩)
  | x :: front' => .ok (some x, ⟨front', q.back⟩)

def enque (q : T α) (x : α) : T α := ⟨q.front, x :: q.back⟩

def filter (p : α → Bool) (xs : List α) : List α := xs.filter fun x => !p x

def clean (q : T α) (p : α → Bool) : T α :=
  match filter p q.front with
  | [] => ⟨filterRev p q.back, []⟩
  | front' => ⟨front', filter p q.back⟩

def cleanAndDeque (q : T α) (p : α → Bool) : Option α × T α :=
  match filter p q.front with
  | [] =>
    match filterRev p q.back with
    | [] => (none, ⟨[], []⟩)
    | x :: front' => (some x, ⟨front', []⟩)
  | [x] => (some x, ⟨filterRev p q.back, []⟩)
  | x :: front' => (some x, ⟨front', filter p q.back⟩)

def deque (q : T α) : Except String (Option α × T α) :=
  match q.front with
  | [] =>
    match q.back with
    | [] => .ok (none, q)
    | l =>
      match l.reverse with
      | [] => .error "ImpQueue.deque:impossible"
      | x :: front' => .ok (some x, ⟨front', []⟩)
  | x :: front' => .ok (some x, ⟨front', q.back⟩)

def empty (q : T α) : Bool :=
  match q.front with
  | [] =>
    match q.back with
    | [] => true
    | _ => false
  | _ => false

def undeque (q : T α) (x : α) : T α := ⟨x :: q.front, q.back⟩

def peek (q : T α) : Except String (Option α × T α) :=
  match q.front with
  | [] =>
    match q.back with
    | [] => .ok (none, q)
    | l =>
      match l.reverse with
      | [] => .error "ImpQueue.peek:impossible"
      | x :: front' => .ok (some x, ⟨x :: front', []⟩)
  | x :: _ => .ok (some x, q)

/-! ### The contents -/

@[simp] theorem contents_new : (new : T α).contents = [] := rfl

theorem contents_enque (q : T α) (x : α) : (enque q x).contents = q.contents ++ [x] := by
  simp [enque, T.contents]

theorem filterPrefix_eq_dropWhile (p : α → Bool) (xs : List α) :
    filterPrefix p xs = xs.dropWhile p := by
  induction xs with
  | nil => rfl
  | cons y ys ih =>
    rw [filterPrefix, dropWhile_cons]
    split
    · exact ih
    · rfl

/-- `cleanPrefix` drops the longest prefix of elements that satisfy the predicate. -/
theorem contents_cleanPrefix (q : T α) (p : α → Bool) :
    (cleanPrefix q p).contents = q.contents.dropWhile p := by
  unfold cleanPrefix T.contents
  rw [filterPrefix_eq_dropWhile, dropWhile_append]
  cases h : q.front.dropWhile p with
  | nil => simp [filterPrefix_eq_dropWhile]
  | cons x xs => simp

/-- `cleanSuffix` drops elements at the end, all of which satisfy the predicate. -/
theorem contents_cleanSuffix (q : T α) (p : α → Bool) :
    ∃ dropped, q.contents = (cleanSuffix q p).contents ++ dropped ∧ ∀ x ∈ dropped, p x = true := by
  refine ⟨(q.back.takeWhile p).reverse, ?_, fun x hx => ?_⟩
  · unfold cleanSuffix T.contents
    rw [filterPrefix_eq_dropWhile, append_assoc, ← reverse_append,
      takeWhile_append_dropWhile]
  · exact mem_takeWhile_imp (mem_reverse.mp hx)

/-- `dequeLazyClean` takes the first element that the predicate spares. -/
theorem dequeLazyClean_eq (q : T α) (p : α → Bool) :
    ∃ q', dequeLazyClean q p = .ok ((q.contents.dropWhile p).head?, q') ∧
      q'.contents = (q.contents.dropWhile p).tail := by
  have hfront : (cleanPrefix q p).front = [] → (cleanPrefix q p).back = [] := by
    unfold cleanPrefix
    cases filterPrefix p q.front with
    | nil => simp
    | cons x xs => simp
  rw [← contents_cleanPrefix]
  unfold dequeLazyClean T.contents
  cases h : (cleanPrefix q p).front with
  | nil => exact ⟨cleanPrefix q p, by simp [h, hfront h], by simp [h, hfront h]⟩
  | cons x front' => exact ⟨⟨front', (cleanPrefix q p).back⟩, by simp [h], by simp⟩

theorem contents_undeque (q : T α) (x : α) : (undeque q x).contents = x :: q.contents := rfl

theorem filterRev_eq (p : α → Bool) (xs : List α) :
    filterRev p xs = (filter p xs).reverse := by
  have hacc : ∀ zs, filterRevAcc p xs zs = (filter p xs).reverse ++ zs := by
    induction xs with
    | nil => exact fun zs => rfl
    | cons y ys ih =>
      intro zs
      by_cases hy : p y = true
      · simp [filterRevAcc, filter, hy, ih]
      · simp [filterRevAcc, filter, hy, ih]
  rw [filterRev, hacc, append_nil]

/-- The elements to keep, when the front has none and when it has some. -/
theorem filter_contents (p : α → Bool) (q : T α) :
    filter p q.contents = filter p q.front ++ filterRev p q.back := by
  rw [filterRev_eq]
  simp [filter, T.contents]

/-- `clean` drops every element that satisfies the predicate. -/
theorem contents_clean (q : T α) (p : α → Bool) : (clean q p).contents = filter p q.contents := by
  rw [filter_contents]
  unfold clean
  cases h : filter p q.front with
  | nil => simp [T.contents]
  | cons x xs => simp [T.contents, filterRev_eq]

/-- `cleanAndDeque` drops every element that satisfies the predicate and takes the first of the
others. -/
theorem cleanAndDeque_eq (q : T α) (p : α → Bool) :
    (cleanAndDeque q p).1 = (filter p q.contents).head? ∧
      (cleanAndDeque q p).2.contents = (filter p q.contents).tail := by
  rw [filter_contents]
  unfold cleanAndDeque
  rcases hf : filter p q.front with _ | ⟨x, _ | ⟨y, ys⟩⟩
  · cases hb : filterRev p q.back with
    | nil | cons x xs => simp [T.contents]
  · simp [T.contents]
  · simp [T.contents, filterRev_eq]

theorem deque_eq (q : T α) :
    ∃ q', deque q = .ok (q.contents.head?, q') ∧ q'.contents = q.contents.tail := by
  unfold deque
  rcases q with ⟨_ | ⟨x, xs⟩, back⟩
  · cases hb : back.reverse with
    | nil =>
      obtain rfl : back = [] := by simpa using hb
      exact ⟨⟨[], []⟩, rfl, rfl⟩
    | cons x xs =>
      cases back with
      | nil => simp at hb
      | cons y ys => exact ⟨⟨xs, []⟩, by simp only [hb, T.contents]; rfl, by simp [T.contents, hb]⟩
  · exact ⟨⟨xs, back⟩, rfl, rfl⟩

theorem peek_eq (q : T α) :
    ∃ q', peek q = .ok (q.contents.head?, q') ∧ q'.contents = q.contents := by
  unfold peek
  rcases q with ⟨_ | ⟨x, xs⟩, back⟩
  · cases hb : back.reverse with
    | nil =>
      obtain rfl : back = [] := by simpa using hb
      exact ⟨⟨[], []⟩, rfl, rfl⟩
    | cons x xs =>
      cases back with
      | nil => simp at hb
      | cons y ys =>
        exact ⟨⟨x :: xs, []⟩, by simp only [hb, T.contents]; rfl, by simp [T.contents, hb]⟩
  · exact ⟨⟨x :: xs, back⟩, rfl, rfl⟩

theorem empty_eq (q : T α) : empty q = q.contents.isEmpty := by
  rcases q with ⟨_ | ⟨x, xs⟩, _ | ⟨y, ys⟩⟩ <;> simp [empty, T.contents]

end MultiMLton.ImpQueue
