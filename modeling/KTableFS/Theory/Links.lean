/-
# Theory.Links -- a list laid out in pointers

`Segment f l after` says that the pointer field `f` leads along the nodes of `l`, and
from the last of them to `after`.  `Chained` is the doubly linked list: one field leads
from the first node to the last, the other one back.

The rules say what the list is after the pointer surgery that puts a node in front,
takes the last one off, or takes one out of the middle.  They are stated over any new
pointer fields that agree with the surgery on the nodes of the list, so that what a
program does to other nodes does not matter.
-/
import Mathlib.Data.List.Basic
import Mathlib.Data.List.Nodup

namespace KTableFS.Theory

set_option autoImplicit false

variable {α : Type}

/-- The field `f` leads along `l` and then to `after`. -/
def Segment (f : α → Option α) : List α → Option α → Prop
  | [], _ => True
  | a :: rest, after => f a = rest.head?.or after ∧ Segment f rest after

theorem segment_append {f : α → Option α} {after : Option α} : ∀ {xs ys : List α},
    Segment f (xs ++ ys) after ↔ Segment f xs (ys.head?.or after) ∧ Segment f ys after
  | [], ys => by simp [Segment]
  | a :: xs, ys => by
      rw [List.cons_append, Segment, Segment, segment_append, and_assoc]
      cases xs with
      | nil => simp
      | cons b xs => simp

theorem segment_congr {f g : α → Option α} {after : Option α} : ∀ {l : List α},
    (∀ a ∈ l, g a = f a) → Segment f l after → Segment g l after
  | [], _, _ => trivial
  | a :: rest, same, segment => by
      refine ⟨(same a (.head _)).trans segment.1, ?_⟩
      exact segment_congr (fun b member => same b (.tail _ member)) segment.2

/-- A doubly linked list: its ends, its two pointer fields, and its nodes in order. -/
structure Chained (first last : Option α) (next prev : α → Option α) (l : List α) : Prop where
  first : first = l.head?
  last : last = l.getLast?
  nodup : l.Nodup
  next : Segment next l none
  prev : Segment prev l.reverse none

namespace Chained

variable {first last : Option α} {next prev next' prev' : α → Option α}

theorem next_eq {xs ys : List α} {a : α} (chained : Chained first last next prev (xs ++ a :: ys)) :
    next a = ys.head? := by
  have tail := (segment_append.mp chained.next).2
  simpa using tail.1

theorem prev_eq {xs ys : List α} {a : α} (chained : Chained first last next prev (xs ++ a :: ys)) :
    prev a = xs.getLast? := by
  have back := chained.prev
  rw [List.reverse_append, List.reverse_cons, List.append_assoc] at back
  have tail := (segment_append.mp back).2
  simpa using tail.1

/-- Only the pointers of its own nodes matter to a list. -/
theorem congr {l : List α} (chained : Chained first last next prev l)
    (nexts : ∀ x ∈ l, next' x = next x) (prevs : ∀ x ∈ l, prev' x = prev x) :
    Chained first last next' prev' l where
  first := chained.first
  last := chained.last
  nodup := chained.nodup
  next := segment_congr nexts chained.next
  prev := segment_congr (fun x member => prevs x (List.mem_reverse.mp member)) chained.prev

/-- A node alone. -/
theorem single {a : α} (atNext : next a = none) (atPrev : prev a = none) :
    Chained (some a) (some a) next prev [a] where
  first := rfl
  last := rfl
  nodup := List.nodup_singleton a
  next := ⟨atNext, trivial⟩
  prev := ⟨atPrev, trivial⟩

/-- A node that is not in the list, put in front. -/
theorem push {a n : α} {rest : List α} (chained : Chained first last next prev (n :: rest))
    (fresh : a ∉ n :: rest) (aNext : next' a = some n) (aPrev : prev' a = none)
    (nPrev : prev' n = some a) (nexts : ∀ x ∈ n :: rest, next' x = next x)
    (prevs : ∀ x ∈ rest, prev' x = prev x) :
    Chained (some a) last next' prev' (a :: n :: rest) where
  first := rfl
  last := by
    rw [chained.last]
    simp
  nodup := List.nodup_cons.mpr ⟨fresh, chained.nodup⟩
  next := ⟨aNext, segment_congr nexts chained.next⟩
  prev := by
    have back := chained.prev
    rw [List.reverse_cons] at back
    have old := (segment_append.mp back).1
    rw [List.reverse_cons, List.reverse_cons, List.append_assoc]
    refine segment_append.mpr ⟨?_, ⟨nPrev, aPrev, trivial⟩⟩
    exact segment_congr (fun x member => prevs x (List.mem_reverse.mp member)) old

/-- The last node, taken off. -/
theorem pop {a p : α} {xs : List α} (chained : Chained first last next prev (xs ++ [p, a]))
    (pNext : next' p = none) (nexts : ∀ x ∈ xs, next' x = next x)
    (prevs : ∀ x ∈ xs ++ [p], prev' x = prev x) :
    Chained first (some p) next' prev' (xs ++ [p]) where
  first := by
    rw [chained.first]
    cases xs with
    | nil => rfl
    | cons x xs => rfl
  last := by simp
  nodup := by
    refine chained.nodup.sublist (List.Sublist.append_left ?_ xs)
    simp
  next := by
    have old := (segment_append.mp chained.next).1
    exact segment_append.mpr ⟨segment_congr nexts (by simpa using old), ⟨pNext, trivial⟩⟩
  prev := by
    have back := chained.prev
    rw [show (xs ++ [p, a]).reverse = a :: (xs ++ [p]).reverse by simp] at back
    exact segment_congr (fun x member => prevs x (List.mem_reverse.mp member)) back.2

/-- A node with neighbours on both sides, taken out. -/
theorem remove {a p n : α} {xs ys : List α}
    (chained : Chained first last next prev (xs ++ p :: a :: n :: ys)) (pNext : next' p = some n)
    (nPrev : prev' n = some p) (nexts : ∀ x ∈ xs ++ n :: ys, next' x = next x)
    (prevs : ∀ x ∈ xs ++ p :: ys, prev' x = prev x) :
    Chained first last next' prev' (xs ++ p :: n :: ys) where
  first := by
    rw [chained.first]
    cases xs with
    | nil => rfl
    | cons x xs => rfl
  last := by
    rw [chained.last]
    simp
  nodup := by
    refine chained.nodup.sublist (List.Sublist.append_left (.cons_cons _ ?_) xs)
    simp
  next := by
    obtain ⟨front, -, -, tail⟩ := segment_append.mp chained.next
    refine segment_append.mpr ⟨?_, pNext, ?_⟩
    · refine segment_congr (fun x member => nexts x (List.mem_append_left _ member)) ?_
      simpa using front
    · exact segment_congr (fun x member => nexts x (List.mem_append_right _ member)) tail
  prev := by
    have back := chained.prev
    rw [show (xs ++ p :: a :: n :: ys).reverse = ys.reverse ++ n :: a :: p :: xs.reverse by simp]
      at back
    obtain ⟨front, -, -, tail⟩ := segment_append.mp back
    rw [show (xs ++ p :: n :: ys).reverse = ys.reverse ++ n :: p :: xs.reverse by simp]
    refine segment_append.mpr ⟨?_, nPrev, ?_⟩
    · refine segment_congr (fun x member => prevs x ?_) (by simpa using front)
      exact List.mem_append_right _ (.tail _ (List.mem_reverse.mp member))
    · refine segment_congr (fun x member => prevs x ?_) tail
      rcases List.mem_cons.mp member with rfl | inXs
      · exact List.mem_append_right _ (.head _)
      · exact List.mem_append_left _ (List.mem_reverse.mp inXs)

end Chained

end KTableFS.Theory
