/-
# Theory.Lists -- ranges of sorted lists, members of related lists

A condition that holds of everything below an element it holds of cuts a sorted
list in two; taking or dropping while it holds is then filtering by it.

Lists related element by element relate every member of one to a member of the other;
members of a zip are told apart by a relation that is pairwise in its first list.

A function to numbers below `n` cuts a list into `n` lists.
-/
import Mathlib.Data.List.Basic
import Mathlib.Data.List.Forall2

namespace KTableFS.Theory

set_option autoImplicit false

variable {α : Type} {r : α → α → Prop} {p : α → Bool}

/-- A prefix condition takes a sorted list apart as a filter does. -/
theorem takeWhile_eq_filter (closed : ∀ a b, r a b → p b = true → p a = true) :
    ∀ {l : List α}, l.Pairwise r → l.takeWhile p = l.filter p
  | [], _ => rfl
  | a :: rest, sorted => by
      obtain ⟨above, sorted'⟩ := List.pairwise_cons.mp sorted
      cases holds : p a with
      | true =>
          rw [List.takeWhile_cons_of_pos holds, List.filter_cons_of_pos holds,
            takeWhile_eq_filter closed sorted']
      | false =>
          have none' : rest.filter p = [] := by
            rw [List.filter_eq_nil_iff]
            intro b member above'
            rw [closed a b (above b member) above'] at holds
            cases holds
          rw [List.takeWhile_cons_of_neg (by simp [holds]), List.filter_cons_of_neg (by simp [holds]),
            none']

theorem dropWhile_eq_filter (closed : ∀ a b, r a b → p b = true → p a = true) :
    ∀ {l : List α}, l.Pairwise r → l.dropWhile p = l.filter fun a => !p a
  | [], _ => rfl
  | a :: rest, sorted => by
      obtain ⟨above, sorted'⟩ := List.pairwise_cons.mp sorted
      cases holds : p a with
      | true =>
          rw [List.dropWhile_cons_of_pos holds, List.filter_cons_of_neg (by simp [holds]),
            dropWhile_eq_filter closed sorted']
      | false =>
          have all : rest.filter (fun a => !p a) = rest := by
            rw [List.filter_eq_self]
            intro b member
            cases below : p b with
            | false => rfl
            | true =>
                rw [closed a b (above b member) below] at holds
                cases holds
          rw [List.dropWhile_cons_of_neg (by simp [holds]), List.filter_cons_of_pos (by simp [holds]),
            all]

variable {β : Type} {R : α → β → Prop}

/-- Two members of a zip are the same one, or the pairwise relation of the first list
holds between them one way round. -/
theorem mem_zip_pairwise {r : α → α → Prop} : ∀ {l : List α} {u : List β}, l.Pairwise r →
    ∀ {x y : α × β}, x ∈ l.zip u → y ∈ l.zip u → x = y ∨ r x.1 y.1 ∨ r y.1 x.1
  | [], _, _, _, _, inX, _ => by simp at inX
  | _ :: _, [], _, _, _, inX, _ => by simp at inX
  | a :: l, b :: u, sorted, x, y, inX, inY => by
      obtain ⟨above, sorted'⟩ := List.pairwise_cons.mp sorted
      rw [List.zip_cons_cons, List.mem_cons] at inX inY
      rcases inX with rfl | laterX
      · rcases inY with rfl | laterY
        · exact Or.inl rfl
        · exact Or.inr (Or.inl (above y.1 (List.of_mem_zip laterY).1))
      · rcases inY with rfl | laterY
        · exact Or.inr (Or.inr (above x.1 (List.of_mem_zip laterX).1))
        · exact mem_zip_pairwise sorted' laterX laterY

/-- Two different members come first in some order. -/
theorem exists_perm_cons_cons {l : List α} {a b : α} (mem : a ∈ l) (mem' : b ∈ l) (differ : a ≠ b) :
    ∃ rest, (a :: b :: rest).Perm l := by
  obtain ⟨left, right, rfl⟩ := List.append_of_mem mem
  have others : b ∈ left ++ right := by
    rw [List.mem_append, List.mem_cons] at mem'
    rw [List.mem_append]
    rcases mem' with inLeft | rfl | inRight
    · exact Or.inl inLeft
    · exact absurd rfl differ
    · exact Or.inr inRight
  obtain ⟨left', right', shape⟩ := List.append_of_mem others
  refine ⟨left' ++ right', (List.Perm.cons a ?_).trans List.perm_middle.symm⟩
  rw [shape]
  exact List.perm_middle.symm

/-- A list is cut by a function into the elements of each value. -/
theorem flatMap_filter_perm {f : α → Nat} {n : Nat} {l : List α} (inRange : ∀ a ∈ l, f a < n) :
    ((List.range n).flatMap fun k => l.filter fun a => f a == k).Perm l := by
  have below : ∀ m, ((List.range m).flatMap fun k => l.filter fun a => f a == k).Perm
      (l.filter fun a => decide (f a < m)) := by
    intro m
    induction m with
    | zero => simp
    | succ m ih =>
        have cut := List.filter_append_perm (fun a => decide (f a < m))
          (l.filter fun a => decide (f a < m + 1))
        have old : ∀ a ∈ l, (decide (f a < m) && decide (f a < m + 1)) = decide (f a < m) := by
          intro a _
          simp only [← Bool.decide_and, decide_eq_decide]
          omega
        have new : ∀ a ∈ l, (!decide (f a < m) && decide (f a < m + 1)) = (f a == m) := by
          intro a _
          rw [Bool.eq_iff_iff]
          simp only [Bool.and_eq_true, Bool.not_eq_true', decide_eq_false_iff_not, decide_eq_true_eq,
            beq_iff_eq]
          omega
        rw [List.filter_filter, List.filter_filter, List.filter_congr old, List.filter_congr new] at cut
        rw [List.range_succ, List.flatMap_append, List.flatMap_singleton]
        exact (ih.append_right _).trans cut
  have all : (l.filter fun a => decide (f a < n)) = l := by
    rw [List.filter_eq_self]
    intro a member
    simpa using inRange a member
  have whole := below n
  rwa [all] at whole

end KTableFS.Theory
