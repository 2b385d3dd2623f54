/-
# Theory.Weave -- the contents of a node with many children

A node of a search tree with `n` keys has `n + 1` children, and its contents are theirs with
the keys in between: `weave kids keys`.  A leaf has no children, and its contents are its keys.
`weaveLeft` and `weaveRight` are what is on the two sides of a child (`weave_split`).
-/
import Mathlib.Data.List.Basic

namespace KTableFS.Theory

set_option autoImplicit false

variable {α : Type}

/-- Children, each with the key behind it. -/
def weaveLeft (kids : List (List α)) (keys : List α) : List α :=
  (List.zipWith (fun kid key => kid ++ [key]) kids keys).flatten

/-- Keys, each with the child behind it. -/
def weaveRight (keys : List α) (kids : List (List α)) : List α :=
  (List.zipWith (fun key kid => key :: kid) keys kids).flatten

def weave : List (List α) → List α → List α
  | [], keys => keys
  | kid :: kids, keys => kid ++ weaveRight keys kids

@[simp] theorem weaveLeft_nil : weaveLeft ([] : List (List α)) [] = [] := rfl

@[simp] theorem weaveRight_nil : weaveRight ([] : List α) [] = [] := rfl

@[simp] theorem weaveLeft_cons (kid : List α) (kids : List (List α)) (key : α) (keys : List α) :
    weaveLeft (kid :: kids) (key :: keys) = kid ++ key :: weaveLeft kids keys := by
  simp [weaveLeft]

@[simp] theorem weaveRight_cons (key : α) (keys : List α) (kid : List α) (kids : List (List α)) :
    weaveRight (key :: keys) (kid :: kids) = key :: (kid ++ weaveRight keys kids) := by
  simp [weaveRight]

@[simp] theorem weave_cons (kid kid' : List α) (kids : List (List α)) (key : α) (keys : List α) :
    weave (kid :: kid' :: kids) (key :: keys) = kid ++ key :: weave (kid' :: kids) keys := by
  simp [weave]

@[simp] theorem weave_leaf (keys : List α) : weave [] keys = keys := rfl

theorem weaveLeft_append {kids kids' : List (List α)} {keys keys' : List α} (same : kids.length = keys.length) :
    weaveLeft (kids ++ kids') (keys ++ keys') = weaveLeft kids keys ++ weaveLeft kids' keys' := by
  rw [weaveLeft, weaveLeft, weaveLeft, List.zipWith_append same, List.flatten_append]

/-- What is on the two sides of a child. -/
theorem weave_split (kid : List α) (kids' : List (List α)) (keys' : List α) :
    ∀ {kids : List (List α)} {keys : List α}, kids.length = keys.length →
    weave (kids ++ kid :: kids') (keys ++ keys') = weaveLeft kids keys ++ (kid ++ weaveRight keys' kids')
  | [], [], _ => rfl
  | first :: kids, key :: keys, same => by
      have rest := weave_split kid kids' keys' (Nat.succ.inj same)
      cases kids with
      | nil =>
          obtain rfl : keys = [] := List.length_eq_zero_iff.mp (Nat.succ.inj same).symm
          simp [weave]
      | cons second kids =>
          simp only [List.cons_append, weave] at rest ⊢
          rw [weaveRight_cons, rest, weaveLeft_cons, List.append_assoc, List.cons_append]

/-- A key between two nodes. -/
theorem weave_join (key : α) {kids kids' : List (List α)} {keys keys' : List α}
    (first : kids.length = keys.length + 1 ∧ kids'.length = keys'.length + 1 ∨ kids = [] ∧ kids' = []) :
    weave (kids ++ kids') (keys ++ key :: keys') = weave kids keys ++ key :: weave kids' keys' := by
  rcases first with ⟨more, more'⟩ | ⟨rfl, rfl⟩
  · obtain ⟨init, last, rfl⟩ : ∃ init last, kids = init ++ [last] := by
      refine ⟨kids.dropLast, kids.getLast ?_, (List.dropLast_append_getLast _).symm⟩
      rintro rfl
      cases more
    obtain ⟨kid, rest, rfl⟩ : ∃ kid rest, kids' = kid :: rest := by
      cases kids' with
      | nil => cases more'
      | cons kid rest => exact ⟨kid, rest, rfl⟩
    have same : init.length = keys.length := by simpa using more
    have whole := weave_split last (kid :: rest) (key :: keys') same
    have half := weave_split last [] [] same
    simp only [List.append_nil, weaveRight_nil] at half
    rw [List.append_assoc, List.cons_append, List.nil_append, whole, half, weaveRight_cons, weave]
    simp only [List.append_assoc]
  · rfl

/-! ## Lengths and ends -/

theorem length_weaveLeft : ∀ {kids : List (List α)} {keys : List α}, kids.length = keys.length →
    (weaveLeft kids keys).length = kids.flatten.length + keys.length
  | [], [], _ => rfl
  | kid :: kids, key :: keys, same => by
      have rest := length_weaveLeft (Nat.succ.inj same)
      rw [weaveLeft_cons, List.length_append, List.length_cons, rest, List.flatten_cons, List.length_append,
        List.length_cons]
      omega

theorem length_weaveRight : ∀ {keys : List α} {kids : List (List α)}, keys.length = kids.length →
    (weaveRight keys kids).length = keys.length + kids.flatten.length
  | [], [], _ => rfl
  | key :: keys, kid :: kids, same => by
      have rest := length_weaveRight (Nat.succ.inj same)
      rw [weaveRight_cons, List.length_cons, List.length_append, rest, List.flatten_cons, List.length_append,
        List.length_cons]
      omega

theorem length_weave {kids : List (List α)} {keys : List α}
    (more : kids.length = keys.length + 1 ∨ kids = []) :
    (weave kids keys).length = kids.flatten.length + keys.length := by
  cases kids with
  | nil => simp
  | cons kid kids =>
      have same : keys.length = kids.length := by
        rcases more with more | none
        · exact (Nat.succ.inj more).symm
        · cases none
      rw [weave, List.length_append, length_weaveRight same, List.flatten_cons, List.length_append]
      omega

theorem mem_weaveLeft_of_key {key : α} : ∀ {kids : List (List α)} {keys : List α}, kids.length = keys.length →
    key ∈ keys → key ∈ weaveLeft kids keys
  | [], [], _, member => member
  | kid :: kids, first :: keys, same, member => by
      rw [weaveLeft_cons, List.mem_append, List.mem_cons]
      rcases List.mem_cons.mp member with rfl | later
      · exact Or.inr (Or.inl rfl)
      · exact Or.inr (Or.inr (mem_weaveLeft_of_key (Nat.succ.inj same) later))

theorem mem_weaveRight_of_key {key : α} : ∀ {keys : List α} {kids : List (List α)}, keys.length = kids.length →
    key ∈ keys → key ∈ weaveRight keys kids
  | [], [], _, member => member
  | first :: keys, kid :: kids, same, member => by
      rw [weaveRight_cons, List.mem_cons, List.mem_append]
      rcases List.mem_cons.mp member with rfl | later
      · exact Or.inl rfl
      · exact Or.inr (Or.inr (mem_weaveRight_of_key (Nat.succ.inj same) later))

theorem mem_weave_of_key {key : α} {kids : List (List α)} {keys : List α}
    (more : kids.length = keys.length + 1 ∨ kids = []) (member : key ∈ keys) : key ∈ weave kids keys := by
  cases kids with
  | nil => exact member
  | cons kid kids =>
      have same : keys.length = kids.length := by
        rcases more with more | none
        · exact (Nat.succ.inj more).symm
        · cases none
      exact List.mem_append_right _ (mem_weaveRight_of_key same member)

theorem getLast?_weaveLeft : ∀ {kids : List (List α)} {keys : List α}, kids.length = keys.length →
    (weaveLeft kids keys).getLast? = keys.getLast?
  | [], [], _ => rfl
  | [kid], [key], _ => by simp
  | kid :: kid' :: kids, key :: key' :: keys, same => by
      have rest := getLast?_weaveLeft (Nat.succ.inj same)
      rw [weaveLeft_cons, List.getLast?_append, List.getLast?_cons, rest, List.getLast?_cons_cons,
        List.getLast?_cons]
      rfl

theorem head?_weaveRight {keys : List α} {kids : List (List α)} (same : keys.length = kids.length) :
    (weaveRight keys kids).head? = keys.head? := by
  cases keys with
  | nil =>
      obtain rfl : kids = [] := List.length_eq_zero_iff.mp same.symm
      rfl
  | cons key keys =>
      cases kids with
      | nil => cases same
      | cons kid kids => rw [weaveRight_cons, List.head?_cons, List.head?_cons]

end KTableFS.Theory
