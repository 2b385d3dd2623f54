/-
# Theory.Chain -- singly linked lists

`Leads next s xs e` says that from `s` the field `next` leads along `xs` and then to `e`.  A
list of a program is one that leads to its null pointer; a part of a list leads to what
follows it (`leads_append`).

The rules say what is left of a list by a write to the field: nothing changes unless a cell of
the list is written (`Leads.congr`, `Leads.frame`), and a write to the last cell changes where
it leads to (`Leads.relink`).
-/
import Mathlib.Data.List.Basic
import Mathlib.Data.List.Nodup
import Mathlib.Logic.Function.Basic

namespace KTableFS.Theory

set_option autoImplicit false

variable {α : Type}

/-- The field `next` leads from `s` along the list and then to `e`. -/
def Leads (next : α → α) : α → List α → α → Prop
  | s, [], e => s = e
  | s, x :: xs, e => s = x ∧ Leads next (next x) xs e

variable {next next' : α → α} {s e : α}

theorem Leads.start : ∀ {xs : List α} {s : α}, Leads next s xs e → s = xs.headD e
  | [], _, leads => leads
  | _ :: _, _, leads => leads.1

theorem leads_append : ∀ {xs ys : List α} {s : α}, Leads next s (xs ++ ys) e ↔
    Leads next s xs (ys.headD e) ∧ Leads next (ys.headD e) ys e
  | [], ys, s => by
      constructor
      · intro leads
        exact ⟨leads.start, leads.start ▸ leads⟩
      · rintro ⟨rfl, leads⟩
        exact leads
  | x :: xs, ys, s => by
      rw [List.cons_append, Leads, Leads, leads_append, and_assoc]

theorem leads_snoc {xs : List α} {x : α} : Leads next s (xs ++ [x]) e ↔ Leads next s xs x ∧ next x = e := by
  rw [leads_append]
  simp [Leads]

/-- A part of a list, and the cell behind it. -/
theorem leads_cons_append {xs ys : List α} {x : α} : Leads next s (xs ++ x :: ys) e ↔
    Leads next s xs x ∧ next x = ys.headD e ∧ Leads next (next x) ys e := by
  rw [leads_append, List.headD_cons, Leads]
  constructor
  · rintro ⟨first, -, rest⟩
    exact ⟨first, rest.start, rest⟩
  · rintro ⟨first, -, rest⟩
    exact ⟨first, rfl, rest⟩

/-- Only the cells of a list matter to it. -/
theorem Leads.congr : ∀ {xs : List α} {s : α}, Leads next s xs e → (∀ x ∈ xs, next' x = next x) →
    Leads next' s xs e
  | [], _, leads, _ => leads
  | x :: xs, _, leads, same => by
      refine ⟨leads.1, ?_⟩
      rw [same x (List.mem_cons_self ..)]
      exact leads.2.congr fun y member => same y (List.mem_cons_of_mem _ member)

section Update

variable [DecidableEq α]

theorem Leads.frame {xs : List α} {a : α} (leads : Leads next s xs e) (b : α) (other : a ∉ xs) :
    Leads (Function.update next a b) s xs e := by
  refine leads.congr fun x member => Function.update_of_ne ?_ ..
  rintro rfl
  exact other member

/-- The last cell is written. -/
theorem Leads.relink {xs : List α} {x : α} (leads : Leads next s (xs ++ [x]) e) (e' : α) (other : x ∉ xs) :
    Leads (Function.update next x e') s (xs ++ [x]) e' :=
  leads_snoc.mpr ⟨(leads_snoc.mp leads).1.frame e' other, Function.update_self ..⟩

end Update

end KTableFS.Theory
