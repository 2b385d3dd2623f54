/-
# Theory.Atomic -- objects whose operations happen at once

An `Object` is shared by threads: a thread calls an operation, some time later the operation
takes effect on the contents, all at once, and some time after that the call returns.  `serve`
says what an operation does; one that has to wait is `none`, and may take effect later.

A program implements the object if what its threads see, the calls and the returns in their
order, is what the threads of an object could see.  `refines` is the rule for that: each step of
the program is a step of the object, or none.
-/
import KTableFS.Theory.Run
import Mathlib.Logic.Function.Basic

namespace KTableFS.Theory.Atomic

set_option autoImplicit false

/-- Where a thread stands with its call. -/
inductive Status (ι ρ : Type) where
  | idle
  | pending (call : ι)
  | done (res : ρ)

structure Object (θ κ ι ρ : Type) where
  contents : κ
  status : θ → Status ι ρ

/-- What a thread sees. -/
inductive Event (θ ι ρ : Type) where
  | call (t : θ) (call : ι)
  | ret (t : θ) (res : ρ)

inductive Act (θ ι : Type) where
  | call (t : θ) (call : ι)
  | effect (t : θ)
  | ret (t : θ)

variable {θ κ ι ρ : Type} [DecidableEq θ]

def Object.step (serve : κ → ι → Option (κ × ρ)) (o : Object θ κ ι ρ) :
    Act θ ι → Option (Object θ κ ι ρ × List (Event θ ι ρ))
  | .call t call =>
      match o.status t with
      | .idle => some ({ o with status := Function.update o.status t (.pending call) }, [.call t call])
      | _ => none
  | .effect t =>
      match o.status t with
      | .pending call => (serve o.contents call).map fun out =>
          (⟨out.1, Function.update o.status t (.done out.2)⟩, [])
      | _ => none
  | .ret t =>
      match o.status t with
      | .done res => some ({ o with status := Function.update o.status t .idle }, [.ret t res])
      | _ => none

section Steps

variable {serve : κ → ι → Option (κ × ρ)} {o : Object θ κ ι ρ} {t : θ}

theorem step_call {call : ι} (idle : o.status t = .idle) : o.step serve (.call t call) =
    some ({ o with status := Function.update o.status t (.pending call) }, [.call t call]) := by
  rw [Object.step, idle]

theorem step_effect {call : ι} {contents : κ} {res : ρ} (pending : o.status t = .pending call)
    (served : serve o.contents call = some (contents, res)) : o.step serve (.effect t) =
    some (⟨contents, Function.update o.status t (.done res)⟩, []) := by
  rw [Object.step, pending]
  simp only [served, Option.map_some]

theorem step_ret {res : ρ} (done : o.status t = .done res) : o.step serve (.ret t) =
    some ({ o with status := Function.update o.status t .idle }, [.ret t res]) := by
  rw [Object.step, done]

/-- What is pending after a step was before it, or is called by it. -/
theorem step_pending {a : Act θ ι} {o' : Object θ κ ι ρ} {shown : List (Event θ ι ρ)} {call : ι}
    (taken : o.step serve a = some (o', shown)) (pending : o'.status t = .pending call) :
    o.status t = .pending call ∨ shown = [.call t call] := by
  have moved : ∀ {u : θ} {status : Status ι ρ}, Function.update o.status u status t = .pending call →
      o.status t = .pending call ∨ t = u ∧ status = .pending call := by
    intro u status here
    rcases eq_or_ne t u with rfl | ne
    · rw [Function.update_self] at here
      exact .inr ⟨rfl, here⟩
    · rw [Function.update_of_ne ne] at here
      exact .inl here
  rw [Object.step.eq_def] at taken
  split at taken
  next u call' =>
    split at taken
    · cases taken
      refine (moved pending).imp_right ?_
      rintro ⟨rfl, same⟩
      rw [Status.pending.inj same]
    · cases taken
  next u =>
    split at taken
    · obtain ⟨out, served, same⟩ := Option.map_eq_some_iff.mp taken
      cases same
      refine (moved pending).imp_right ?_
      rintro ⟨-, ⟨⟩⟩
    · cases taken
  next u =>
    split at taken
    · cases taken
      refine (moved pending).imp_right ?_
      rintro ⟨-, ⟨⟩⟩
    · cases taken

end Steps

/-- **The rule**: a program whose steps are steps of the object, or none, shows what the object does. -/
theorem refines {σ α τ β ε : Type} {step : σ → α → Option (σ × List ε)} {step' : τ → β → Option (τ × List ε)}
    {Inv : σ → Prop} {view : σ → τ}
    (steps : ∀ s a s' shown, Inv s → step s a = some (s', shown) → Inv s' ∧
      (view s' = view s ∧ shown = [] ∨ ∃ b, step' (view s) b = some (view s', shown))) :
    ∀ {as : List α} {s final : σ} {out : List (List ε)}, Inv s → Run.run step s as = some (final, out) →
      Inv final ∧ ∃ bs out', Run.run step' (view s) bs = some (view final, out') ∧ out'.flatten = out.flatten := by
  intro as
  induction as with
  | nil =>
      rintro s final out inv ⟨⟩
      exact ⟨inv, [], [], rfl, rfl⟩
  | cons a as ih =>
      intro s final out inv ran
      obtain ⟨s', shown, out₁, taken, rest, rfl⟩ := Run.run_cons_eq_some.mp ran
      obtain ⟨inv', here⟩ := steps s a s' shown inv taken
      obtain ⟨last, bs, out', ran', same⟩ := ih inv' rest
      rcases here with ⟨still, rfl⟩ | ⟨b, taken'⟩
      · rw [still] at ran'
        exact ⟨last, bs, out', ran', same⟩
      · refine ⟨last, b :: bs, shown :: out', Run.run_cons_eq_some.mpr ⟨_, _, _, taken', ran', rfl⟩, ?_⟩
        rw [List.flatten_cons, List.flatten_cons, same]

end KTableFS.Theory.Atomic
