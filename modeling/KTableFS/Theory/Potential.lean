/-
# Theory.Potential -- runs that pay for their steps

What a step costs is paid for by a number the state stores up, and by what the step brings in.
`Run.potential`: no run has more costly steps than it brings in and finds at its start.
-/
import KTableFS.Theory.Run
import Mathlib.Algebra.Ring.Nat

namespace KTableFS.Theory.Run

set_option autoImplicit false

variable {σ α β : Type} {step : σ → α → Option (σ × β)}

/-- The steps that have to be paid for are so by what a run brings in and by what was there at its
start. -/
theorem potential {Inv : σ → Prop} {Ok : σ → α → Prop} {pot : σ → Nat} {costs : α → Bool} {gain : α → Nat}
    (paid : ∀ s a s' b, Inv s → Ok s a → step s a = some (s', b) →
      Inv s' ∧ pot s' + (costs a).toNat ≤ pot s + gain a) :
    ∀ {as : List α} {s final : σ} {bs : List β}, Inv s → Along step Ok s as →
      run step s as = some (final, bs) → pot final + as.countP costs ≤ pot s + (as.map gain).sum := by
  intro as
  induction as with
  | nil =>
      rintro s final bs _ _ ⟨⟩
      exact Nat.le_refl _
  | cons a as ih =>
      intro s final bs inv along ran
      obtain ⟨s', b, bs', taken, rest, -⟩ := run_cons_eq_some.mp ran
      obtain ⟨inv', here⟩ := paid s a s' b inv along.1 taken
      have later := ih inv' (along.2 s' b taken) rest
      have counted : (a :: as).countP costs = as.countP costs + (costs a).toNat := by
        rw [List.countP_cons]
        cases costs a <;> rfl
      rw [counted, List.map_cons, List.sum_cons]
      omega

end KTableFS.Theory.Run
