/-
# Theory.Run -- runs of a partial step function

`Run.run step s as` folds a step function that may get stuck (`none`: the program
has no defined next state) over a list of inputs and collects its outputs.  A side
condition on the steps of a run is `Run.Along`: it holds of every input at the
state the run has reached when it takes that input.

Nine rules, each used by name:

* `Run.invariant` -- what every step meeting the condition preserves holds at the
  end of every such run (and so, runs being closed under shortening, in every
  state on the way);
* `Run.history` -- the same for a property of the state and of the inputs so far;
* `Run.trail` -- of the state and of the inputs so far with their outputs;
* `Run.filter` -- inputs that a relation does not see can be left out of a run;
* `Run.along_iff` -- when a step keeps a property exactly if it meets the condition,
  a run keeps it all along exactly if all its steps do;
* `Run.total` -- when an invariant state can take every admissible step, no such
  run gets stuck;
* `Run.simulates` -- a relation to an abstract deterministic machine that every
  admissible step respects makes the outputs of the two runs equal;
* `Run.simulates_upTo` -- or alike, where the steps' outputs are;
* `Run.follows` -- where the other machine may get stuck, the outputs are equal as far as
  it runs.
-/
import Mathlib.Data.List.Induction

namespace KTableFS.Theory.Run

set_option autoImplicit false

variable {σ τ α β : Type}

section Definitions

variable (step : σ → α → Option (σ × β))

/-- The state and outputs after a list of inputs, if the run does not get stuck. -/
def run : σ → List α → Option (σ × List β)
  | s, [] => some (s, [])
  | s, a :: as =>
      match step s a with
      | none => none
      | some (s', b) => (run s' as).map fun end' => (end'.1, b :: end'.2)

/-- The same for a machine that never gets stuck. -/
def trace (next : τ → α → τ × β) : τ → List α → τ × List β
  | t, [] => (t, [])
  | t, a :: as =>
      let rest := trace next (next t a).1 as
      (rest.1, (next t a).2 :: rest.2)

/-- `Ok` holds of every input at the state the run takes it in. -/
def Along (Ok : σ → α → Prop) : σ → List α → Prop
  | _, [] => True
  | s, a :: as => Ok s a ∧ ∀ s' b, step s a = some (s', b) → Along Ok s' as

end Definitions

variable {step : σ → α → Option (σ × β)}

@[simp] theorem run_nil (s : σ) : run step s [] = some (s, []) := rfl

theorem run_cons_eq_some {s final : σ} {a : α} {as : List α} {bs : List β} :
    run step s (a :: as) = some (final, bs) ↔
      ∃ s' b bs', step s a = some (s', b) ∧ run step s' as = some (final, bs') ∧ bs = b :: bs' := by
  simp only [run]
  cases taken : step s a with
  | none => simp
  | some out =>
      obtain ⟨s', b⟩ := out
      simp only [Option.map_eq_some_iff, Prod.mk.injEq, Option.some.injEq]
      constructor
      · rintro ⟨⟨_, bs'⟩, rest, rfl, rfl⟩
        exact ⟨s', b, bs', ⟨rfl, rfl⟩, rest, rfl⟩
      · rintro ⟨_, _, bs', ⟨rfl, rfl⟩, rest, rfl⟩
        exact ⟨(final, bs'), rest, rfl, rfl⟩

/-- A run of two lists is a run of the first and, from where it ends, one of the second. -/
theorem run_append_eq_some : ∀ {as as' : List α} {s final : σ} {bs : List β},
    run step s (as ++ as') = some (final, bs) ↔
      ∃ mid bs₁ bs₂, run step s as = some (mid, bs₁) ∧ run step mid as' = some (final, bs₂) ∧
        bs = bs₁ ++ bs₂
  | [], as', s, final, bs => by
      constructor
      · intro ran
        exact ⟨s, [], bs, rfl, ran, rfl⟩
      · rintro ⟨mid, bs₁, bs₂, first, second, rfl⟩
        cases first
        exact second
  | a :: as, as', s, final, bs => by
      rw [List.cons_append, run_cons_eq_some]
      constructor
      · rintro ⟨s', b, later, taken, ran, rfl⟩
        obtain ⟨mid, bs₁, bs₂, first, second, rfl⟩ := run_append_eq_some.mp ran
        exact ⟨mid, b :: bs₁, bs₂, run_cons_eq_some.mpr ⟨s', b, bs₁, taken, first, rfl⟩, second, rfl⟩
      · rintro ⟨mid, bs₁, bs₂, first, second, rfl⟩
        obtain ⟨s', b, later, taken, ran, rfl⟩ := run_cons_eq_some.mp first
        exact ⟨s', b, later ++ bs₂, taken,
          run_append_eq_some.mpr ⟨mid, later, bs₂, ran, second, rfl⟩, rfl⟩

/-- There is one output for each input. -/
theorem length_run {as : List α} : ∀ {s final : σ} {bs : List β}, run step s as = some (final, bs) →
    bs.length = as.length := by
  induction as with
  | nil =>
      rintro s final bs ⟨⟩
      rfl
  | cons a as ih =>
      intro s final bs ran
      obtain ⟨s', b, bs', -, rest, rfl⟩ := run_cons_eq_some.mp ran
      rw [List.length_cons, List.length_cons, ih rest]

theorem trace_append (next : τ → α → τ × β) (as as' : List α) : ∀ t : τ,
    trace next t (as ++ as') =
      ((trace next (trace next t as).1 as').1,
        (trace next t as).2 ++ (trace next (trace next t as).1 as').2) := by
  induction as with
  | nil => exact fun _ => rfl
  | cons a as ih =>
      intro t
      simp only [List.cons_append, trace, ih]

theorem length_trace (next : τ → α → τ × β) (as : List α) : ∀ t : τ,
    (trace next t as).2.length = as.length := by
  induction as with
  | nil => exact fun _ => rfl
  | cons a as ih =>
      intro t
      simp only [trace, List.length_cons, ih]

/-- A condition on the inputs alone holds along every run over them. -/
theorem Along.of_forall {P : α → Prop} : ∀ {s : σ} {as : List α}, (∀ a ∈ as, P a) →
    Along step (fun _ a => P a) s as
  | _, [], _ => trivial
  | _, _ :: _, all => ⟨all _ (List.mem_cons_self ..), fun _ _ _ =>
      Along.of_forall fun a member => all a (List.mem_cons_of_mem _ member)⟩

theorem Along.and_forall {Ok : σ → α → Prop} {P : α → Prop} : ∀ {s : σ} {as : List α},
    Along step Ok s as → (∀ a ∈ as, P a) → Along step (fun s a => Ok s a ∧ P a) s as
  | _, [], _, _ => trivial
  | _, _ :: _, along, all => ⟨⟨along.1, all _ (List.mem_cons_self ..)⟩, fun s' b taken =>
      (along.2 s' b taken).and_forall fun a member => all a (List.mem_cons_of_mem _ member)⟩

theorem Along.and {Ok Ok' : σ → α → Prop} : ∀ {s : σ} {as : List α}, Along step Ok s as →
    Along step Ok' s as → Along step (fun s a => Ok s a ∧ Ok' s a) s as
  | _, [], _, _ => trivial
  | _, _ :: _, first, second =>
      ⟨⟨first.1, second.1⟩, fun s' b taken => (first.2 s' b taken).and (second.2 s' b taken)⟩

theorem along_and {Ok Ok' : σ → α → Prop} {s : σ} {as : List α} :
    Along step (fun s a => Ok s a ∧ Ok' s a) s as ↔ Along step Ok s as ∧ Along step Ok' s as := by
  constructor
  · induction as generalizing s with
    | nil => exact fun _ => ⟨trivial, trivial⟩
    | cons a as ih =>
        rintro ⟨here, later⟩
        exact ⟨⟨here.1, fun s' b taken => (ih (later s' b taken)).1⟩,
          ⟨here.2, fun s' b taken => (ih (later s' b taken)).2⟩⟩
  · exact fun both => both.1.and both.2

/-- Conditions that agree in good states agree along a run that stays in them. -/
theorem Along.congr_kept {Good : σ → Prop} {Ok Ok' : σ → α → Prop}
    (same : ∀ s a, Good s → (Ok s a ↔ Ok' s a))
    (kept : ∀ s a s' b, Good s → Ok s a → step s a = some (s', b) → Good s') :
    ∀ {as : List α} {s : σ}, Good s → (Along step Ok s as ↔ Along step Ok' s as) := by
  intro as
  induction as with
  | nil => exact fun _ => Iff.rfl
  | cons a as ih =>
      intro s good
      refine (and_congr_right fun ok => ?_).trans (and_congr_left fun _ => same s a good)
      exact forall_congr' fun s' => forall_congr' fun b => imp_congr_right fun taken =>
        ih (kept s a s' b good ok taken)

/-- A property of every state a run reaches is one of the steps it takes. -/
theorem along_reached {Good : σ → Prop} : ∀ {as : List α} {s : σ}, Good s →
    (Along step (fun s a => ∀ s' b, step s a = some (s', b) → Good s') s as ↔
      ∀ n s' bs, run step s (as.take n) = some (s', bs) → Good s') := by
  intro as
  induction as with
  | nil =>
      intro s good
      refine iff_of_true trivial fun n s' bs ran => ?_
      rw [List.take_nil, run_nil, Option.some.injEq, Prod.mk.injEq] at ran
      exact ran.1 ▸ good
  | cons a as ih =>
      intro s good
      constructor
      · rintro ⟨here, later⟩ n t ts reached
        cases n with
        | zero =>
            rw [List.take_zero, run_nil, Option.some.injEq, Prod.mk.injEq] at reached
            exact reached.1 ▸ good
        | succ n =>
            rw [List.take_succ_cons, run_cons_eq_some] at reached
            obtain ⟨s', b, ts', taken, reached, -⟩ := reached
            exact (ih (here s' b taken)).mp (later s' b taken) n t ts' reached
      · intro all
        have here : ∀ s' b, step s a = some (s', b) → Good s' := fun s' b taken =>
          all 1 s' [b] (run_cons_eq_some.mpr ⟨s', b, [], taken, rfl, rfl⟩)
        refine ⟨here, fun s' b taken => (ih (here s' b taken)).mpr fun n t ts reached => ?_⟩
        exact all (n + 1) t (b :: ts) (run_cons_eq_some.mpr ⟨s', b, ts, taken, reached, rfl⟩)

/-- Two machines that go through the same states give related outputs exactly where each step does. -/
theorem forall₂_trace_iff {γ : Type} {S : β → γ → Prop} {next : τ → α → τ × β} {next' : τ → α → τ × γ}
    (same : ∀ t a, (next t a).1 = (next' t a).1) : ∀ {as : List α} {t : τ},
    (List.Forall₂ S (trace next t as).2 (trace next' t as).2 ↔
      Along (fun t a => some (next t a)) (fun t a => S (next t a).2 (next' t a).2) t as) := by
  intro as
  induction as with
  | nil => exact fun {t} => iff_of_true .nil trivial
  | cons a as ih =>
      intro t
      simp only [trace, List.forall₂_cons, Along, ← same t a]
      refine and_congr_right fun _ => ih.trans ⟨fun along t' b taken => ?_, fun along => along _ _ rfl⟩
      rw [Option.some.inj taken] at along
      exact along

/-- A run that is cut short meets the condition as far as it goes. -/
theorem Along.take {Ok : σ → α → Prop} : ∀ {as : List α} {s : σ}, Along step Ok s as →
    ∀ n, Along step Ok s (as.take n)
  | _, _, _, 0 => trivial
  | [], _, _, _ + 1 => trivial
  | _ :: _, _, along, n + 1 => ⟨along.1, fun s' b taken => (along.2 s' b taken).take n⟩

/-- Conditions that agree in the states of an invariant agree along the runs from them. -/
theorem Along.congr {Inv : σ → Prop} {P : α → Prop} {Ok Ok' : σ → α → Prop}
    (preserved : ∀ s a s' b, Inv s → P a → step s a = some (s', b) → Inv s')
    (same : ∀ s a, Inv s → P a → (Ok s a ↔ Ok' s a)) : ∀ {as : List α} {s : σ}, Inv s →
      (∀ a ∈ as, P a) → (Along step Ok s as ↔ Along step Ok' s as) := by
  intro as
  induction as with
  | nil => exact fun _ _ => Iff.rfl
  | cons a as ih =>
      intro s inv all
      have here := all a (List.mem_cons_self ..)
      apply and_congr (same s a inv here)
      refine forall_congr' fun s' => forall_congr' fun b => imp_congr_right fun taken => ?_
      exact ih (preserved s a s' b inv here taken) fun c member => all c (List.mem_cons_of_mem _ member)

/-- A condition that can be checked at every step can be checked along a run. -/
instance Along.decidable {Ok : σ → α → Prop} [∀ s a, Decidable (Ok s a)] :
    ∀ (s : σ) (as : List α), Decidable (Along step Ok s as)
  | _, [] => isTrue trivial
  | s, a :: as =>
      match taken : step s a with
      | none => decidable_of_iff (Ok s a) ⟨fun ok => ⟨ok, by simp [taken]⟩, And.left⟩
      | some (s', b) =>
          have : Decidable (Along step Ok s' as) := Along.decidable s' as
          decidable_of_iff (Ok s a ∧ Along step Ok s' as) (by simp [Along, taken])

/-- What every admissible step preserves holds at the end of an admissible run. -/
theorem invariant {Inv : σ → Prop} {Ok : σ → α → Prop}
    (preserved : ∀ s a s' b, Inv s → Ok s a → step s a = some (s', b) → Inv s') :
    ∀ {as : List α} {s final : σ} {bs : List β}, Inv s → Along step Ok s as →
      run step s as = some (final, bs) → Inv final := by
  intro as
  induction as with
  | nil =>
      intro s final bs inv _ ran
      simp only [run_nil, Option.some.injEq, Prod.mk.injEq] at ran
      exact ran.1 ▸ inv
  | cons a as ih =>
      intro s final bs inv along ran
      obtain ⟨s', b, bs', taken, rest, -⟩ := run_cons_eq_some.mp ran
      exact ih (preserved s a s' b inv along.1 taken) (along.2 s' b taken) rest

/-- What a step preserves of the state and the inputs so far holds at the end of a run. -/
theorem history {s₀ : σ} {Inv : List α → σ → Prop} (start : Inv [] s₀)
    (preserved : ∀ as s bs a s' b, run step s₀ as = some (s, bs) → Inv as s → step s a = some (s', b) →
      Inv (as ++ [a]) s') :
    ∀ {as : List α} {s : σ} {bs : List β}, run step s₀ as = some (s, bs) → Inv as s := by
  intro as
  induction as using List.reverseRecOn with
  | nil =>
      rintro s bs ⟨⟩
      exact start
  | append_singleton as a ih =>
      intro s bs ran
      obtain ⟨mid, bs₁, bs₂, first, last, -⟩ := run_append_eq_some.mp ran
      obtain ⟨s', b, bs', taken, stays, -⟩ := run_cons_eq_some.mp last
      cases stays
      exact preserved as mid bs₁ a s b first (ih first) taken

/-- The same for the inputs so far with their outputs. -/
theorem trail {Inv : List (α × β) → σ → Prop} {P : α → Prop}
    (preserved : ∀ done s a s' b, Inv done s → P a → step s a = some (s', b) → Inv (done ++ [(a, b)]) s') :
    ∀ {as : List α} {s final : σ} {bs : List β} {done : List (α × β)}, Inv done s → (∀ a ∈ as, P a) →
      run step s as = some (final, bs) → Inv (done ++ as.zip bs) final := by
  intro as
  induction as with
  | nil =>
      rintro s final bs done inv _ ⟨⟩
      rw [List.zip_nil_left, List.append_nil]
      exact inv
  | cons a as ih =>
      intro s final bs done inv all ran
      obtain ⟨s', b, bs', taken, rest, rfl⟩ := run_cons_eq_some.mp ran
      have next := preserved done s a s' b inv (all a (List.mem_cons_self ..)) taken
      have last := ih next (fun a' member => all a' (List.mem_cons_of_mem _ member)) rest
      rwa [List.append_assoc] at last

/-- **Leaving inputs out.**  A relation that visible inputs respect on both sides and hidden
inputs on one leads from a run to a run of its visible inputs. -/
theorem filter {step' : τ → α → Option (τ × β)} {R : σ → τ → Prop} {visible : α → Bool}
    (shown : ∀ s t a s' b, R s t → visible a = true → step s a = some (s', b) →
      ∃ t' b', step' t a = some (t', b') ∧ R s' t')
    (hidden : ∀ s t a s' b, R s t → visible a = false → step s a = some (s', b) → R s' t) :
    ∀ {as : List α} {s final : σ} {t : τ} {bs : List β}, R s t → run step s as = some (final, bs) →
      ∃ final' bs', run step' t (as.filter visible) = some (final', bs') ∧ R final final' := by
  intro as
  induction as with
  | nil =>
      rintro s final t bs related ⟨⟩
      exact ⟨t, [], rfl, related⟩
  | cons a as ih =>
      intro s final t bs related ran
      obtain ⟨s', b, bs', taken, rest, -⟩ := run_cons_eq_some.mp ran
      by_cases seen : visible a = true
      · obtain ⟨t', b', taken', related'⟩ := shown s t a s' b related seen taken
        obtain ⟨final', bs'', ran', related''⟩ := ih related' rest
        rw [List.filter_cons_of_pos seen]
        exact ⟨final', b' :: bs'', run_cons_eq_some.mpr ⟨t', b', bs'', taken', ran', rfl⟩, related''⟩
      · rw [List.filter_cons_of_neg seen]
        exact ih (hidden s t a s' b related (Bool.not_eq_true _ ▸ seen) taken) rest

/-- When a step keeps `Good` exactly under the condition, so does a run. -/
theorem along_iff {Inv Good : σ → Prop} {Ok : σ → α → Prop}
    (preserved : ∀ s a s' b, Inv s → step s a = some (s', b) → Inv s')
    (steps : ∀ s a s' b, Inv s → Good s → step s a = some (s', b) → (Ok s a ↔ Good s')) :
    ∀ {as : List α} {s final : σ} {bs : List β}, Inv s → Good s →
      run step s as = some (final, bs) →
      (Along step Ok s as ↔
        ∀ n s' bs', run step s (as.take n) = some (s', bs') → Good s') := by
  intro as
  induction as with
  | nil =>
      intro s final bs _ good _
      refine iff_of_true trivial ?_
      intro n s' bs' ran
      simp only [List.take_nil, run_nil, Option.some.injEq, Prod.mk.injEq] at ran
      exact ran.1 ▸ good
  | cons a as ih =>
      intro s final bs inv good ran
      obtain ⟨s', b, bs', taken, rest, -⟩ := run_cons_eq_some.mp ran
      have inv' := preserved s a s' b inv taken
      have here := steps s a s' b inv good taken
      constructor
      · rintro ⟨ok, along⟩ n t ts reached
        have later := (ih inv' (here.mp ok) rest).mp (along s' b taken)
        cases n with
        | zero =>
            simp only [List.take_zero, run_nil, Option.some.injEq, Prod.mk.injEq] at reached
            exact reached.1 ▸ good
        | succ n =>
            rw [List.take_succ_cons, run_cons_eq_some] at reached
            obtain ⟨s'', b', ts', taken', reached, -⟩ := reached
            rw [taken, Option.some.injEq, Prod.mk.injEq] at taken'
            exact later n t ts' (taken'.1 ▸ reached)
      · intro all
        have prolong : ∀ n t ts, run step s' (as.take n) = some (t, ts) →
            run step s ((a :: as).take (n + 1)) = some (t, b :: ts) := fun n t ts reached =>
          run_cons_eq_some.mpr ⟨s', b, ts, taken, reached, rfl⟩
        have good' : Good s' := all 1 s' [b] (prolong 0 s' [] rfl)
        refine ⟨here.mpr good', fun s'' b' taken' => ?_⟩
        rw [taken, Option.some.injEq, Prod.mk.injEq] at taken'
        rw [← taken'.1]
        exact (ih inv' good' rest).mpr fun n t ts reached => all (n + 1) t (b :: ts) (prolong n t ts reached)

/-- An admissible run whose states can always step reaches its end. -/
theorem total {Inv : σ → Prop} {Ok : σ → α → Prop}
    (steps : ∀ s a, Inv s → Ok s a → ∃ s' b, step s a = some (s', b) ∧ Inv s') :
    ∀ {as : List α} {s : σ}, Inv s → Along step Ok s as →
      ∃ final bs, run step s as = some (final, bs) ∧ Inv final := by
  intro as
  induction as with
  | nil => exact fun {s} inv _ => ⟨s, [], rfl, inv⟩
  | cons a as ih =>
      intro s inv along
      obtain ⟨s', b, taken, inv'⟩ := steps s a inv along.1
      obtain ⟨final, bs, rest, finalInv⟩ := ih inv' (along.2 s' b taken)
      exact ⟨final, b :: bs, run_cons_eq_some.mpr ⟨s', b, bs, taken, rest, rfl⟩, finalInv⟩

/-- A relation every admissible step respects makes the outputs those of the
abstract machine `next`. -/
theorem simulates {R : σ → τ → Prop} {Ok : σ → α → Prop} {next : τ → α → τ × β}
    (steps : ∀ s t a, R s t → Ok s a →
      ∃ s', step s a = some (s', (next t a).2) ∧ R s' (next t a).1) :
    ∀ {as : List α} {s : σ} {t : τ}, R s t → Along step Ok s as →
      ∃ final, run step s as = some (final, (trace next t as).2) ∧ R final (trace next t as).1 := by
  intro as
  induction as with
  | nil => exact fun {s t} related _ => ⟨s, rfl, related⟩
  | cons a as ih =>
      intro s t related along
      obtain ⟨s', taken, related'⟩ := steps s t a related along.1
      obtain ⟨final, rest, finalRelated⟩ := ih related' (along.2 _ _ taken)
      exact ⟨final, run_cons_eq_some.mpr ⟨s', _, _, taken, rest, rfl⟩, finalRelated⟩

/-- A machine that can answer each admissible step as another one does answers its runs alike. -/
theorem follows {R : σ → τ → Prop} {Ok : σ → α → Prop} {step' : τ → α → Option (τ × β)}
    (steps : ∀ s t a t' b, R s t → Ok s a → step' t a = some (t', b) → ∃ s', step s a = some (s', b) ∧ R s' t') :
    ∀ {as : List α} {s : σ} {t end' : τ} {bs : List β}, R s t → Along step Ok s as →
      run step' t as = some (end', bs) → ∃ final, run step s as = some (final, bs) ∧ R final end' := by
  intro as
  induction as with
  | nil =>
      rintro s t end' bs related _ ⟨⟩
      exact ⟨s, rfl, related⟩
  | cons a as ih =>
      intro s t end' bs related along ran
      obtain ⟨t', b, bs', taken', rest, rfl⟩ := run_cons_eq_some.mp ran
      obtain ⟨s', taken, related'⟩ := steps s t a t' b related along.1 taken'
      obtain ⟨final, ran', related''⟩ := ih related' (along.2 s' b taken) rest
      exact ⟨final, run_cons_eq_some.mpr ⟨s', b, bs', taken, ran', rfl⟩, related''⟩

/-- A relation every step respects, up to a relation of the outputs. -/
theorem simulates_upTo {γ : Type} {R : σ → τ → Prop} {S : β → γ → Prop} {next : τ → α → τ × γ}
    (steps : ∀ s t a, R s t → ∃ s' b, step s a = some (s', b) ∧ S b (next t a).2 ∧ R s' (next t a).1) :
    ∀ (as : List α) {s : σ} {t : τ}, R s t → ∃ final bs, run step s as = some (final, bs) ∧
      List.Forall₂ S bs (trace next t as).2 ∧ R final (trace next t as).1 := by
  intro as
  induction as with
  | nil => exact fun {s t} related => ⟨s, [], rfl, .nil, related⟩
  | cons a as ih =>
      intro s t related
      obtain ⟨s', b, taken, same, related'⟩ := steps s t a related
      obtain ⟨final, bs, rest, sames, finalRelated⟩ := ih related'
      exact ⟨final, b :: bs, run_cons_eq_some.mpr ⟨s', b, bs, taken, rest, rfl⟩, .cons same sames,
        finalRelated⟩

end KTableFS.Theory.Run
