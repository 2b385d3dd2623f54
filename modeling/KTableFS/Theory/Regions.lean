/-
# Theory.Regions -- ranges of addresses, and rounding addresses by masks

A `Region` is a range of addresses.  `Apart` says that two share no address, with room
between them or not, and survives shrinking either of them (`Apart.mono`).

Masks round: clearing the low bits of a word rounds it down to a multiple of a power of
two (`clear_low`), and doing so after adding the alignment gives the next multiple behind
the word (`next_multiple`).
-/
import Mathlib.Data.List.Pairwise
import Mathlib.Data.List.Perm.Basic
import Mathlib.Data.Nat.Bitwise

namespace KTableFS.Theory

set_option autoImplicit false

/-- The addresses from `base` to `base + size`. -/
structure Region where
  base : Nat
  size : Nat
  deriving DecidableEq, Repr

namespace Region

def Apart (r s : Region) : Prop := r.base + r.size ≤ s.base ∨ s.base + s.size ≤ r.base

def Within (r s : Region) : Prop := s.base ≤ r.base ∧ r.base + r.size ≤ s.base + s.size

instance (r s : Region) : Decidable (r.Apart s) := inferInstanceAs (Decidable (_ ∨ _))

instance (r s : Region) : Decidable (r.Within s) := inferInstanceAs (Decidable (_ ∧ _))

variable {r r' s s' : Region}

theorem Apart.symm (apart : r.Apart s) : s.Apart r := Or.symm apart

theorem Apart.mono (apart : r.Apart s) (within : r'.Within r) (within' : s'.Within s) : r'.Apart s' := by
  unfold Apart Within at *
  omega

theorem Within.refl (r : Region) : r.Within r := ⟨le_rfl, le_rfl⟩

theorem Within.trans {t : Region} (first : r.Within s) (second : s.Within t) : r.Within t :=
  ⟨second.1.trans first.1, first.2.trans second.2⟩

/-- Nonempty regions that are pairwise apart start at different addresses. -/
theorem nodup_bases {l : List Region} (apart : l.Pairwise Apart) (positive : ∀ r ∈ l, 0 < r.size) :
    (l.map Region.base).Nodup := by
  refine List.pairwise_map.mpr (apart.imp_of_mem fun {a b} inA inB apart same => ?_)
  have here := positive a inA
  have there := positive b inB
  unfold Apart at apart
  omega

end Region

/-! ## Masks -/

/-- `x & ~(2^k - 1)`, for words of `w` bits. -/
theorem clear_low {w k x : Nat} (word : x < 2 ^ w) :
    x &&& ((2 ^ w - 1) ^^^ (2 ^ k - 1)) = 2 ^ k * (x / 2 ^ k) := by
  rw [Nat.and_xor_distrib_left, Nat.and_two_pow_sub_one_of_lt_two_pow word,
    Nat.and_two_pow_sub_one_eq_mod]
  apply Nat.eq_of_testBit_eq
  intro i
  rw [Nat.testBit_xor, Nat.testBit_mod_two_pow, Nat.testBit_two_pow_mul, Nat.testBit_div_two_pow]
  by_cases low : i < k
  · simp [low, Nat.not_le.mpr low]
  · simp [low, Nat.le_of_not_lt low]

/-- The distance from a word to the next multiple of `2 ^ k`, computed with wrap-around: it
is right even where the next multiple is `2 ^ w` and the addition wraps. -/
theorem next_multiple {w k x : Nat} (le : k ≤ w) (word : x < 2 ^ w) :
    (((x + 2 ^ k) % 2 ^ w &&& ((2 ^ w - 1) ^^^ (2 ^ k - 1))) + (2 ^ w - x)) % 2 ^ w =
      (2 ^ k - x % 2 ^ k) % 2 ^ w := by
  obtain ⟨m, rfl⟩ := Nat.exists_eq_add_of_le le
  have positive : 0 < 2 ^ k := Nat.two_pow_pos k
  have low := Nat.mod_lt x positive
  have parts := Nat.div_add_mod x (2 ^ k)
  rw [clear_low (Nat.mod_lt _ (Nat.two_pow_pos _))]
  rw [Nat.pow_add] at word ⊢
  have quotient : x / 2 ^ k + 1 ≤ 2 ^ m := by
    have below := Nat.div_lt_of_lt_mul word
    omega
  have multiple : 2 ^ k * (x / 2 ^ k) + 2 ^ k ≤ 2 ^ k * 2 ^ m := by
    have scaled := Nat.mul_le_mul_left (2 ^ k) quotient
    rwa [Nat.mul_add, Nat.mul_one] at scaled
  by_cases wraps : x + 2 ^ k < 2 ^ k * 2 ^ m
  · -- the sum is a word, and so is the multiple it is rounded down to
    rw [Nat.mod_eq_of_lt wraps, Nat.add_div_right x positive, Nat.mul_succ]
    have sum : 2 ^ k * (x / 2 ^ k) + 2 ^ k + (2 ^ k * 2 ^ m - x) =
        2 ^ k - x % 2 ^ k + 2 ^ k * 2 ^ m := by
      omega
    rw [sum, Nat.add_mod_right]
  · -- the next multiple is the end of the words, and the sum wraps to less than `2 ^ k`
    have last : 2 ^ k * 2 ^ m = 2 ^ k * (x / 2 ^ k) + 2 ^ k := by
      refine le_antisymm ?_ multiple
      by_contra more
      have next : x / 2 ^ k + 2 ≤ 2 ^ m := by
        by_contra few
        have same : 2 ^ m = x / 2 ^ k + 1 := by omega
        rw [same, Nat.mul_succ] at more
        omega
      have scaled := Nat.mul_le_mul_left (2 ^ k) next
      rw [Nat.mul_add] at scaled
      omega
    have wrapped : (x + 2 ^ k) % (2 ^ k * 2 ^ m) = x + 2 ^ k - 2 ^ k * 2 ^ m := by
      rw [Nat.mod_eq_sub_mod (by omega), Nat.mod_eq_of_lt (by omega)]
    rw [wrapped, Nat.div_eq_of_lt (by omega), Nat.mul_zero, Nat.zero_add]
    congr 1
    omega

end KTableFS.Theory
