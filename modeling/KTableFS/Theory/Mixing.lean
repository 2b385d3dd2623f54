/-
# Theory.Mixing -- reversible steps of a hash

A hash mixes a word by steps that lose nothing: a product with a unit (`mul_unit_inj`), an
exclusive or of a word with its own upper bits (`xor_shiftRight_inj`).  A map of the numbers
below `N` to themselves that loses nothing spreads them evenly over the remainders of a
division (`card_filter_mod`).
-/
import Mathlib.Data.Int.CardIntervalMod
import Mathlib.Data.Nat.Bitwise

namespace KTableFS.Theory

set_option autoImplicit false

/-- A number is known from its exclusive or with its own upper bits: the highest bits are its own,
and each bit below is found from one above. -/
theorem xor_shiftRight_inj {r x y : Nat} (shift : 0 < r) (same : x ^^^ x >>> r = y ^^^ y >>> r) : x = y := by
  have bit : ∀ i, (x.testBit i ^^ x.testBit (r + i)) = (y.testBit i ^^ y.testBit (r + i)) := by
    intro i
    have here := congrArg (fun z => Nat.testBit z i) same
    simpa only [Nat.testBit_xor, Nat.testBit_shiftRight] using here
  have above : ∀ n i, x + y ≤ i + n → x.testBit i = y.testBit i := by
    intro n
    induction n with
    | zero =>
        intro i large
        rw [Nat.testBit_lt_two_pow (lt_of_le_of_lt (by omega) Nat.lt_two_pow_self),
          Nat.testBit_lt_two_pow (lt_of_le_of_lt (by omega) Nat.lt_two_pow_self)]
    | succ n ih =>
        intro i large
        have here := bit i
        rw [ih (r + i) (by omega)] at here
        exact Bool.xor_left_inj.mp here
  exact Nat.eq_of_testBit_eq fun i => above (x + y) i (Nat.le_add_left ..)

/-- The same for words. -/
theorem word_xor_shiftRight_inj {r x y : UInt32} (shift : 0 < r.toNat % 32)
    (same : x ^^^ x >>> r = y ^^^ y >>> r) : x = y := by
  apply UInt32.toNat_inj.mp
  apply xor_shiftRight_inj shift
  have here := congrArg UInt32.toNat same
  simpa only [UInt32.toNat_xor, UInt32.toNat_shiftRight] using here

/-- The exclusive or with bits below is a sum. -/
theorem shiftLeft_xor {k x y : Nat} (below : y < 2 ^ k) : x <<< k ^^^ y = 2 ^ k * x + y := by
  apply Nat.eq_of_testBit_eq
  intro i
  rw [Nat.testBit_xor, Nat.testBit_shiftLeft, Nat.testBit_two_pow_mul_add _ below]
  by_cases low : i < k
  · simp [low, Nat.not_le.mpr low]
  · have none : y.testBit i = false :=
      Nat.testBit_lt_two_pow (below.trans_le (Nat.pow_le_pow_right (by decide) (Nat.le_of_not_lt low)))
    simp [low, none, Nat.le_of_not_lt low]

/-- A product with a unit. -/
theorem mul_unit_inj {m inverse x y : UInt32} (unit : m * inverse = 1) (same : x * m = y * m) : x = y :=
  calc
    x = x * m * inverse := by rw [UInt32.mul_assoc, unit, UInt32.mul_one]
    _ = y * m * inverse := by rw [same]
    _ = y := by rw [UInt32.mul_assoc, unit, UInt32.mul_one]

/-- **Even spread.**  As many of the numbers below `N` are sent to a remainder as have it. -/
theorem card_filter_mod {N n k : Nat} {f : Nat → Nat} (below : ∀ w < N, f w < N)
    (inj : ∀ w < N, ∀ w' < N, f w = f w' → w = w') (rest : k < n) :
    ((Finset.range N).filter fun w => f w % n = k).card = N / n + if k < N % n then 1 else 0 := by
  have maps : Set.MapsTo f (Finset.range N) (Finset.range N) := fun w member =>
    Finset.mem_coe.mpr (Finset.mem_range.mpr (below w (Finset.mem_range.mp member)))
  have injOn : Set.InjOn f (Finset.range N) := fun w member w' member' same =>
    inj w (Finset.mem_range.mp member) w' (Finset.mem_range.mp member') same
  have onto := Finset.surjOn_of_injOn_of_card_le f maps injOn le_rfl
  have image : ((Finset.range N).filter fun w => f w % n = k).image f =
      (Finset.range N).filter fun h => h % n = k := by
    ext h
    simp only [Finset.mem_image, Finset.mem_filter, Finset.mem_range]
    constructor
    · rintro ⟨w, ⟨less, isRest⟩, rfl⟩
      exact ⟨below w less, isRest⟩
    · rintro ⟨less, isRest⟩
      obtain ⟨w, member, rfl⟩ := onto (Finset.mem_coe.mpr (Finset.mem_range.mpr less))
      exact ⟨w, ⟨Finset.mem_range.mp member, isRest⟩, rfl⟩
  have card := Finset.card_image_of_injOn (injOn.mono (Finset.coe_subset.mpr (Finset.filter_subset
    (fun w => f w % n = k) (Finset.range N))))
  rw [← card, image, ← Nat.count_eq_card_filter_range]
  have count := Nat.count_modEq_card N (show 0 < n by omega) k
  simp only [Nat.ModEq, Nat.mod_eq_of_lt rest] at count
  exact count

end KTableFS.Theory
