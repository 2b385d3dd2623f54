/-
# Kvengine.Slice -- byte strings and their order

A `Slice` is the byte string a `kvengine::Slice` refers to.  `Slice.lt` is
`Slice::operator<` as the source computes it (`memcmp` over the common length,
then the lengths); `Slice.lt_iff` identifies it with the lexicographic order the
standard ordered map is instantiated at, so that `std::map<Slice, _>` is a
`Std.TreeMap Slice _`.
-/
import KTableFS.Theory.Bytes
import Std.Data.TreeMap

namespace KTableFS.Kvengine

set_option autoImplicit false

abbrev Slice := List UInt8

/-- The sign of `memcmp` over the first `len` bytes: unsigned byte order. -/
def memcmp : Slice → Slice → Nat → Ordering
  | a :: as, b :: bs, len + 1 =>
      match compare a b with
      | .lt => .lt
      | .gt => .gt
      | .eq => memcmp as bs len
  | _, _, _ => .eq

namespace Slice

/-- `Slice::operator<`. -/
def lt (a b : Slice) : Bool :=
  match memcmp a b (min a.length b.length) with
  | .lt => true
  | .gt => false
  | .eq => decide (a.length < b.length)

/-- `operator<` is the lexicographic order on byte strings. -/
theorem lt_iff (a b : Slice) : a.lt b = true ↔ compare a b = .lt := by
  induction a generalizing b with
  | nil =>
      cases b with
      | nil => simp [lt, memcmp]
      | cons y ys => simp [lt, memcmp]
  | cons x xs ih =>
      cases b with
      | nil => simp [lt, memcmp]
      | cons y ys =>
          have step := ih ys
          simp only [lt, List.length_cons] at step ⊢
          rw [Nat.succ_min_succ, memcmp, List.compare_cons_cons]
          cases compare x y with
          | lt => simp
          | gt => simp
          | eq => simpa using step

theorem lt_cons_cons (x y : UInt8) (xs ys : Slice) :
    lt (x :: xs) (y :: ys) = true ↔ x < y ∨ x = y ∧ lt xs ys = true := by
  rw [lt_iff, lt_iff, List.compare_cons_cons, show compare x y = compareOfLessAndEq x y from rfl,
    compareOfLessAndEq]
  by_cases less : x < y
  · simp [less]
  · by_cases same : x = y
    · simp [same]
    · simp [less, same]

/-- Byte strings of one length come first in the comparison. -/
theorem lt_append {a : Slice} : ∀ {b : Slice}, a.length = b.length → ∀ c d : Slice,
    lt (a ++ c) (b ++ d) = true ↔ lt a b = true ∨ a = b ∧ lt c d = true := by
  induction a with
  | nil =>
      intro b width c d
      cases List.length_eq_zero_iff.mp width.symm
      simp [lt, memcmp]
  | cons x xs ih =>
      intro b width c d
      cases b with
      | nil => cases width
      | cons y ys =>
          rw [List.cons_append, List.cons_append, lt_cons_cons, lt_cons_cons,
            ih (Nat.succ.inj width), List.cons.injEq]
          constructor
          · rintro (less | ⟨same, less | ⟨same', less⟩⟩)
            · exact Or.inl (Or.inl less)
            · exact Or.inl (Or.inr ⟨same, less⟩)
            · exact Or.inr ⟨⟨same, same'⟩, less⟩
          · rintro ((less | ⟨same, less⟩) | ⟨⟨same, same'⟩, less⟩)
            · exact Or.inl less
            · exact Or.inr ⟨same, Or.inl less⟩
            · exact Or.inr ⟨same, Or.inr ⟨same', less⟩⟩

/-- Words written most significant byte first are in the order of their values. -/
theorem lt_words {width : Nat} : ∀ {m n : Nat}, m < 256 ^ width → n < 256 ^ width →
    (lt (Theory.storeLE width m).reverse (Theory.storeLE width n).reverse = true ↔ m < n) := by
  induction width with
  | zero =>
      intro m n fits fits'
      have zero : m = 0 := by simpa using fits
      have zero' : n = 0 := by simpa using fits'
      simp [zero, zero', Theory.storeLE, lt, memcmp]
  | succ width ih =>
      intro m n fits fits'
      rw [Nat.pow_succ] at fits fits'
      have high : m / 256 < 256 ^ width := Nat.div_lt_of_lt_mul (by omega)
      have high' : n / 256 < 256 ^ width := Nat.div_lt_of_lt_mul (by omega)
      have same : (Theory.storeLE width (m / 256)).reverse = (Theory.storeLE width (n / 256)).reverse ↔
          m / 256 = n / 256 := by
        rw [List.reverse_inj]
        constructor
        · intro words
          rw [← Theory.loadLE_storeLE_of_lt high, words, Theory.loadLE_storeLE_of_lt high']
        · exact fun same => by rw [same]
      have low : lt [UInt8.ofNat m] [UInt8.ofNat n] = true ↔ m % 256 < n % 256 := by
        rw [lt_cons_cons]
        simp [lt, memcmp, UInt8.lt_iff_toNat_lt]
      simp only [Theory.storeLE, List.reverse_cons]
      rw [lt_append (by simp), ih high high', same, low]
      omega

/-- No byte string is below the zeros of some length, unless it is shorter. -/
theorem not_lt_zeros {s : Slice} : ∀ {width : Nat}, width ≤ s.length → lt s (List.replicate width 0) = false := by
  induction s with
  | nil =>
      intro width long
      cases Nat.le_zero.mp long
      rfl
  | cons x xs ih =>
      intro width long
      cases width with
      | zero => simp [lt, memcmp]
      | succ width =>
          have later := ih (Nat.le_of_succ_le_succ long)
          rw [Bool.eq_false_iff, List.replicate_succ, ne_eq, lt_cons_cons, later]
          have notBelow : ¬ x < 0 := by
            rw [UInt8.lt_iff_toNat_lt]
            exact Nat.not_lt_zero _
          simp [notBelow]

/-- `Hash::MurmurHash2` with seed 0, the `Slice::hash` of a byte string. -/
def hashTail : List UInt8 → UInt32 → UInt32
  | [a], h => (h ^^^ a.toUInt32) * 0x5bd1e995
  | [a, b], h => ((h ^^^ (b.toUInt32 <<< 8)) ^^^ a.toUInt32) * 0x5bd1e995
  | [a, b, c], h =>
      (((h ^^^ (c.toUInt32 <<< 16)) ^^^ (b.toUInt32 <<< 8)) ^^^ a.toUInt32) * 0x5bd1e995
  | _, h => h

@[inherit_doc hashTail]
def hashLoop : List UInt8 → UInt32 → UInt32
  | a :: b :: c :: d :: rest, h =>
      let k : UInt32 := UInt32.ofNat (Theory.loadLE [a, b, c, d]) * 0x5bd1e995
      let k := (k ^^^ (k >>> 24)) * 0x5bd1e995
      hashLoop rest ((h * 0x5bd1e995) ^^^ k)
  | tail, h => hashTail tail h

@[inherit_doc hashTail]
def hash (s : Slice) : UInt32 :=
  let h := hashLoop s (UInt32.ofNat s.length)
  let h := (h ^^^ (h >>> 13)) * 0x5bd1e995
  h ^^^ (h >>> 15)

end Slice

end KTableFS.Kvengine
