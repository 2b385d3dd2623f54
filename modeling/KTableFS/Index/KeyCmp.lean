/-
# Index.KeyCmp -- how the indexes compare keys

Both indexes compare keys by the macros `key_less`, `key_greater` and `key_equal`: by the
first eight bytes as a `uint64_t`, and by `key_cmp` where these agree.  The comparator is
the client's; a `KeyCmp` carries what the indexes rely on, that it is three-way and orders
the keys.  Then the macros are one three-way comparison, `KeyCmp.order`.
-/
import KTableFS.Theory.OrderedMap

namespace KTableFS.Index

open KTableFS.Theory

set_option autoImplicit false

/-- A `key_cmp_t`, with the first eight bytes of the keys. -/
structure KeyCmp (K : Type) where
  /-- `*(uint64_t*)(key)` -/
  word : K → UInt64
  keyCmp : K → K → Int
  swap : ∀ a b, keyCmp a b < 0 ↔ 0 < keyCmp b a
  trans : ∀ a b c, keyCmp a b ≤ 0 → keyCmp b c ≤ 0 → keyCmp a c ≤ 0

namespace KeyCmp

variable {K : Type} (C : KeyCmp K)

/-- `key_less` -/
def keyLess (a b : K) : Bool :=
  if C.word a < C.word b then true
  else if C.word a = C.word b then C.keyCmp a b < 0 else false

/-- `key_greater` -/
def keyGreater (a b : K) : Bool :=
  if C.word b < C.word a then true
  else if C.word a = C.word b then 0 < C.keyCmp a b else false

/-- `key_equal` -/
def keyEqual (a b : K) : Bool :=
  if C.word a = C.word b then C.keyCmp a b = 0 else false

/-! ## One comparison -/

/-- The order of the keys. -/
def order (a b : K) : Ordering :=
  if C.keyLess a b then .lt else if C.keyEqual a b then .eq else .gt

theorem keyLess_iff {a b : K} : C.keyLess a b = true ↔
    (C.word a).toNat < (C.word b).toNat ∨ (C.word a).toNat = (C.word b).toNat ∧ C.keyCmp a b < 0 := by
  simp only [keyLess, UInt64.lt_iff_toNat_lt, ← UInt64.toNat_inj]
  split
  · simp_all
  · split <;> simp_all

theorem keyEqual_iff {a b : K} : C.keyEqual a b = true ↔
    (C.word a).toNat = (C.word b).toNat ∧ C.keyCmp a b = 0 := by
  simp only [keyEqual, ← UInt64.toNat_inj]
  split <;> simp_all

theorem keyGreater_iff {a b : K} : C.keyGreater a b = true ↔
    (C.word b).toNat < (C.word a).toNat ∨ (C.word a).toNat = (C.word b).toNat ∧ 0 < C.keyCmp a b := by
  simp only [keyGreater, UInt64.lt_iff_toNat_lt, ← UInt64.toNat_inj]
  split
  · simp_all
  · split <;> simp_all

theorem order_lt {a b : K} : C.order a b = .lt ↔ C.keyLess a b = true := by
  unfold order
  split
  · simp_all
  · split <;> simp_all

theorem order_eq {a b : K} : C.order a b = .eq ↔ C.keyEqual a b = true := by
  unfold order
  split
  · next less =>
      rw [keyLess_iff] at less
      simp only [reduceCtorEq, false_iff, keyEqual_iff]
      omega
  · split <;> simp_all

theorem order_gt {a b : K} : C.order a b = .gt ↔ C.keyGreater a b = true := by
  have less := C.keyLess_iff (a := a) (b := b)
  have equal := C.keyEqual_iff (a := a) (b := b)
  rw [keyGreater_iff]
  unfold order
  split
  · next isLess =>
      have := less.mp isLess
      simp only [reduceCtorEq, false_iff]
      omega
  · next notLess =>
      have := mt less.mpr notLess
      split
      · next isEqual =>
          have := equal.mp isEqual
          simp only [reduceCtorEq, false_iff]
          omega
      · next notEqual =>
          have := mt equal.mpr notEqual
          simp only [true_iff]
          omega

instance : Std.TransCmp C.order where
  eq_swap {a b} := by
    have less := C.swap a b
    have greater := C.swap b a
    cases there : C.order b a with
    | lt =>
        rw [order_lt, keyLess_iff] at there
        rw [Ordering.swap_lt, order_gt, keyGreater_iff]
        omega
    | eq =>
        rw [order_eq, keyEqual_iff] at there
        rw [Ordering.swap_eq, order_eq, keyEqual_iff]
        omega
    | gt =>
        rw [order_gt, keyGreater_iff] at there
        rw [Ordering.swap_gt, order_lt, keyLess_iff]
        omega
  isLE_trans {a b c} := by
    have at_most : ∀ {x y : K}, (C.order x y).isLE = true ↔ (C.word x).toNat < (C.word y).toNat ∨
        (C.word x).toNat = (C.word y).toNat ∧ C.keyCmp x y ≤ 0 := by
      intro x y
      have greater := C.keyGreater_iff (a := x) (b := y)
      rw [← order_gt] at greater
      cases here : C.order x y with
      | gt =>
          have := greater.mp here
          simp only [Ordering.isLE_gt, Bool.false_eq_true, false_iff]
          omega
      | lt =>
          rw [order_lt, keyLess_iff] at here
          simp only [Ordering.isLE_lt, true_iff]
          omega
      | eq =>
          rw [order_eq, keyEqual_iff] at here
          simp only [Ordering.isLE_eq, true_iff]
          omega
    intro first second
    rw [at_most] at first second ⊢
    have both := C.trans a b c
    omega

/-- Numbers as keys, `key_cmp` the difference. -/
def numbers : KeyCmp Nat where
  word n := UInt64.ofNat n
  keyCmp a b := (a : Int) - b
  swap _ _ := by omega
  trans _ _ _ _ _ := by omega

end KeyCmp

end KTableFS.Index
