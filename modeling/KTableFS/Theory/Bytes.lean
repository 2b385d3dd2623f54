/-
# Theory.Bytes -- byte strings laid over byte memories

A memory is a total function from addresses to bytes.  `blit` lays a byte string
over it (`memcpy`), `cut` reads a run of it back, and the lemmas say what each
byte is after a `blit`: inside the run it is the string's, outside it is the
memory's (`blit_inside`, `blit_outside`).  Everything a reader of a run needs is
`cut_congr`: a run depends on its own bytes only.

`storeLE`/`loadLE` are fixed-width little-endian words, the layout an
unaligned `uint16_t`/`uint32_t`/`uint64_t` store or load has on the target.
-/
import Mathlib.Data.List.Basic
import Mathlib.Data.List.GetD
import Mathlib.Tactic.Linarith

namespace KTableFS.Theory

set_option autoImplicit false

/-- A byte memory: an address space with a byte at every address. -/
abbrev Memory := Nat → UInt8

/-! ## Laying bytes over a memory -/

/-- `memcpy` of `data` to address `off`. -/
def blit (memory : Memory) (off : Nat) (data : List UInt8) : Memory :=
  fun i => if off ≤ i ∧ i < off + data.length then data.getD (i - off) 0 else memory i

/-- The `size` bytes at address `off`. -/
def cut (memory : Memory) (off size : Nat) : List UInt8 :=
  (List.range size).map fun i => memory (off + i)

theorem blit_inside (memory : Memory) {off i : Nat} {data : List UInt8} (low : off ≤ i)
    (high : i < off + data.length) : blit memory off data i = data.getD (i - off) 0 :=
  if_pos ⟨low, high⟩

theorem blit_outside (memory : Memory) {off i : Nat} {data : List UInt8}
    (outside : i < off ∨ off + data.length ≤ i) : blit memory off data i = memory i := by
  apply if_neg
  rintro ⟨low, high⟩
  omega

@[simp] theorem blit_nil (memory : Memory) (off : Nat) : blit memory off [] = memory := by
  funext i
  apply blit_outside
  simp only [List.length_nil]
  omega

/-- A `blit` reads its memory outside the run only. -/
theorem blit_congr {memory memory' : Memory} {off i : Nat} {data : List UInt8}
    (same : memory i = memory' i) : blit memory off data i = blit memory' off data i := by
  simp only [blit, same]

/-- A `blit` seen from an address behind the start of the memory. -/
theorem blit_shift (memory : Memory) (base off i : Nat) (data : List UInt8) :
    blit memory (base + off) data (base + i) = blit (fun j => memory (base + j)) off data i := by
  have same : base + i - (base + off) = i - off := by omega
  simp only [blit, same, Nat.add_assoc, Nat.add_le_add_iff_left, Nat.add_lt_add_iff_left]

/-- A string laid down in two pieces. -/
theorem blit_append (memory : Memory) (off : Nat) (data data' : List UInt8) :
    blit (blit memory off data) (off + data.length) data' = blit memory off (data ++ data') := by
  funext i
  simp only [blit, List.length_append]
  by_cases first : off ≤ i ∧ i < off + data.length
  · rw [if_neg (by omega), if_pos first, if_pos (by omega), List.getD_append _ _ _ _ (by omega)]
  · by_cases second : off + data.length ≤ i ∧ i < off + data.length + data'.length
    · rw [if_pos second, if_pos (by omega), List.getD_append_right _ _ _ _ (by omega), Nat.sub_sub]
    · rw [if_neg second, if_neg first, if_neg (by omega)]

/-- Two `blit`s over disjoint runs commute. -/
theorem blit_comm (memory : Memory) {off off' : Nat} {data data' : List UInt8}
    (apart : off + data.length ≤ off' ∨ off' + data'.length ≤ off) :
    blit (blit memory off data) off' data' = blit (blit memory off' data') off data := by
  funext i
  simp only [blit]
  split <;> split <;> first | rfl | omega

/-- Two blits that agree where they overlap commute. -/
theorem blit_comm_of_agree (memory : Memory) {off off' : Nat} {data data' : List UInt8}
    (agree : ∀ i, off ≤ i → i < off + data.length → off' ≤ i → i < off' + data'.length →
      data.getD (i - off) 0 = data'.getD (i - off') 0) :
    blit (blit memory off data) off' data' = blit (blit memory off' data') off data := by
  funext i
  by_cases inside : off ≤ i ∧ i < off + data.length
  · by_cases inside' : off' ≤ i ∧ i < off' + data'.length
    · rw [blit_inside _ inside'.1 inside'.2, blit_inside _ inside.1 inside.2]
      exact (agree i inside.1 inside.2 inside'.1 inside'.2).symm
    · rw [blit_outside _ (by omega), blit_inside _ inside.1 inside.2, blit_inside _ inside.1 inside.2]
  · rw [blit_outside (blit memory off' data') (by omega)]
    exact blit_congr (blit_outside _ (by omega))

@[simp] theorem length_cut (memory : Memory) (off size : Nat) :
    (cut memory off size).length = size := by
  simp [cut]

theorem cut_getD (memory : Memory) {off size i : Nat} (inside : i < size) :
    (cut memory off size).getD i 0 = memory (off + i) := by
  simp [cut, List.getD, inside]

/-- A run depends on its own bytes only. -/
theorem cut_congr {memory memory' : Memory} {off off' size : Nat}
    (same : ∀ i, i < size → memory (off + i) = memory' (off' + i)) :
    cut memory off size = cut memory' off' size := by
  apply List.map_congr_left
  intro i member
  exact same i (List.mem_range.mp member)

theorem cut_inj {memory memory' : Memory} {off size : Nat}
    (same : cut memory off size = cut memory' off size) {i : Nat} (low : off ≤ i) (high : i < off + size) :
    memory i = memory' i := by
  have inside : i - off < size := by omega
  have bytes := congrArg (fun bytes => bytes.getD (i - off) 0) same
  simp only [cut_getD _ inside] at bytes
  rwa [Nat.add_sub_cancel' low] at bytes

theorem cut_add (memory : Memory) (off size size' : Nat) :
    cut memory off (size + size') = cut memory off size ++ cut memory (off + size) size' := by
  simp only [cut, List.range_add, List.map_append, List.map_map]
  congr 1
  apply List.map_congr_left
  intro i _
  simp [Nat.add_assoc]

/-- A run starts with its shorter runs. -/
theorem cut_take (memory : Memory) (addr : Nat) {size part : Nat} (le : part ≤ size) :
    (cut memory addr size).take part = cut memory addr part := by
  obtain ⟨rest, rfl⟩ := Nat.exists_eq_add_of_le le
  rw [cut_add, List.take_append_of_le_length (by simp), List.take_of_length_le (by simp)]

theorem cut_drop (memory : Memory) (addr : Nat) {size part : Nat} (le : part ≤ size) :
    (cut memory addr size).drop part = cut memory (addr + part) (size - part) := by
  obtain ⟨rest, rfl⟩ := Nat.exists_eq_add_of_le le
  rw [cut_add, List.drop_left' (by simp), Nat.add_sub_cancel_left]

/-- Reading back exactly the run that was written gives the string. -/
theorem cut_blit (memory : Memory) (off : Nat) (data : List UInt8) :
    cut (blit memory off data) off data.length = data := by
  apply List.ext_getElem
  · simp
  · intro i inCut inData
    have value : blit memory off data (off + i) = data.getD i 0 := by
      rw [blit_inside memory (Nat.le_add_right ..) (by omega), Nat.add_sub_cancel_left]
    simp only [cut, List.getElem_map, List.getElem_range, value]
    simp [List.getD, inData]

/-! ## Little-endian words -/

/-- The `width` low bytes of `n`, least significant first. -/
def storeLE : Nat → Nat → List UInt8
  | 0, _ => []
  | width + 1, n => UInt8.ofNat n :: storeLE width (n / 256)

/-- The number whose little-endian bytes these are. -/
def loadLE : List UInt8 → Nat
  | [] => 0
  | byte :: rest => byte.toNat + 256 * loadLE rest

/-- Words of one width that differ have different values. -/
theorem loadLE_inj {bytes : List UInt8} : ∀ {bytes' : List UInt8}, bytes.length = bytes'.length →
    loadLE bytes = loadLE bytes' → bytes = bytes' := by
  induction bytes with
  | nil => exact fun width _ => (List.length_eq_zero_iff.mp width.symm).symm
  | cons byte rest ih =>
      intro bytes' width same
      cases bytes' with
      | nil => cases width
      | cons byte' rest' =>
          simp only [loadLE] at same
          have low := byte.toNat_lt
          have low' := byte'.toNat_lt
          have first : byte = byte' := UInt8.toNat_inj.mp (by omega)
          have others : rest = rest' := ih (by simpa using width) (by omega)
          rw [first, others]

@[simp] theorem length_storeLE (width n : Nat) : (storeLE width n).length = width := by
  induction width generalizing n with
  | zero => rfl
  | succ width ih => simp [storeLE, ih]

/-- A stored word reads back modulo its width. -/
theorem loadLE_storeLE (width n : Nat) : loadLE (storeLE width n) = n % 256 ^ width := by
  induction width generalizing n with
  | zero => simp [storeLE, loadLE, Nat.mod_one]
  | succ width ih =>
      have low : (UInt8.ofNat n).toNat = n % 256 := by simp
      rw [storeLE, loadLE, ih, low, Nat.pow_succ', Nat.mod_mul]

theorem loadLE_storeLE_of_lt {width n : Nat} (fits : n < 256 ^ width) :
    loadLE (storeLE width n) = n := by
  rw [loadLE_storeLE, Nat.mod_eq_of_lt fits]

end KTableFS.Theory
