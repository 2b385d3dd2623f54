/-
# Theory.ByteFile -- the contents of a POSIX regular file

A `ByteFile` is a length together with a byte at every offset, zero from the
length on.  The zero tail is a field, so a file that remembers bytes past its end
cannot be built, and a hole left by a write past the end reads as zeros by
construction.

* `pwrite` stores a byte string at an offset; writing nothing changes nothing,
  writing past the end extends the file and zero-fills the gap.
* `pread` returns the bytes of a range that lie below the end of the file, so it
  is short exactly at end of file.
-/
import KTableFS.Theory.Bytes

namespace KTableFS.Theory

set_option autoImplicit false

structure ByteFile where
  size : Nat
  byte : Memory
  zeroPast : ∀ i, size ≤ i → byte i = 0

namespace ByteFile

def empty : ByteFile where
  size := 0
  byte := fun _ => 0
  zeroPast := fun _ _ => rfl

/-- `pwrite(fd, data, data.length, off)` in full. -/
def pwrite (file : ByteFile) (data : List UInt8) (off : Nat) : ByteFile where
  size := if data = [] then file.size else max file.size (off + data.length)
  byte := blit file.byte off data
  zeroPast := by
    intro i past
    have far : file.size ≤ i ∧ off + data.length ≤ i ∨ file.size ≤ i ∧ data = [] := by
      split at past
      · exact Or.inr ⟨past, ‹_›⟩
      · exact Or.inl ⟨le_trans (le_max_left ..) past, le_trans (le_max_right ..) past⟩
    rcases far with ⟨old, new⟩ | ⟨old, rfl⟩
    · rw [blit_outside _ (Or.inr new)]
      exact file.zeroPast i old
    · rw [blit_nil]
      exact file.zeroPast i old

/-- The number of bytes `pread(fd, _, size, off)` returns. -/
def preadCount (file : ByteFile) (size off : Nat) : Nat :=
  min size (file.size - off)

/-- `pread(fd, _, size, off)`: the bytes it stores. -/
def pread (file : ByteFile) (size off : Nat) : List UInt8 :=
  cut file.byte off (file.preadCount size off)

@[simp] theorem length_pread (file : ByteFile) (size off : Nat) :
    (file.pread size off).length = file.preadCount size off := by
  simp [pread]

@[simp] theorem size_empty : empty.size = 0 := rfl

@[simp] theorem byte_empty (i : Nat) : empty.byte i = 0 := rfl

@[simp] theorem pwrite_byte (file : ByteFile) (data : List UInt8) (off : Nat) :
    (file.pwrite data off).byte = blit file.byte off data := rfl

theorem pwrite_size (file : ByteFile) {data : List UInt8} (some' : data ≠ []) (off : Nat) :
    (file.pwrite data off).size = max file.size (off + data.length) :=
  if_neg some'

theorem size_le_pwrite (file : ByteFile) (data : List UInt8) (off : Nat) :
    file.size ≤ (file.pwrite data off).size := by
  unfold pwrite
  simp only
  split
  · exact le_rfl
  · exact le_max_left ..

theorem eq_of {file file' : ByteFile} (size : file.size = file'.size) (byte : file.byte = file'.byte) :
    file = file' := by
  cases file
  cases file'
  cases size
  cases byte
  rfl

/-- Nothing is written by no bytes. -/
@[simp] theorem pwrite_nil (file : ByteFile) (off : Nat) : file.pwrite [] off = file :=
  eq_of (by simp [pwrite]) (blit_nil ..)

/-- Two writes that agree where they overlap commute. -/
theorem pwrite_comm (file : ByteFile) {off off' : Nat} {data data' : List UInt8}
    (agree : ∀ i, off ≤ i → i < off + data.length → off' ≤ i → i < off' + data'.length →
      data.getD (i - off) 0 = data'.getD (i - off') 0) :
    (file.pwrite data off).pwrite data' off' = (file.pwrite data' off').pwrite data off := by
  apply eq_of
  · simp only [pwrite]
    split <;> split <;> omega
  · exact blit_comm_of_agree file.byte agree

/-- The byte at `off`, or the byte `past` behind the end of the file. -/
def seen (file : ByteFile) (off : Nat) (past : UInt8) : UInt8 :=
  if off < file.size then file.byte off else past

/-- Loading a page leaves in memory what is seen of the file. -/
theorem blit_pread_eq (file : ByteFile) (memory : Memory) {frame size off i : Nat} (inRange : i < size) :
    blit memory frame (file.pread size off) (frame + i) = file.seen (off + i) (memory (frame + i)) := by
  unfold seen
  by_cases below : off + i < file.size
  · have inside : i < file.preadCount size off := by
      unfold preadCount
      omega
    rw [if_pos below, blit_inside _ (Nat.le_add_right ..) (by simpa using inside),
      Nat.add_sub_cancel_left, pread, cut_getD _ inside]
  · have outside : file.preadCount size off ≤ i := by
      unfold preadCount
      omega
    rw [if_neg below, blit_outside _ (Or.inr (by simpa using outside))]

/-- A byte that a write to a file leaves as it is seen, it leaves so in every file that
has grown from it and is seen alike there. -/
theorem seen_pwrite {base file : ByteFile} {data : List UInt8} {off at' : Nat} {past : UInt8}
    (grown : base.size ≤ file.size) (same : file.seen at' past = base.seen at' past)
    (alone : (base.pwrite data off).seen at' past = base.seen at' past) :
    (file.pwrite data off).seen at' past = base.seen at' past := by
  by_cases covered : off ≤ at' ∧ at' < off + data.length
  · -- the write decides the byte in both
    have some' : data ≠ [] := by
      rintro rfl
      simp only [List.length_nil] at covered
      omega
    have inside : ∀ f : ByteFile, (f.pwrite data off).seen at' past = data.getD (at' - off) 0 := by
      intro f
      rw [seen, f.pwrite_size some', if_pos (by omega), pwrite_byte, blit_inside _ covered.1 covered.2]
    rw [inside, ← inside base, alone]
  · have byte : ∀ f : ByteFile, (f.pwrite data off).byte at' = f.byte at' := fun f =>
      blit_outside _ (by omega)
    by_cases below : at' < file.size
    · have below' := lt_of_lt_of_le below (file.size_le_pwrite data off)
      rw [seen, if_pos below', byte]
      rwa [seen, if_pos below] at same
    · rw [seen, if_neg below] at same
      by_cases reached : at' < (file.pwrite data off).size
      · -- the end moves over the byte, which becomes zero in both
        have reached' : at' < (base.pwrite data off).size := by
          unfold pwrite at reached ⊢
          simp only at reached ⊢
          split at reached
          · omega
          · rw [if_neg ‹_›]
            omega
        rw [seen, if_pos reached', byte, base.zeroPast at' (by omega)] at alone
        rw [seen, if_pos reached, byte, file.zeroPast at' (by omega), alone]
      · rw [seen, if_neg reached]
        exact same

/-- A range is read short exactly when it is nonempty and passes the end. -/
theorem preadCount_eq_iff (file : ByteFile) (size off : Nat) :
    file.preadCount size off = size ↔ size = 0 ∨ off + size ≤ file.size := by
  unfold preadCount
  omega

/-- Two reads are the same exactly if they see the same ends and the same bytes before them. -/
theorem pread_eq_pread_iff {file file' : ByteFile} {size off : Nat} :
    file.pread size off = file'.pread size off ↔ ∀ i < size,
      (off + i < file.size ↔ off + i < file'.size) ∧
        (off + i < file.size → file.byte (off + i) = file'.byte (off + i)) := by
  constructor
  · intro same i inside
    have lengths := congrArg List.length same
    rw [length_pread, length_pread, preadCount, preadCount] at lengths
    refine ⟨by omega, fun below => ?_⟩
    have bytes := congrArg (fun bytes => bytes.getD i 0) same
    simp only [pread] at bytes
    rwa [cut_getD _ (by unfold preadCount; omega), cut_getD _ (by unfold preadCount; omega)] at bytes
  · intro same
    have counts : file.preadCount size off = file'.preadCount size off := by
      unfold preadCount
      by_contra differ
      -- where the shorter one ends, the ends are seen apart
      have here := (same (min (file.size - off) (file'.size - off)) (by omega)).1
      omega
    rw [pread, pread, ← counts]
    apply cut_congr
    intro i inside
    have below : i < size ∧ off + i < file.size := by
      unfold preadCount at inside
      omega
    exact (same i below.1).2 below.2

/-- Loading a page leaves its bytes below the end of the file in memory. -/
theorem blit_pread (file : ByteFile) (memory : Memory) {frame size off i : Nat}
    (inRange : i < size) (below : off + i < file.size) :
    blit memory frame (file.pread size off) (frame + i) = file.byte (off + i) := by
  rw [blit_pread_eq _ _ inRange, seen, if_pos below]

end ByteFile

end KTableFS.Theory
