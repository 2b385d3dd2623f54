/-
# Fs.File -- files and file keys as the key-value store holds them

`File` is the 32-byte record of a file, `FileKey` the key it is stored under: the
inode number of its directory, most significant byte first so that the entries of a
directory are neighbours in the byte order, the hash of its name, and its name.

The fields have the widths of the source, so both encodings are undone by their
decoders without a side condition (`File.ofSlice_toSlice`, `FileKey.ofSlice_toSlice`).
-/
import KTableFS.Fs.FileData
import Mathlib.Data.BitVec

namespace KTableFS.Fs

open KTableFS.Theory
open KTableFS.Kvengine (Slice)

set_option autoImplicit false

/-! ## Files -/

structure File where
  type : BitVec 4
  stNlink : BitVec 8
  stMode : BitVec 20
  aggr : AggrT
  atime : UInt32
  mtime : UInt32
  stIno : UInt64
  stSize : UInt64
  deriving DecidableEq, Repr

namespace File

/-- `File::REGULAR` and `File::SYMLINK`. -/
def regular : BitVec 4 := 1

@[inherit_doc regular]
def symlink : BitVec 4 := 4

/-- `FileHandle::IsRegular` and `FileHandle::IsSymlink`. -/
def isRegular (file : File) : Bool := file.type &&& regular != 0

@[inherit_doc isRegular]
def isSymlink (file : File) : Bool := file.type &&& symlink != 0

/-- The two fields `FileData` reads. -/
def extent (file : File) : Extent := ⟨file.stIno.toNat, file.aggr⟩

/-- The first word: bit fields are allocated from the least significant bit. -/
def bits (file : File) : Nat :=
  file.type.toNat + 2 ^ 4 * file.stNlink.toNat + 2 ^ 12 * file.stMode.toNat

/-- The 32 bytes of a `File`. -/
def bytes (file : File) : Slice :=
  storeLE 4 file.bits ++ (storeLE 2 file.aggr.file.toNat ++ (storeLE 2 file.aggr.no.toNat ++
    (storeLE 4 file.atime.toNat ++ (storeLE 4 file.mtime.toNat ++
      (storeLE 8 file.stIno.toNat ++ storeLE 8 file.stSize.toNat)))))

/-- `FileHandle::ToSlice`; a regular symlink has no encoding yet. -/
def toSlice (file : File) : Option Slice :=
  if file.isSymlink && file.isRegular then none else some file.bytes

/-- The little-endian word of `width` bytes at an offset. -/
def word (s : Slice) (off width : Nat) : Nat := loadLE ((s.drop off).take width)

/-- The record at the start of a byte string. -/
def ofBytes (s : Slice) : File :=
  { type := .ofNat 4 (word s 0 4)
    stNlink := .ofNat 8 (word s 0 4 / 2 ^ 4)
    stMode := .ofNat 20 (word s 0 4 / 2 ^ 12)
    aggr := ⟨.ofNat (word s 4 2), .ofNat (word s 6 2)⟩
    atime := .ofNat (word s 8 4)
    mtime := .ofNat (word s 12 4)
    stIno := .ofNat (word s 16 8)
    stSize := .ofNat (word s 24 8) }

/-- `FileHandle(const Slice*, FileKey*)`: the file it points to.  The constructor
looks at the whole first byte, of which the type is the low half; it leaves a regular
symlink without a file. -/
def ofSlice (s : Slice) : Option File :=
  match s with
  | [] => none
  | type :: _ =>
      if type &&& 1 != 0 && type &&& 4 != 0 then none
      else if 32 ≤ s.length then some (ofBytes s) else none

/-- The first word of an encoding. -/
theorem word_head {width n : Nat} (fits : n < 256 ^ width) (rest : Slice) :
    word (storeLE width n ++ rest) 0 width = n := by
  rw [word, List.drop_zero, List.take_left' (length_storeLE ..), loadLE_storeLE_of_lt fits]

/-- A later word. -/
theorem word_skip {skipped off : Nat} (behind : skipped ≤ off) (n width : Nat) (rest : Slice) :
    word (storeLE skipped n ++ rest) off width = word rest (off - skipped) width := by
  obtain ⟨more, rfl⟩ := Nat.exists_eq_add_of_le behind
  rw [word, ← List.drop_drop, List.drop_left' (length_storeLE ..), Nat.add_sub_cancel_left, word]

@[simp] theorem length_bytes (file : File) : file.bytes.length = 32 := by
  simp [bytes]

theorem bits_lt (file : File) : file.bits < 256 ^ 4 := by
  have := file.type.isLt
  have := file.stNlink.isLt
  have := file.stMode.isLt
  unfold bits
  omega

/-- The bit fields of the first word. -/
theorem ofNat_bits (file : File) : BitVec.ofNat 4 file.bits = file.type ∧
    BitVec.ofNat 8 (file.bits / 2 ^ 4) = file.stNlink ∧
    BitVec.ofNat 20 (file.bits / 2 ^ 12) = file.stMode := by
  have := file.type.isLt
  have := file.stNlink.isLt
  have := file.stMode.isLt
  refine ⟨?_, ?_, ?_⟩ <;>
  · apply BitVec.eq_of_toNat_eq
    rw [BitVec.toNat_ofNat, bits]
    omega

theorem ofBytes_bytes (file : File) : ofBytes file.bytes = file := by
  have w0 : word file.bytes 0 4 = file.bits := word_head file.bits_lt _
  have w4 : word file.bytes 4 2 = file.aggr.file.toNat := by
    simp (disch := decide) only [bytes, word_skip]
    exact word_head file.aggr.file.toNat_lt _
  have w6 : word file.bytes 6 2 = file.aggr.no.toNat := by
    simp (disch := decide) only [bytes, word_skip]
    exact word_head file.aggr.no.toNat_lt _
  have w8 : word file.bytes 8 4 = file.atime.toNat := by
    simp (disch := decide) only [bytes, word_skip]
    exact word_head file.atime.toNat_lt _
  have w12 : word file.bytes 12 4 = file.mtime.toNat := by
    simp (disch := decide) only [bytes, word_skip]
    exact word_head file.mtime.toNat_lt _
  have w16 : word file.bytes 16 8 = file.stIno.toNat := by
    simp (disch := decide) only [bytes, word_skip]
    exact word_head file.stIno.toNat_lt _
  have w24 : word file.bytes 24 8 = file.stSize.toNat := by
    have last : word (storeLE 8 file.stSize.toNat ++ []) 0 8 = file.stSize.toNat :=
      word_head file.stSize.toNat_lt []
    rw [List.append_nil] at last
    simp (disch := decide) only [bytes, word_skip]
    exact last
  obtain ⟨type, stNlink, stMode⟩ := file.ofNat_bits
  simp only [ofBytes, w0, w4, w6, w8, w12, w16, w24, UInt16.ofNat_toNat, UInt32.ofNat_toNat,
    UInt64.ofNat_toNat, type, stNlink, stMode]

/-- The two type bits are those of the low half of the first byte. -/
theorem byte_bits : ∀ (low : BitVec 4) (high : Fin 16),
    (UInt8.ofNat (low.toNat + 16 * high) &&& 1 != 0) = (low &&& regular != 0) ∧
      (UInt8.ofNat (low.toNat + 16 * high) &&& 4 != 0) = (low &&& symlink != 0) := by
  decide

/-- The two type bits a handle looks for in the first byte. -/
theorem firstByte_bits (file : File) :
    (UInt8.ofNat file.bits &&& 1 != 0) = file.isRegular ∧
      (UInt8.ofNat file.bits &&& 4 != 0) = file.isSymlink := by
  have byte : UInt8.ofNat file.bits =
      UInt8.ofNat (file.type.toNat + 16 * (file.stNlink.toNat % 16)) := by
    have := file.type.isLt
    apply UInt8.toNat_inj.mp
    rw [UInt8.toNat_ofNat', UInt8.toNat_ofNat', bits]
    omega
  rw [byte]
  exact byte_bits file.type ⟨file.stNlink.toNat % 16, Nat.mod_lt _ (by decide)⟩

/-- **Decoding undoes encoding.** -/
theorem ofSlice_toSlice {file : File} {s : Slice} (encoded : file.toSlice = some s) :
    ofSlice s = some file := by
  unfold toSlice at encoded
  split at encoded
  · cases encoded
  · rename_i plain
    cases encoded
    obtain ⟨isRegular, isSymlink⟩ := file.firstByte_bits
    have first : ∃ rest, file.bytes = UInt8.ofNat file.bits :: rest := ⟨_, rfl⟩
    obtain ⟨rest, shape⟩ := first
    have length := file.length_bytes
    have decoded := file.ofBytes_bytes
    rw [shape] at length decoded ⊢
    rw [ofSlice, isRegular, isSymlink, Bool.and_comm, if_neg plain, if_pos length.ge, decoded]

/-- A record that has been decoded can be encoded. -/
theorem toSlice_isSome_of_ofSlice {file : File} {s : Slice} (decoded : ofSlice s = some file) :
    file.toSlice.isSome := by
  cases s with
  | nil => cases decoded
  | cons type rest =>
      rw [ofSlice] at decoded
      by_cases plain : (type &&& 1 != 0 && type &&& 4 != 0) = true
      · rw [if_pos plain] at decoded
        cases decoded
      · rw [if_neg plain] at decoded
        by_cases long : 32 ≤ (type :: rest).length
        · rw [if_pos long] at decoded
          cases decoded
          have low : ∃ high, word (type :: rest) 0 4 = type.toNat + 256 * high := ⟨_, rfl⟩
          obtain ⟨high, low⟩ := low
          have half : type.toNat / 16 < 16 := by
            have := type.toNat_lt
            omega
          have byte : UInt8.ofNat ((BitVec.ofNat 4 type.toNat).toNat + 16 * (type.toNat / 16)) = type := by
            rw [BitVec.toNat_ofNat, Nat.mod_add_div]
            exact UInt8.ofNat_toNat
          have isType : (ofBytes (type :: rest)).type = BitVec.ofNat 4 type.toNat := by
            apply BitVec.eq_of_toNat_eq
            simp only [ofBytes, low, BitVec.toNat_ofNat]
            omega
          obtain ⟨isRegular', isSymlink'⟩ := byte_bits (BitVec.ofNat 4 type.toNat) ⟨type.toNat / 16, half⟩
          simp only [byte] at isRegular' isSymlink'
          simp only [toSlice, isSymlink, isRegular, isType, ← isRegular', ← isSymlink']
          rw [Bool.and_comm, if_neg plain]
          rfl
        · rw [if_neg long] at decoded
          cases decoded

end File

/-! ## File keys -/

structure FileKey where
  dirIno : UInt64
  hash : UInt32
  name : Slice
  deriving DecidableEq, Repr

namespace FileKey

/-- `FileKey(ino_t, Slice*)`. -/
def ofName (ino : UInt64) (name : Slice) : FileKey := ⟨ino, Slice.hash name, name⟩

/-- `FileKey::ToSlice`. -/
def toSlice (key : FileKey) : Slice :=
  (storeLE 8 key.dirIno.toNat).reverse ++ (storeLE 4 key.hash.toNat ++ key.name)

/-- `FileKey(const Slice*)`. -/
def ofSlice (s : Slice) : FileKey where
  dirIno := .ofNat (loadLE (s.take 8).reverse)
  hash := .ofNat (loadLE ((s.drop 8).take 4))
  name := s.drop 12

theorem ofSlice_toSlice (key : FileKey) : ofSlice key.toSlice = key := by
  have ino : (key.toSlice.take 8).reverse = storeLE 8 key.dirIno.toNat := by
    rw [toSlice, List.take_left' (by simp), List.reverse_reverse]
  have rest : key.toSlice.drop 8 = storeLE 4 key.hash.toNat ++ key.name :=
    List.drop_left' (by simp)
  have name : key.toSlice.drop 12 = key.name := by
    rw [show 12 = 8 + 4 from rfl, ← List.drop_drop, rest, List.drop_left' (by simp)]
  rw [ofSlice, ino, rest, name, List.take_left' (by simp),
    loadLE_storeLE_of_lt key.dirIno.toNat_lt, loadLE_storeLE_of_lt key.hash.toNat_lt,
    UInt64.ofNat_toNat, UInt32.ofNat_toNat]

theorem toSlice_injective : Function.Injective toSlice :=
  Function.LeftInverse.injective ofSlice_toSlice

/-- A key is below the first key of a directory if its directory is below it. -/
theorem toSlice_lt_bound (key : FileKey) (ino : UInt64) :
    key.toSlice.lt (toSlice ⟨ino, 0, []⟩) = true ↔ key.dirIno.toNat < ino.toNat := by
  have zeros : storeLE 4 (0 : UInt32).toNat ++ [] = List.replicate 4 0 := rfl
  have never : Slice.lt (storeLE 4 key.hash.toNat ++ key.name) (List.replicate 4 0) = false :=
    Slice.not_lt_zeros (by simp)
  simp only [toSlice, zeros]
  rw [Slice.lt_append (by simp), never, Slice.lt_words key.dirIno.toNat_lt ino.toNat_lt]
  simp

/-- **A directory's range holds its entries**, for every inode number but the last and
every key; and a key is got back from its encoding. -/
theorem dir_range_iff (d : UInt64) (below : d.toNat < 2 ^ 64 - 1) (k : FileKey) :
    ofSlice k.toSlice = k ∧ Function.Injective toSlice ∧
      ((k.toSlice.lt (toSlice ⟨d, 0, []⟩) = false ∧ k.toSlice.lt (toSlice ⟨d + 1, 0, []⟩) = true) ↔
        k.dirIno = d) := by
  refine ⟨k.ofSlice_toSlice, toSlice_injective, ?_⟩
  have next : (d + 1).toNat = d.toNat + 1 := by
    rw [UInt64.toNat_add]
    exact Nat.mod_eq_of_lt (by simp; omega)
  rw [Bool.eq_false_iff, ne_eq, toSlice_lt_bound, toSlice_lt_bound, next, ← UInt64.toNat_inj]
  omega

/-- The carry of `d + 1` runs over a byte, and the name has bytes above 127. -/
theorem dir_range_iff_carry :
    (ofName 0xff [200]).toSlice.lt (toSlice ⟨0xff, 0, []⟩) = false ∧
      (ofName 0xff [200]).toSlice.lt (toSlice ⟨0xff + 1, 0, []⟩) = true :=
  (dir_range_iff 0xff (by decide) (ofName 0xff [200])).2.2.mpr rfl

end FileKey

end KTableFS.Fs
