/-
# Fs.ZeroCopy -- reads and writes through buffer vectors

`FileData::ReadBuf` and `FileData::WriteBuf` describe the ranges that `FileData::Read`
and `FileData::Write` transfer: extents of descriptors, for libfuse to move the bytes.

* `bufWrite_eq_write`: a write through extents leaves what `Write` leaves.
* `bufRead_eq_read_iff`: a read through extents delivers what `Read` returns, unless the
  range runs over the end of the block, the aggregation file ends inside the block and the
  large file has bytes.  There the extents stop, and `Read` goes on with the large file as
  if the block had been read in full.
-/
import KTableFS.Fs.FileContents

namespace KTableFS.Fs

open KTableFS.Theory
open KTableFS.Kvengine (Slice)

set_option autoImplicit false

namespace FileData

variable {d : FileData}

theorem aggrFiles_of_aggrFile {aggr : AggrT} {file : ByteFile} (present : d.aggrFile aggr = some file) :
    d.aggrFiles[aggr.file.toNat - 1]? = some file := by
  unfold aggrFile at present
  split at present
  · cases present
  · exact present

theorem preadFd_block {aggr : AggrT} {file : ByteFile} (present : d.aggrFile aggr = some file)
    (size pos : Nat) : d.preadFd (.aggr (aggr.file.toNat - 1)) size pos = file.pread size pos := by
  rw [preadFd, List.getD_eq_getElem?_getD, aggrFiles_of_aggrFile present, Option.getD_some]

theorem preadFd_large {ino : Nat} {file : ByteFile} (present : d.largeFiles ino = some file)
    (size pos : Nat) : d.preadFd (.large ino) size pos = file.pread size pos := by
  rw [preadFd, largeFile_of_some present]

/-! ## Reads -/

/-- One extent delivers what a `pread` returns, short or not. -/
theorem bufRead_singleton (fd : Fd) (pos size : Nat) :
    d.bufRead [⟨fd, pos, size⟩] = d.preadFd fd size pos := by
  simp only [bufRead, List.append_nil, ite_self]

/-- The read passes the end of the block, which the aggregation file does not reach, and
there is something in the large file. -/
def StopsInBlock (d : FileData) (file : Extent) (size off : Nat) : Prop :=
  off < d.aggrBlockSize ∧ d.aggrBlockSize < size + off ∧
    ∃ aggr ∈ d.aggrFile file.aggr, ∃ large ∈ d.largeFiles file.stIno,
      aggr.size < d.blockOff file d.aggrBlockSize ∧ 0 < large.size

/-- **The two ways to read agree** exactly if the extents do not stop in the block. -/
theorem bufRead_eq_read_iff (d : FileData) (file : Extent) (size off : Nat) :
    (d.readBuf file size off).map d.bufRead = d.read file size off ↔ ¬ d.StopsInBlock file size off := by
  unfold readBuf read StopsInBlock
  by_cases inside : size + off ≤ d.aggrBlockSize
  · refine iff_of_true ?_ (by omega)
    rw [if_pos inside, if_pos inside]
    cases present : d.aggrFile file.aggr with
    | none => rfl
    | some aggr => simp only [Option.map_some, bufRead_singleton, preadFd_block present]
  · rw [if_neg inside, if_neg inside]
    by_cases behind : d.aggrBlockSize ≤ off
    · refine iff_of_true ?_ (by omega)
      rw [if_pos behind, if_pos behind]
      cases present : d.largeFiles file.stIno with
      | none => rfl
      | some large => simp only [Option.map_some, bufRead_singleton, preadFd_large present]
    · rw [if_neg behind, if_neg behind]
      have across : off < d.aggrBlockSize ∧ d.aggrBlockSize < size + off := by omega
      cases present : d.aggrFile file.aggr with
      | none => simp
      | some aggr =>
          cases present' : d.largeFiles file.stIno with
          | none => simp [bufRead_singleton, preadFd_block present]
          | some large =>
              have short : (aggr.pread (d.aggrBlockSize - off) (d.blockOff file off)).length <
                  d.aggrBlockSize - off ↔ aggr.size < d.blockOff file d.aggrBlockSize := by
                rw [ByteFile.length_pread]
                unfold ByteFile.preadCount blockOff
                omega
              have nothing : large.pread (size - (d.aggrBlockSize - off)) 0 = [] ↔ large.size = 0 := by
                rw [← List.length_eq_zero_iff, ByteFile.length_pread]
                unfold ByteFile.preadCount
                omega
              simp only [Option.map_some, Option.some.injEq, bufRead, preadFd_block present,
                preadFd_large present', List.append_nil, ite_self, Option.mem_def, exists_eq_left',
                across, true_and]
              by_cases stops : aggr.size < d.blockOff file d.aggrBlockSize
              · rw [if_pos (short.mpr stops), List.self_eq_append_right, nothing]
                omega
              · rw [if_neg (mt short.mp stops)]
                simp [stops]

/-! ## Writes -/

theorem pwriteFd_block {file : Extent} {data : Slice} {off : Nat} {aggr : ByteFile}
    (present : d.aggrFile file.aggr = some aggr) :
    some (d.pwriteFd (.aggr (file.aggr.file.toNat - 1)) data (d.blockOff file off)) =
      d.writeAggr file data off := by
  simp only [pwriteFd, writeAggr, present, Option.map_some]
  rw [List.modify_eq_set_getElem?, aggrFiles_of_aggrFile present]
  rfl

/-- The large file is opened before the bytes are moved; that it was opened is not seen
behind the write. -/
theorem pwriteFd_openLarge (d : FileData) (file : Extent) (data : Slice) (pos : Nat) :
    (d.openLarge file.stIno).pwriteFd (.large file.stIno) data pos = d.writeLarge file data pos := by
  simp [pwriteFd, openLarge, writeLarge, largeFile]

/-- **The two ways to write agree.** -/
theorem bufWrite_eq_write (d : FileData) (file : Extent) (data : Slice) (off : Nat) :
    ((d.writeBuf file data.length off).map fun out => out.2.bufCopy out.1 data) = d.write file data off := by
  unfold writeBuf write
  by_cases inside : data.length + off ≤ d.aggrBlockSize
  · rw [if_pos inside, if_pos inside]
    cases present : d.aggrFile file.aggr with
    | none => simp [writeAggr, present]
    | some aggr =>
        simp only [Option.map_some, bufCopy, List.take_length]
        exact pwriteFd_block present
  · rw [if_neg inside, if_neg inside]
    by_cases behind : d.aggrBlockSize ≤ off
    · rw [if_pos behind, if_pos behind]
      simp only [Option.map_some, bufCopy, List.take_length, pwriteFd_openLarge]
    · rw [if_neg behind, if_neg behind]
      cases present : d.aggrFile file.aggr with
      | none => simp [writeAggr, present]
      | some aggr =>
          have rest : (data.drop (d.aggrBlockSize - off)).take (data.length - (d.aggrBlockSize - off)) =
              data.drop (d.aggrBlockSize - off) := by
            rw [← List.length_drop, List.take_length]
          have swapped : (d.openLarge file.stIno).pwriteFd (.aggr (file.aggr.file.toNat - 1))
              (data.take (d.aggrBlockSize - off)) (d.blockOff file off) =
            (d.pwriteFd (.aggr (file.aggr.file.toNat - 1)) (data.take (d.aggrBlockSize - off))
              (d.blockOff file off)).openLarge file.stIno := rfl
          simp only [Option.map_some, bufCopy, rest, swapped, pwriteFd_openLarge,
            ← pwriteFd_block present]

/-- **Buffered and zero-copy transfers agree**, for every state of the files, every file
and every range, exactly if no read stops in the block. -/
theorem paths_agree_iff (d : FileData) (file : Extent) (size off : Nat) :
    ((d.readBuf file size off).map d.bufRead = d.read file size off ∧
        ∀ (data : Slice) (at' : Nat),
          ((d.writeBuf file data.length at').map fun out => out.2.bufCopy out.1 data) =
            d.write file data at') ↔
      ¬ d.StopsInBlock file size off := by
  rw [bufRead_eq_read_iff]
  exact and_iff_left fun data at' => bufWrite_eq_write d file data at'

/-- A file whose only bytes are behind its block: `Read` returns them two bytes early. -/
theorem paths_differ :
    ¬ ∀ (d : FileData) (file : Extent) (size off : Nat),
      (d.readBuf file size off).map d.bufRead = d.read file size off := by
  intro always
  have runs : ∃ d ∈ (FileData.new 8).create.2.write ⟨2, 1, 0⟩ [7, 7] 8,
      (d.readBuf ⟨2, 1, 0⟩ 4 6).map d.bufRead = some [] ∧ d.read ⟨2, 1, 0⟩ 4 6 = some [7, 7] := by
    decide
  obtain ⟨d, -, nothing, early⟩ := runs
  rw [always, early] at nothing
  cases nothing

end FileData

end KTableFS.Fs
