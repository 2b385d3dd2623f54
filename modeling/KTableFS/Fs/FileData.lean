/-
# Fs.FileData -- file contents, in an aggregation block and a large file

`FileData` embeds `ktablefs::FileData`.  The first `aggrBlockSize` bytes of a file
live in its block of an aggregation file, which it shares with other files' blocks;
the bytes behind them in a large file of its own, named by its inode number and
created by the first write that needs it.

The backing files are POSIX files (`ByteFile`), so a read is short exactly at end
of file.  `none` is a call without a defined result: an aggregation file number
outside `aggr_files_`.  The `assert`s are compiled out of the configured Release
build; one of them expects a straddling read to find something in the block.

Sizes and offsets are numbers.  The source adds them as `size_t`s: an offset comes in as an
`off_t`, below `2 ^ 63`, and with a size up to `2 ^ 63` no sum wraps, so that the functions here
are the source's for all requests it can receive.
-/
import KTableFS.Theory.ByteFile
import KTableFS.Kvengine.Slice

namespace KTableFS.Fs

open KTableFS.Theory
open KTableFS.Kvengine (Slice)

set_option autoImplicit false

/-- `aggr_t`: the number of an aggregation file, from 1 on, and of a block in it. -/
structure AggrT where
  file : UInt16
  no : UInt16
  deriving DecidableEq, Repr

/-- What `FileData` reads of a `File`. -/
structure Extent where
  stIno : Nat
  aggr : AggrT
  deriving DecidableEq, Repr

/-- A file descriptor: an entry of `aggr_files_` or of `large_files_`. -/
inductive Fd where
  | aggr (index : Nat)
  | large (ino : Nat)
  deriving DecidableEq, Repr

/-- A `fuse_buf` over a descriptor, at a position. -/
structure FuseBuf where
  fd : Fd
  pos : Nat
  size : Nat
  deriving DecidableEq, Repr

/-- What is left of a buffer vector once `len` bytes of its first buffer are done. -/
def FuseBuf.advance (buf : FuseBuf) (len : Nat) (bufs : List FuseBuf) : List FuseBuf :=
  if buf.size ≤ len then bufs else ⟨buf.fd, buf.pos + len, buf.size - len⟩ :: bufs

structure FileData where
  aggrBlockSize : Nat
  aggrFiles : List ByteFile
  largeFiles : Nat → Option ByteFile
  curAggrFile : Nat
  curAggrIndex : Nat
  aggrFree : List AggrT

namespace FileData

/-- `FileData(work_dir, slab_size)` over an empty directory. -/
def new (slabSize : Nat) : FileData where
  aggrBlockSize := slabSize
  aggrFiles := []
  largeFiles := fun _ => none
  curAggrFile := 0
  curAggrIndex := 0x10000
  aggrFree := []

/-- `FileData::Create`. -/
def create (d : FileData) : AggrT × FileData :=
  match d.aggrFree with
  | res :: free => (res, { d with aggrFree := free })
  | [] =>
      let d := if d.curAggrIndex = 0x10000 then
          { d with
            curAggrFile := d.curAggrFile + 1
            curAggrIndex := 0
            aggrFiles := d.aggrFiles ++ [.empty] }
        else { d with curAggrIndex := d.curAggrIndex + 1 }
      (⟨.ofNat d.curAggrFile, .ofNat d.curAggrIndex⟩, d)

/-- `FileData::Delete`. -/
def delete (d : FileData) (file : Extent) : FileData :=
  { d with
    aggrFree := d.aggrFree ++ [file.aggr]
    largeFiles := Function.update d.largeFiles file.stIno none }

/-- `aggr_files_[file->aggr.file - 1]`. -/
def aggrFile (d : FileData) (aggr : AggrT) : Option ByteFile :=
  if aggr.file = 0 then none else d.aggrFiles[aggr.file.toNat - 1]?

/-- The large file of an inode, empty if there is none. -/
def largeFile (d : FileData) (ino : Nat) : ByteFile := (d.largeFiles ino).getD .empty

/-- The offset of a byte of the block in its aggregation file. -/
def blockOff (d : FileData) (file : Extent) (off : Nat) : Nat :=
  file.aggr.no.toNat * d.aggrBlockSize + off

/-- `FileData::Read`: the bytes stored in the buffer; their number is the result. -/
def read (d : FileData) (file : Extent) (size off : Nat) : Option Slice :=
  if size + off ≤ d.aggrBlockSize then
    (d.aggrFile file.aggr).map fun aggr => aggr.pread size (d.blockOff file off)
  else if d.aggrBlockSize ≤ off then
    match d.largeFiles file.stIno with
    | some large => some (large.pread size (off - d.aggrBlockSize))
    | none => some []
  else
    match d.aggrFile file.aggr with
    | none => none
    | some aggr =>
        let res := aggr.pread (d.aggrBlockSize - off) (d.blockOff file off)
        match d.largeFiles file.stIno with
        | some large => some (res ++ large.pread (size - (d.aggrBlockSize - off)) 0)
        | none => some res

/-- A `pwrite` to the block of a file. -/
def writeAggr (d : FileData) (file : Extent) (data : Slice) (off : Nat) : Option FileData :=
  (d.aggrFile file.aggr).map fun aggr =>
    let written := aggr.pwrite data (d.blockOff file off)
    { d with aggrFiles := d.aggrFiles.set (file.aggr.file.toNat - 1) written }

/-- A `pwrite` to the large file, which is created if there is none. -/
def writeLarge (d : FileData) (file : Extent) (data : Slice) (off : Nat) : FileData :=
  { d with
    largeFiles := Function.update d.largeFiles file.stIno
      (some ((d.largeFile file.stIno).pwrite data off)) }

/-- `FileData::Write`; the result is the size of `data`. -/
def write (d : FileData) (file : Extent) (data : Slice) (off : Nat) : Option FileData :=
  if data.length + off ≤ d.aggrBlockSize then d.writeAggr file data off
  else if d.aggrBlockSize ≤ off then some (d.writeLarge file data (off - d.aggrBlockSize))
  else
    (d.writeAggr file (data.take (d.aggrBlockSize - off)) off).map fun written =>
      written.writeLarge file (data.drop (d.aggrBlockSize - off)) 0

/-! ## Writes through descriptors -/

/-- `large_files_` with an entry for the inode: the large file is opened, and so
created, if there is none. -/
def openLarge (d : FileData) (ino : Nat) : FileData :=
  { d with largeFiles := Function.update d.largeFiles ino (some (d.largeFile ino)) }

/-- `FileData::WriteBuf`: where the bytes go. -/
def writeBuf (d : FileData) (file : Extent) (size off : Nat) : Option (List FuseBuf × FileData) :=
  let block := fun size => ⟨.aggr (file.aggr.file.toNat - 1), d.blockOff file off, size⟩
  if size + off ≤ d.aggrBlockSize then
    (d.aggrFile file.aggr).map fun _ => ([block size], d)
  else if d.aggrBlockSize ≤ off then
    some ([⟨.large file.stIno, off - d.aggrBlockSize, size⟩], d.openLarge file.stIno)
  else
    (d.aggrFile file.aggr).map fun _ =>
      ([block (d.aggrBlockSize - off),
        ⟨.large file.stIno, 0, size - (d.aggrBlockSize - off)⟩], d.openLarge file.stIno)

def pwriteFd (d : FileData) (fd : Fd) (data : Slice) (pos : Nat) : FileData :=
  match fd with
  | .aggr i => { d with aggrFiles := d.aggrFiles.modify i fun file => file.pwrite data pos }
  | .large ino =>
      let written := (d.largeFile ino).pwrite data pos
      { d with largeFiles := Function.update d.largeFiles ino (some written) }

/-- `fuse_buf_copy` from memory: `data` are the bytes it gets to copy. -/
def bufCopy (d : FileData) : List FuseBuf → Slice → FileData
  | [], _ => d
  | out :: outs, data =>
      (d.pwriteFd out.fd (data.take out.size) out.pos).bufCopy outs (data.drop out.size)

/-! ## Reads through descriptors -/

/-- `FileData::ReadBuf`: where the bytes come from.  Without a large file a range behind
the block is one empty memory buffer. -/
def readBuf (d : FileData) (file : Extent) (size off : Nat) : Option (List FuseBuf) :=
  let block := fun size => ⟨.aggr (file.aggr.file.toNat - 1), d.blockOff file off, size⟩
  if size + off ≤ d.aggrBlockSize then
    (d.aggrFile file.aggr).map fun _ => [block size]
  else if d.aggrBlockSize ≤ off then
    match d.largeFiles file.stIno with
    | some _ => some [⟨.large file.stIno, off - d.aggrBlockSize, size⟩]
    | none => some []
  else
    (d.aggrFile file.aggr).map fun _ =>
      match d.largeFiles file.stIno with
      | some _ =>
          [block (d.aggrBlockSize - off), ⟨.large file.stIno, 0, size - (d.aggrBlockSize - off)⟩]
      | none => [block (d.aggrBlockSize - off)]

def preadFd (d : FileData) (fd : Fd) (size pos : Nat) : Slice :=
  match fd with
  | .aggr i => (d.aggrFiles.getD i .empty).pread size pos
  | .large ino => (d.largeFile ino).pread size pos

/-- `fuse_reply_data`: one buffer after the other, up to the first that comes short. -/
def bufRead (d : FileData) : List FuseBuf → Slice
  | [] => []
  | src :: srcs =>
      let bytes := d.preadFd src.fd src.size src.pos
      if bytes.length < src.size then bytes else bytes ++ d.bufRead srcs

/-- The loop of `fuse_buf_copy` between descriptors, with the number of bytes copied:
as much as the two current buffers have in common, up to the first transfer that comes
short.  Every turn finishes a buffer of one side. -/
def copyLoop : Nat → FileData → List FuseBuf → List FuseBuf → FileData × Nat
  | turns + 1, d, src :: srcs, dst :: dsts =>
      let len := min src.size dst.size
      let bytes := d.preadFd src.fd len src.pos
      let d := d.pwriteFd dst.fd bytes dst.pos
      if bytes.length < len then (d, bytes.length)
      else
        let rest := copyLoop turns d (src.advance len srcs) (dst.advance len dsts)
        (rest.1, len + rest.2)
  | _, d, _, _ => (d, 0)

/-- `fuse_buf_copy` between descriptors. -/
def bufCopyFd (d : FileData) (srcs dsts : List FuseBuf) : FileData × Nat :=
  copyLoop (srcs.length + dsts.length) d srcs dsts

end FileData

end KTableFS.Fs
