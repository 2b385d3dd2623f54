/-
# Kvengine.Aio -- one asynchronous I/O, and the kernel that performs it

An `Aio` is `kvengine::AIO` with its `iocb` flattened into it: opcode, buffer,
file, range, the completion callbacks in the order they were added, and the batch
to finish.  A read's buffer is a page-cache frame (`frame`), a write's is the byte
string it stores (`data`).

A `Kernel` is what `io_submit` followed by `io_getevents` does to the files and to
the frames, with the completion events it reports.  `Kernel.inOrder` performs the
requests completely, in submission order.
-/
import KTableFS.Theory.ByteFile
import KTableFS.Kvengine.Batch
import KTableFS.Kvengine.PageCache

namespace KTableFS.Kvengine

open KTableFS.Theory

set_option autoImplicit false

/-- `slab_t`: the bit fields `size : 16`, `file : 16`, `index : 32`. -/
structure SlabT where
  size : Nat
  file : Nat
  index : Nat
  deriving DecidableEq, Repr

/-- Assignment to the three bit fields. -/
def SlabT.pack (size file index : Nat) : SlabT where
  size := size % 2 ^ 16
  file := file % 2 ^ 16
  index := index % 2 ^ 32

/-- `slab.size * slab.index`: the bit fields promote to `int` and `unsigned int`,
so the product is taken modulo `2 ^ 32`. -/
def SlabT.off (slab : SlabT) : Nat := (slab.size * slab.index) % 2 ^ 32

inductive Opcode where
  | pread
  | pwrite
  deriving DecidableEq

/-- The closures `AIO::AddCallback` is given. -/
inductive Callback where
  /-- `PutCallback(&index_, key, slab)`. -/
  | put (key : Slice) (slab : SlabT)
  /-- `DeleteCallback(&index_, key)`. -/
  | delete (key : Slice)
  /-- `FileSlabReadCallback`. -/
  | fileSlabRead
  /-- `PageCache::WriteCallback(this, ent, data, off)`. -/
  | cacheWrite (ent : Nat) (data : Slice) (off : Nat)
  /-- `PageCache::ReadCallback(this, ent)`. -/
  | cacheRead (ent : Nat)

structure Aio where
  /-- The object's address, which is also the `aio_data` of its `iocb`. -/
  self : Nat
  batch : Batch
  opcode : Opcode
  frame : Nat
  data : Slice
  fildes : Nat
  nbytes : Nat
  offset : Nat
  callbacks : List Callback
  readSize : Nat
  readOff : Nat
  submit : Bool
  /-- `event_->res`, once the event is set. -/
  event : Option Int

/-- `io_event`: the request's `aio_data` and its result. -/
structure IoEvent where
  data : Nat
  res : Int

namespace Aio

/-- `AIO::AIO(batch)`: the `iocb` is zeroed, and opcode 0 is `IOCB_CMD_PREAD`. -/
def new (self : Nat) (batch : Batch) : Aio where
  self := self
  batch := batch
  opcode := .pread
  frame := 0
  data := []
  fildes := 0
  nbytes := 0
  offset := 0
  callbacks := []
  readSize := 0
  readOff := 0
  submit := false
  event := none

/-- `AIO::AddCallback`. -/
def addCallback (aio : Aio) (callback : Callback) : Aio :=
  { aio with callbacks := aio.callbacks ++ [callback] }

/-- `AIO::SetReadSizeAndOff`. -/
def setReadSizeAndOff (aio : Aio) (size off : Nat) : Aio :=
  { aio with readSize := size, readOff := off }

/-- `AIO::Success`. -/
def success (aio : Aio) : Bool :=
  match aio.opcode, aio.event with
  | .pread, none => true
  | .pread, some res => decide (0 < res)
  | .pwrite, none => false
  | .pwrite, some res => decide (res = aio.nbytes)

/-- The result `AIO::Finish` reports: `Success() ? 0 : event_->res`. -/
def result (aio : Aio) : Int :=
  if aio.success then 0 else aio.event.getD 0

end Aio

/-! ## The kernel -/

/-- The files behind a worker's descriptors, by file number. -/
abbrev Disk := Nat → ByteFile

abbrev Kernel := Disk → Memory → List Aio → Disk × Memory × List IoEvent

/-- What a request, performed in full, does to the files. -/
def Aio.performDisk (aio : Aio) (disk : Disk) : Disk :=
  match aio.opcode with
  | .pread => disk
  | .pwrite => Function.update disk aio.fildes ((disk aio.fildes).pwrite aio.data aio.offset)

/-- What it does to the frames. -/
def Aio.performMemory (aio : Aio) (disk : Disk) (memory : Memory) : Memory :=
  match aio.opcode with
  | .pread => blit memory aio.frame ((disk aio.fildes).pread aio.nbytes aio.offset)
  | .pwrite => memory

/-- What it reports. -/
def Aio.performEvent (aio : Aio) (disk : Disk) : IoEvent where
  data := aio.self
  res := match aio.opcode with
    | .pread => (disk aio.fildes).preadCount aio.nbytes aio.offset
    | .pwrite => aio.nbytes

/-- Every request is performed in full, in the order of submission, and the events
come back in that order. -/
def Kernel.inOrder : Kernel
  | disk, memory, [] => (disk, memory, [])
  | disk, memory, aio :: rest =>
      let after := Kernel.inOrder (aio.performDisk disk) (aio.performMemory disk memory) rest
      (after.1, after.2.1, aio.performEvent disk :: after.2.2)

end KTableFS.Kvengine
