/-
# Fs.Requests -- FUSE requests over files, handles and the key-value store

`FsState` embeds `ktablefs::KTableFS`.  A handle is what a reply gives the kernel as
the inode of a file: the address of a `FileHandle`, which points to a `File` object of
its own and names the file's key.  The objects live in `files` and `handles`, their
addresses being positions; an object that no reply names is never reached again and is
left out.

The key-value store is the finite map of `Kvengine.Store`, and requests are answered
one at a time.  `none` is a request without a defined result: an address that is not
a handle, a null or uninitialised pointer followed, a signed overflow.  The `assert`s
are compiled out of the configured Release build.
-/
import KTableFS.Kvengine.Store
import KTableFS.Fs.File

namespace KTableFS.Fs

open KTableFS.Theory
open KTableFS.Kvengine (Slice Store)

set_option autoImplicit false

/-- A `fuse_ino_t`: `FUSE_ROOT_ID`, or the address of a handle. -/
inductive FuseIno where
  | root
  | handle (addr : Nat)
  deriving DecidableEq, Repr

structure FileHandle where
  /-- The address of the file. -/
  file : Nat
  key : FileKey
  deriving DecidableEq, Repr

/-- What the constructor reads of the data directory. -/
structure Stat where
  stMode : UInt32
  stNlink : UInt64
  stSize : UInt64
  stUid : UInt32
  stGid : UInt32
  stDev : UInt64
  stRdev : UInt64
  stBlksize : UInt64
  deriving DecidableEq, Repr

/-- The `attr` of a `fuse_entry_param`. -/
structure Attr where
  stAtime : UInt32
  stMtime : UInt32
  stCtime : UInt32
  stIno : UInt64
  stMode : BitVec 20
  stNlink : BitVec 8
  stSize : UInt64
  stUid : UInt32
  stGid : UInt32
  stBlksize : UInt64
  stBlocks : UInt64
  stDev : UInt64
  stRdev : UInt64
  deriving DecidableEq, Repr

inductive Reply where
  /-- `fuse_reply_err`. -/
  | err (errno : Int)
  /-- `fuse_reply_entry`: the handle and the attributes. -/
  | entry (ino : FuseIno) (attr : Attr)
  /-- `fuse_reply_attr`. -/
  | attr (attr : Attr)
  /-- `fuse_reply_write`. -/
  | write (count : Nat)
  /-- The request stays unanswered. -/
  | unanswered
  deriving DecidableEq, Repr

structure FsState where
  stat : Stat
  db : Store
  fileData : FileData
  root : FileHandle
  curIno : UInt64
  /-- `open_file_`: files by key. -/
  openFile : List (FileKey × Nat)
  /-- The `File` objects. -/
  files : List File
  handles : List FileHandle

namespace FsState

/-- `KTableFS(data_dir)`, with the time of the call; the root's file is at address 0. -/
def new (stat : Stat) (slabSize : Nat) (now : UInt32) : FsState where
  stat := stat
  db := ∅
  fileData := .new slabSize
  root := ⟨0, .ofName 1 [47]⟩
  curIno := 1
  openFile := []
  files := [{
    type := File.regular
    stNlink := .ofNat 8 stat.stNlink.toNat
    stMode := .ofNat 20 stat.stMode.toNat
    aggr := ⟨0, 0⟩
    atime := now
    mtime := now
    stIno := 1
    stSize := stat.stSize }]
  handles := []

/-- `KTableFS::Handle`. -/
def handle (fs : FsState) : FuseIno → Option FileHandle
  | .root => some fs.root
  | .handle addr => fs.handles[addr]?

/-- `handle->file`, followed. -/
def file (fs : FsState) (handle : FileHandle) : Option File := fs.files[handle.file]?

/-- `KTableFS::IndexInsert`; its body is commented out. -/
def indexInsert (fs : FsState) (_key : FileKey) (_file : Nat) : FsState := fs

/-- `open_file_.find`. -/
def indexFind (fs : FsState) (key : FileKey) : Option Nat :=
  (fs.openFile.find? fun entry => entry.1 = key).map Prod.snd

/-- `FileHandle::FuseEntry`, the attributes. -/
def fuseEntry (fs : FsState) (file : File) : Attr where
  stAtime := file.atime
  stMtime := file.mtime
  stCtime := file.mtime
  stIno := file.stIno
  stMode := file.stMode
  stNlink := file.stNlink
  stSize := file.stSize
  stUid := fs.stat.stUid
  stGid := fs.stat.stGid
  stBlksize := fs.stat.stBlksize
  stBlocks := (file.stSize + fs.stat.stBlksize - 1) / fs.stat.stBlksize
  stDev := fs.stat.stDev
  stRdev := fs.stat.stRdev

/-- `S_IFDIR`. -/
def sIfdir : UInt32 := 0x4000

/-- `FileHandle(uint8_t, mode_t)`: the new file. -/
def newFile (fs : FsState) (type : BitVec 4) (mode now : UInt32) : File × FsState :=
  let ino := fs.curIno + 1
  let file : File :=
    { type, stNlink := 2, stMode := .ofNat 20 mode.toNat, aggr := ⟨0, 0⟩, atime := now, mtime := now
      stIno := ino, stSize := 0 }
  if mode &&& sIfdir != 0 then (file, { fs with curIno := ino })
  else
    let (aggr, fileData) := fs.fileData.create
    ({ file with aggr, stNlink := 1 }, { fs with curIno := ino, fileData })

/-- A new handle to a new file, and its address. -/
def newHandle (fs : FsState) (file : File) (key : FileKey) : FuseIno × FsState :=
  (.handle fs.handles.length,
    { fs with files := fs.files ++ [file], handles := fs.handles ++ [⟨fs.files.length, key⟩] })

/-- `Mknod` and `Mkdir`: a new file is stored unless its key is taken. -/
def create (fs : FsState) (parent : FuseIno) (name : Slice) (mode now : UInt32) :
    Option (FsState × Reply) := do
  let (file, fs) := fs.newFile File.regular mode now
  let parentHandle ← fs.handle parent
  let parentFile ← fs.file parentHandle
  let key := FileKey.ofName parentFile.stIno name
  let value ← file.toSlice
  let (db, respond) := fs.db.submit (.put key.toSlice value)
  let (_, res) ← respond
  let fs := { fs with db }
  if res < 0 then some (fs, .err (-res))
  else
    let (ino, fs') := fs.newHandle file key
    some (fs'.indexInsert key fs.files.length, .entry ino (fs'.fuseEntry file))

/-- `KTableFS::Mknod`. -/
def mknod (fs : FsState) (parent : FuseIno) (name : Slice) (mode now : UInt32) :
    Option (FsState × Reply) := fs.create parent name mode now

/-- `KTableFS::Mkdir`. -/
def mkdir (fs : FsState) (parent : FuseIno) (name : Slice) (mode now : UInt32) :
    Option (FsState × Reply) := fs.create parent name (mode ||| sIfdir) now

/-- `KTableFS::Lookup` with `LookupCallback`. -/
def lookup (fs : FsState) (parent : FuseIno) (name : Slice) : Option (FsState × Reply) := do
  let parentHandle ← fs.handle parent
  let parentFile ← fs.file parentHandle
  let key := FileKey.ofName parentFile.stIno name
  match fs.indexFind key with
  | some addr =>
      let file ← fs.files[addr]?
      let fs' := { fs with handles := fs.handles ++ [⟨addr, key⟩] }
      some (fs', .entry (.handle fs.handles.length) (fs'.fuseEntry file))
  | none =>
      let (db, respond) := fs.db.submit (.get key.toSlice)
      let (data, res) ← respond
      let fs := { fs with db }
      if res < 0 then some (fs, .err (-res))
      else
        let value ← data
        let file ← File.ofSlice value
        let (ino, fs') := fs.newHandle file key
        if file.isRegular then
          some (fs'.indexInsert key fs.files.length, .entry ino (fs'.fuseEntry file))
        else some (fs', .unanswered)

/-- The common end of `Write`, `WriteBuf` and `CopyFileRange`: `count` bytes are written at `off`, and
the handle's file grows if they end behind its size.  The sum is an `off_t`. -/
def written (fs : FsState) (handle : FileHandle) (file : File) (count off : Nat) (now : UInt32) :
    Option (FsState × Reply) :=
  if 2 ^ 63 ≤ count + off then none
  else if file.stSize.toNat < count + off then do
    let file := { file with stSize := .ofNat (count + off), mtime := now }
    let value ← file.toSlice
    let (db, respond) := fs.db.submit (.update handle.key.toSlice value)
    let (_, res) ← respond
    let fs := { fs with db, files := fs.files.set handle.file file }
    -- `WriteCallback`
    if res = 0 then some (fs, .write count) else some (fs, .unanswered)
  else some (fs, .write count)

/-- `KTableFS::Write`. -/
def write (fs : FsState) (ino : FuseIno) (data : Slice) (off : Nat) (now : UInt32) :
    Option (FsState × Reply) := do
  let handle ← fs.handle ino
  let file ← fs.file handle
  let fileData ← fs.fileData.write file.extent data off
  let fs := { fs with fileData }
  if 0 < data.length then fs.written handle file data.length off now
  else some (fs, .err 0)

/-- `KTableFS::WriteBuf`; `res` is the result of `fuse_buf_copy`. -/
def writeBuf (fs : FsState) (ino : FuseIno) (data : Slice) (off : Nat) (res : Int) (now : UInt32) :
    Option (FsState × Reply) := do
  let handle ← fs.handle ino
  let file ← fs.file handle
  let (out, fileData) ← fs.fileData.writeBuf file.extent data.length off
  let fs := { fs with fileData := fileData.bufCopy out (data.take res.toNat) }
  if res < 0 then some (fs, .err (-res))
  else fs.written handle file res.toNat off now

/-- `KTableFS::CopyFileRange`. -/
def copyFileRange (fs : FsState) (inoIn : FuseIno) (offIn : Nat) (inoOut : FuseIno) (offOut size : Nat)
    (now : UInt32) : Option (FsState × Reply) := do
  let handleIn ← fs.handle inoIn
  let handleOut ← fs.handle inoOut
  let fileIn ← fs.file handleIn
  let fileOut ← fs.file handleOut
  let srcs ← fs.fileData.readBuf fileIn.extent size offIn
  let (dsts, fileData) ← fs.fileData.writeBuf fileOut.extent size offOut
  let (fileData, res) := fileData.bufCopyFd srcs dsts
  written { fs with fileData } handleOut fileOut res offOut now

/-- `KTableFS::GetAttr`. -/
def getAttr (fs : FsState) (ino : FuseIno) : Option (FsState × Reply) := do
  let handle ← fs.handle ino
  let file ← fs.file handle
  some (fs, .attr (fs.fuseEntry file))

/-! ## What a request does -/

section Effects

variable {fs : FsState} {parent : FuseIno} {parentHandle : FileHandle} {parentFile : File}
  (named : fs.handle parent = some parentHandle) (points : fs.file parentHandle = some parentFile)

include named points

/-- **A creation**: refused if the key is taken; otherwise the new file is stored, and a
handle to it returned.  An inode number, and a block of a file that is not a directory,
are taken in both cases. -/
theorem create_eq (name : Slice) (mode now : UInt32) :
    fs.create parent name mode now = some (
      let key := FileKey.ofName parentFile.stIno name
      let (file, mid) := fs.newFile File.regular mode now
      if fs.db.contains key.toSlice then (mid, .err 17)
      else
        ({ mid with
            db := fs.db.insert key.toSlice file.bytes
            files := fs.files ++ [file]
            handles := fs.handles ++ [⟨fs.files.length, key⟩] },
          .entry (.handle fs.handles.length) (fs.fuseEntry file))) := by
  have made : ∃ file mid, fs.newFile File.regular mode now = (file, mid) ∧ file.type = File.regular ∧
      mid.db = fs.db ∧ mid.root = fs.root ∧ mid.files = fs.files ∧ mid.handles = fs.handles ∧
      mid.stat = fs.stat := by
    unfold newFile
    simp only
    split
    · exact ⟨_, _, rfl, rfl, rfl, rfl, rfl, rfl, rfl⟩
    · exact ⟨_, _, rfl, rfl, rfl, rfl, rfl, rfl, rfl⟩
  obtain ⟨file, mid, isNew, type, db, root, files, handles, stat⟩ := made
  have handle' : mid.handle parent = some parentHandle := by
    rw [← named]
    cases parent with
    | root => rw [handle, handle, root]
    | handle addr => rw [handle, handle, handles]
  have file' : mid.file parentHandle = some parentFile := by
    rw [← points, FsState.file, FsState.file, files]
  have encoded : file.toSlice = some file.bytes := by
    rw [File.toSlice, File.isSymlink, File.isRegular, type]
    rfl
  simp only [create, isNew, Option.bind_eq_bind, handle', file', encoded, Option.bind_some,
    Store.submit_put, db, Kvengine.eexist]
  split
  · simp [← db]
  · simp [newHandle, indexInsert, files, handles, fuseEntry, stat]

/-- **A lookup** reads the store. -/
theorem lookup_eq (unindexed : fs.openFile = []) (name : Slice) :
    fs.lookup parent name =
      let key := FileKey.ofName parentFile.stIno name
      match fs.db[key.toSlice]? with
      | none => some (fs, .err 2)
      | some value => (File.ofSlice value).map fun file =>
          ({ fs with files := fs.files ++ [file], handles := fs.handles ++ [⟨fs.files.length, key⟩] },
            if file.isRegular then .entry (.handle fs.handles.length) (fs.fuseEntry file) else .unanswered) := by
  have missed : ∀ key, fs.indexFind key = none := by simp [indexFind, unindexed]
  simp only [lookup, named, points, missed, Store.submit_get, Option.bind_eq_bind, Option.bind_some]
  cases found : fs.db[(FileKey.ofName parentFile.stIno name).toSlice]? with
  | none => simp [Kvengine.enoent]
  | some value =>
      cases decoded : File.ofSlice value with
      | none => simp [decoded]
      | some file =>
          simp only [Option.isSome_some, if_true, lt_irrefl, if_false, Option.bind_some, decoded,
            newHandle, indexInsert, Option.map_some]
          split
          · rfl
          · rfl

end Effects

/-- A creation that has a result was given a handle. -/
theorem parent_of_create {fs : FsState} {parent : FuseIno} {name : Slice} {mode now : UInt32}
    {out : FsState × Reply} (taken : fs.create parent name mode now = some out) :
    ∃ parentHandle parentFile, fs.handle parent = some parentHandle ∧
      fs.file parentHandle = some parentFile := by
  have same : (fs.newFile File.regular mode now).2.handle parent = fs.handle parent ∧
      ∀ h, (fs.newFile File.regular mode now).2.file h = fs.file h := by
    unfold newFile
    simp only
    split
    · exact ⟨by cases parent <;> rfl, fun _ => rfl⟩
    · exact ⟨by cases parent <;> rfl, fun _ => rfl⟩
  simp only [create, Option.bind_eq_bind, Option.bind_eq_some_iff, same.1, same.2] at taken
  obtain ⟨parentHandle, named, parentFile, points, -⟩ := taken
  exact ⟨parentHandle, parentFile, named, points⟩

end FsState

end KTableFS.Fs
