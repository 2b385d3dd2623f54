/-
# Kvengine.LocalFileSet -- the worker's files behind the page cache

`LocalFileSet` embeds `kvengine::LocalFileSet`: the files created so far, their
contents (`disk`, what the kernel holds behind the descriptors), and the page
cache every read goes through.

* `readSync` reads a cached page, or loads the page with `pread` and caches it;
* `read` prepares an asynchronous read of the whole page, or a fake one that only
  reads the frame at completion;
* `write` prepares an asynchronous write, and adds the callback that repeats it on
  the cached page only if the page is cached now.

`none` is an access to a file number outside `file_set_`, or a cache operation the
program does not survive.
-/
import KTableFS.Kvengine.Aio

namespace KTableFS.Kvengine

open KTableFS.Theory

set_option autoImplicit false

/-- `LocalFileSet::LocalFile`; a file number names its descriptor. -/
structure LocalFile where
  fileName : String
  mode : Nat

structure LocalFileSet where
  directory : String
  fileSet : List LocalFile
  disk : Disk
  pagecache : PageCache

/-- `LocalFileSet::PageHash_`. -/
def pageHash (file page : Nat) : Nat :=
  (file * 2 ^ 40 + page) % 2 ^ 64

namespace LocalFileSet

/-- `LocalFileSet::LocalFileSet(directory)`. -/
def new (directory : String) (pagecache : PageCache) : LocalFileSet where
  directory := if directory.endsWith "/" then (directory.dropEnd 1).toString else directory
  fileSet := []
  disk := fun _ => .empty
  pagecache := pagecache

/-- `LocalFileSet::Create`: the file is opened with `O_CREAT | O_TRUNC`. -/
def create (fs : LocalFileSet) (fileName : String) (mode : Nat) : Nat × LocalFileSet :=
  let file := fs.fileSet.length + 1
  (file, { fs with
    fileSet := fs.fileSet ++ [⟨fs.directory ++ fileName, mode⟩]
    disk := Function.update fs.disk file .empty })

/-- `file_set_[file - 1]` is an element of the vector. -/
def HasFile (fs : LocalFileSet) (file : Nat) : Prop :=
  1 ≤ file ∧ file ≤ fs.fileSet.length

instance (fs : LocalFileSet) (file : Nat) : Decidable (fs.HasFile file) :=
  inferInstanceAs (Decidable (_ ∧ _))

/-- `pread` of a whole page into the frame of `ent`, which then has its data. -/
def loadPage (fs : LocalFileSet) (file page ent : Nat) (c : PageCache) : PageCache :=
  let bytes := (fs.disk file).pread pageSize (pageSize * page)
  PageCache.modify { c with data := blit c.data (c.entry ent).page bytes } ent fun e =>
    { e with wait := false }

/-- `LocalFileSet::ReadSync`. -/
def readSync (fs : LocalFileSet) (file size off : Nat) : Option (Slice × LocalFileSet) :=
  if fs.HasFile file then
    let page := off / pageSize
    match fs.pagecache.lookup (pageHash file page) with
    | none => none
    | some (some ent, c) =>
        some (cut c.data ((c.entry ent).page + off % pageSize) size, { fs with pagecache := c })
    | some (none, c) =>
        match c.newEntry (pageHash file page) with
        | none => none
        | some (ent, c) =>
            let c := fs.loadPage file page ent c
            some (cut c.data ((c.entry ent).page + off % pageSize) size, { fs with pagecache := c })
  else none

/-- `LocalFileSet::Read`: the request as it enters the worker's I/O queue. -/
def read (fs : LocalFileSet) (file size off : Nat) (aio : Aio) : Option (Aio × LocalFileSet) :=
  if fs.HasFile file then
    let page := off / pageSize
    let aio := aio.setReadSizeAndOff size (off % pageSize)
    match fs.pagecache.lookup (pageHash file page) with
    | none => none
    | some (some ent, c) =>
        some ({ aio with frame := (c.entry ent).page, submit := false }, { fs with pagecache := c })
    | some (none, c) =>
        match c.newEntry (pageHash file page) with
        | none => none
        | some (ent, c) =>
            let aio := { aio with
              opcode := .pread
              frame := (c.entry ent).page
              fildes := file
              nbytes := pageSize
              offset := pageSize * page
              submit := true }
            some (aio.addCallback (.cacheRead ent), { fs with pagecache := c })
  else none

/-- `LocalFileSet::Write`: the request as it enters the worker's I/O queue. -/
def write (fs : LocalFileSet) (file : Nat) (data : Slice) (off : Nat) (aio : Aio) :
    Option (Aio × LocalFileSet) :=
  if fs.HasFile file then
    let aio := { aio with
      opcode := .pwrite
      data := data
      fildes := file
      nbytes := data.length
      offset := off
      submit := true }
    match fs.pagecache.lookup (pageHash file (off / pageSize)) with
    | none => none
    | some (some ent, c) =>
        some (aio.addCallback (.cacheWrite ent data (off % pageSize)), { fs with pagecache := c })
    | some (none, c) => some (aio, { fs with pagecache := c })
  else none

end LocalFileSet

end KTableFS.Kvengine
