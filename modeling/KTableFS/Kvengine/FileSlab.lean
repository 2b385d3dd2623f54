/-
# Kvengine.FileSlab -- fixed-size slabs, and the items stored in them

`FileSlab` embeds `kvengine::FileSlab`: one `SingleFileSlab` per slab class, each
with a free list and a bump index over the files it has started.  An item is laid
out as three `uint16_t` words (a tag, the key's length, the value's length) and
the key and value bytes (`itemBytes`).

`create` throws (`none`) for an item no class holds; nothing on the worker's
thread catches it.  A class hands out `slabPerFile + 1` slabs of each file: the
bump index starts at `slabPerFile`, which is also the test for a full file.
-/
import KTableFS.Kvengine.LocalFileSet

namespace KTableFS.Kvengine

open KTableFS.Theory

set_option autoImplicit false

/-- `FileSlab::SingleFileSlab`. -/
structure SingleFileSlab where
  files : List Nat
  slabSize : Nat
  slabPerFile : Nat
  curFile : Nat
  curSlab : Nat
  freeSlab : List SlabT

structure FileSlab where
  fileSet : LocalFileSet
  slabs : List SingleFileSlab

/-- `SingleFileSlab(slab_per_file, slab_size)`. -/
def SingleFileSlab.new (slabPerFile slabSize : Nat) : SingleFileSlab where
  files := []
  slabSize := slabSize
  slabPerFile := slabPerFile
  curFile := 0
  curSlab := slabPerFile
  freeSlab := []

/-- The bump allocation of a class whose free list is empty. -/
def SingleFileSlab.bump (slab : SingleFileSlab) (fs : LocalFileSet) :
    SingleFileSlab × LocalFileSet :=
  if slab.curSlab = slab.slabPerFile then
    let created := fs.create
      ("/slab_" ++ toString slab.slabSize ++ "_" ++ toString slab.files.length) 0o644
    ({ slab with curFile := created.1, curSlab := 0, files := slab.files ++ [created.1] }, created.2)
  else ({ slab with curSlab := slab.curSlab + 1 }, fs)

/-- The slab at a class's bump index. -/
def SingleFileSlab.current (slab : SingleFileSlab) : SlabT :=
  SlabT.pack slab.slabSize slab.curFile slab.curSlab

/-! ## Items -/

/-- `FileSlab::VALID`. -/
def validTag : Nat := 1024

/-- `key->size() + value->size() + 3 * sizeof(uint16_t)`. -/
def itemSize (key value : Slice) : Nat := key.length + value.length + 6

/-- The buffer `FileSlab::Write` fills; the two lengths are `uint16_t`. -/
def itemBytes (key value : Slice) : Slice :=
  let keySize := key.length % 2 ^ 16
  let valueSize := value.length % 2 ^ 16
  storeLE 2 validTag ++ storeLE 2 keySize ++ storeLE 2 valueSize ++
    (key.take keySize ++ value.take valueSize)

/-- The `uint16_t` at `off`. -/
def word16 (bytes : Slice) (off : Nat) : Nat := loadLE ((bytes.drop off).take 2)

/-- The tag, the key and the value a slab's bytes decode to.  Where the lengths point behind
the bytes, the key and the value end with them. -/
def decodeItem (bytes : Slice) : Nat × Slice × Slice :=
  let keySize := word16 bytes 2
  let valueSize := word16 bytes 4
  (word16 bytes 0, (bytes.drop 6).take keySize, (bytes.drop (6 + keySize)).take valueSize)

namespace FileSlab

/-- `FileSlab::FileSlab(directory, slab_per_file, slab_size)`. -/
def new (fileSet : LocalFileSet) (slabPerFile : Nat) (slabSize : List Nat) : FileSlab where
  fileSet := fileSet
  slabs := slabSize.map (SingleFileSlab.new slabPerFile)

/-- The class loop of `FileSlab::Create`. -/
def createIn (size : Nat) : List SingleFileSlab → LocalFileSet →
    Option (SlabT × List SingleFileSlab × LocalFileSet)
  | [], _ => none
  | slab :: rest, fs =>
      if size ≤ slab.slabSize then
        match slab.freeSlab with
        | res :: free => some (res, { slab with freeSlab := free } :: rest, fs)
        | [] =>
            let bumped := slab.bump fs
            some (bumped.1.current, bumped.1 :: rest, bumped.2)
      else (createIn size rest fs).map fun out => (out.1, slab :: out.2.1, out.2.2)

/-- `FileSlab::Create`. -/
def create (fs : FileSlab) (key value : Slice) : Option (SlabT × FileSlab) :=
  (createIn (itemSize key value) fs.slabs fs.fileSet).map fun out =>
    (out.1, { fileSet := out.2.2, slabs := out.2.1 })

/-- `FileSlab::Read`. -/
def read (fs : FileSlab) (slab : SlabT) (aio : Aio) : Option (Aio × FileSlab) :=
  (fs.fileSet.read slab.file slab.size slab.off (aio.addCallback .fileSlabRead)).map fun out =>
    (out.1, { fs with fileSet := out.2 })

/-- `FileSlab::ReadSync`.  The two slices copy `key_size` and `value_size` bytes, also those that
lie behind the copy of the slab, whose values nothing determines; here they end with the copy.  An
item in its slab has none. -/
def readSync (fs : FileSlab) (slab : SlabT) : Option ((Slice × Slice) × FileSlab) :=
  (fs.fileSet.readSync slab.file slab.size slab.off).map fun out =>
    ((decodeItem out.1).2, { fs with fileSet := out.2 })

/-- `FileSlab::Write`. -/
def write (fs : FileSlab) (slab : SlabT) (key value : Slice) (aio : Aio) :
    Option (Aio × FileSlab) :=
  (fs.fileSet.write slab.file (itemBytes key value) slab.off aio).map fun out =>
    (out.1, { fs with fileSet := out.2 })

/-- The class loop of `FileSlab::Delete`: the slab goes to the back of the free
list of the first class of its size. -/
def freeIn (slab : SlabT) : List SingleFileSlab → Option (List SingleFileSlab)
  | [] => none
  | c :: rest =>
      if c.slabSize = slab.size then some ({ c with freeSlab := c.freeSlab ++ [slab] } :: rest)
      else (freeIn slab rest).map (c :: ·)

/-- `FileSlab::Delete`: the slab is free from now on, and a zero `size_t` is queued
over its tag and lengths. -/
def delete (fs : FileSlab) (slab : SlabT) (aio : Aio) : Option (Aio × FileSlab) :=
  match freeIn slab fs.slabs with
  | none => none
  | some slabs =>
      (fs.fileSet.write slab.file (storeLE 8 0) slab.off aio).map fun out =>
        (out.1, { fileSet := out.2, slabs := slabs })

end FileSlab

end KTableFS.Kvengine
