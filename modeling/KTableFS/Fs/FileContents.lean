/-
# Fs.FileContents -- files as byte arrays

`FileData.fileByte` puts the two parts of a file together again: its byte `i` is byte
`i` of its block, or byte `i - aggrBlockSize` of its large file.  A write is a `blit`
of this byte array (`fileByte_write`) and leaves the byte arrays of files with other
blocks and inode numbers alone (`fileByte_write_other`), so over any run the byte
array of a file is the zero-filled array updated by its writes (`Volume.Laid`).

What goes wrong is not the bytes but their number.  A hole at the end of a backing
file is not there, and `pread` stops before it; `FileData.Reaches` says that the
backing files are long enough for a range, and `reads_content_iff` that a read then,
and only then, returns the range.
-/
import KTableFS.Theory.Run
import KTableFS.Fs.FileData

namespace KTableFS.Fs

open KTableFS.Theory
open KTableFS.Kvengine (Slice)

set_option autoImplicit false

namespace FileData

/-! ## The byte array of a file -/

/-- The aggregation file of a block, empty if there is none. -/
def blockFile (d : FileData) (aggr : AggrT) : ByteFile := (d.aggrFile aggr).getD .empty

def blockByte (d : FileData) (aggr : AggrT) (i : Nat) : UInt8 :=
  (d.blockFile aggr).byte (aggr.no.toNat * d.aggrBlockSize + i)

def largeByte (d : FileData) (ino : Nat) (i : Nat) : UInt8 := (d.largeFile ino).byte i

def fileByte (d : FileData) (file : Extent) (i : Nat) : UInt8 :=
  if i < d.aggrBlockSize then d.blockByte file.aggr i
  else d.largeByte file.stIno (i - d.aggrBlockSize)

/-- The backing files reach the end of the range. -/
def Reaches (d : FileData) (file : Extent) (size off : Nat) : Prop :=
  if size + off ≤ d.aggrBlockSize then
    (d.aggrFile file.aggr).isSome ∧
      (size = 0 ∨ d.blockOff file (off + size) ≤ (d.blockFile file.aggr).size)
  else if d.aggrBlockSize ≤ off then
    size = 0 ∨ off + size ≤ d.aggrBlockSize + (d.largeFile file.stIno).size
  else
    (d.aggrFile file.aggr).isSome ∧
      d.blockOff file d.aggrBlockSize ≤ (d.blockFile file.aggr).size ∧
      off + size ≤ d.aggrBlockSize + (d.largeFile file.stIno).size

/-- A `pread` returns a full range exactly when the file reaches its end. -/
theorem pread_eq_iff {file : ByteFile} {memory : Memory} {size off from' : Nat}
    (same : ∀ i < size, file.byte (off + i) = memory (from' + i)) :
    file.pread size off = cut memory from' size ↔ size = 0 ∨ off + size ≤ file.size := by
  rw [← file.preadCount_eq_iff]
  constructor
  · intro equal
    rw [← ByteFile.length_pread, equal, length_cut]
  · intro full
    rw [ByteFile.pread, full]
    exact cut_congr same

/-- Reading a large file that is not there is reading an empty one. -/
theorem largeFile_of_none {d : FileData} {ino : Nat} (absent : d.largeFiles ino = none)
    (size off : Nat) : (d.largeFile ino).pread size off = [] := by
  simp [largeFile, absent, ByteFile.pread, ByteFile.preadCount, cut]

theorem largeFile_of_some {d : FileData} {ino : Nat} {large : ByteFile}
    (present : d.largeFiles ino = some large) : d.largeFile ino = large := by
  simp [largeFile, present]

theorem blockFile_of_some {d : FileData} {aggr : AggrT} {file : ByteFile}
    (present : d.aggrFile aggr = some file) : d.blockFile aggr = file := by
  simp [blockFile, present]

/-- The part of a range in the block, as a run of the aggregation file. -/
theorem fileByte_block {d : FileData} {file : Extent} {aggr : ByteFile}
    (present : d.aggrFile file.aggr = some aggr) {off size : Nat}
    (inside : size + off ≤ d.aggrBlockSize) :
    ∀ i < size, aggr.byte (d.blockOff file off + i) = d.fileByte file (off + i) := by
  intro i inRange
  rw [fileByte, if_pos (by omega), blockByte, blockFile_of_some present, blockOff, Nat.add_assoc]

/-- The part behind the block, as a run of the large file. -/
theorem fileByte_large (d : FileData) (file : Extent) {off : Nat} (behind : d.aggrBlockSize ≤ off)
    (size : Nat) : ∀ i < size,
      (d.largeFile file.stIno).byte (off - d.aggrBlockSize + i) = d.fileByte file (off + i) := by
  intro i _
  rw [fileByte, if_neg (by omega), largeByte, Nat.sub_add_comm behind]

theorem read_eq_iff_block {d : FileData} {file : Extent} {size off : Nat}
    (inside : size + off ≤ d.aggrBlockSize) :
    d.read file size off = some (cut (d.fileByte file) off size) ↔ d.Reaches file size off := by
  unfold read Reaches
  rw [if_pos inside, if_pos inside]
  cases present : d.aggrFile file.aggr with
  | none => simp
  | some aggr =>
      rw [Option.map_some, Option.some.injEq, pread_eq_iff (fileByte_block present inside),
        blockFile_of_some present]
      simp [blockOff, Nat.add_assoc]

theorem read_eq_iff_large {d : FileData} {file : Extent} {size off : Nat}
    (outside : ¬ size + off ≤ d.aggrBlockSize) (behind : d.aggrBlockSize ≤ off) :
    d.read file size off = some (cut (d.fileByte file) off size) ↔ d.Reaches file size off := by
  have whole : d.read file size off =
      some ((d.largeFile file.stIno).pread size (off - d.aggrBlockSize)) := by
    unfold read
    rw [if_neg outside, if_pos behind]
    cases present : d.largeFiles file.stIno with
    | none => rw [largeFile_of_none present]
    | some large => rw [largeFile_of_some present]
  rw [whole, Option.some.injEq, pread_eq_iff (d.fileByte_large file behind size), Reaches,
    if_neg outside, if_pos behind]
  constructor <;> intro reaches <;> omega

theorem read_eq_iff_both {d : FileData} {file : Extent} {size off : Nat}
    (outside : ¬ size + off ≤ d.aggrBlockSize) (before : ¬ d.aggrBlockSize ≤ off) :
    d.read file size off = some (cut (d.fileByte file) off size) ↔ d.Reaches file size off := by
  obtain ⟨first, split⟩ : ∃ first, d.aggrBlockSize = off + first := ⟨d.aggrBlockSize - off, by omega⟩
  obtain ⟨rest, total⟩ : ∃ rest, size = first + rest := ⟨size - first, by omega⟩
  have positive : 0 < first := by omega
  have range : cut (d.fileByte file) off size =
      cut (d.fileByte file) off first ++ cut (d.fileByte file) d.aggrBlockSize rest := by
    rw [total, cut_add, split]
  rw [Reaches, if_neg outside, if_neg before, range]
  cases present : d.aggrFile file.aggr with
  | none => simp [read, outside, before, present]
  | some aggr =>
      have whole : d.read file size off =
          some (aggr.pread first (d.blockOff file off) ++ (d.largeFile file.stIno).pread rest 0) := by
        unfold read
        rw [if_neg outside, if_neg before]
        simp only [present, show d.aggrBlockSize - off = first by omega, show size - first = rest by omega]
        cases found : d.largeFiles file.stIno with
        | none => simp only [largeFile_of_none found, List.append_nil]
        | some large => simp only [largeFile_of_some found]
      have block := pread_eq_iff (fileByte_block present (show first + off ≤ d.aggrBlockSize by omega))
      have large := pread_eq_iff (d.fileByte_large file le_rfl rest)
      rw [Nat.sub_self, Nat.zero_add] at large
      have blockEnd : d.blockOff file d.aggrBlockSize = d.blockOff file off + first := by
        rw [blockOff, blockOff, Nat.add_assoc, ← split]
      rw [whole, blockFile_of_some present, Option.some.injEq]
      constructor
      · intro equal
        -- neither part is longer than asked for, so both are full
        have lengths := congrArg List.length equal
        have short : aggr.preadCount first (d.blockOff file off) ≤ first := Nat.min_le_left ..
        have short' : (d.largeFile file.stIno).preadCount rest 0 ≤ rest := Nat.min_le_left ..
        simp only [List.length_append, ByteFile.length_pread, length_cut] at lengths
        obtain ⟨blockPart, largePart⟩ := List.append_inj equal (by
          rw [ByteFile.length_pread, length_cut]
          omega)
        rw [block] at blockPart
        rw [large] at largePart
        exact ⟨rfl, by omega, by omega⟩
      · rintro ⟨-, blockReaches, largeReaches⟩
        rw [block.mpr (Or.inr (by omega)), large.mpr (by omega)]

/-- **A read returns the range exactly when the backing files reach its end.** -/
theorem read_eq_iff (d : FileData) (file : Extent) (size off : Nat) :
    d.read file size off = some (cut (d.fileByte file) off size) ↔ d.Reaches file size off := by
  by_cases inside : size + off ≤ d.aggrBlockSize
  · exact read_eq_iff_block inside
  · by_cases behind : d.aggrBlockSize ≤ off
    · exact read_eq_iff_large inside behind
    · exact read_eq_iff_both inside behind

/-! ## Writes -/

/-- A write changes the contents of backing files only. -/
structure Rewritten (d d' : FileData) : Prop where
  aggrBlockSize : d'.aggrBlockSize = d.aggrBlockSize
  aggrFiles : d'.aggrFiles.length = d.aggrFiles.length
  curAggrFile : d'.curAggrFile = d.curAggrFile
  curAggrIndex : d'.curAggrIndex = d.curAggrIndex
  aggrFree : d'.aggrFree = d.aggrFree

theorem Rewritten.trans {d d' d'' : FileData} (first : Rewritten d d') (second : Rewritten d' d'') :
    Rewritten d d'' :=
  ⟨second.aggrBlockSize.trans first.aggrBlockSize, second.aggrFiles.trans first.aggrFiles,
    second.curAggrFile.trans first.curAggrFile, second.curAggrIndex.trans first.curAggrIndex,
    second.aggrFree.trans first.aggrFree⟩

theorem Rewritten.symm {d d' : FileData} (rewritten : Rewritten d d') : Rewritten d' d :=
  ⟨rewritten.aggrBlockSize.symm, rewritten.aggrFiles.symm, rewritten.curAggrFile.symm,
    rewritten.curAggrIndex.symm, rewritten.aggrFree.symm⟩

/-- Different blocks of one aggregation file have different numbers. -/
theorem no_ne_of_file_eq {a b : AggrT} (differ : a ≠ b) (sameFile : a.file = b.file) :
    a.no.toNat ≠ b.no.toNat := by
  intro sameNo
  have sameNo := UInt16.toNat_inj.mp sameNo
  cases a
  cases b
  simp_all

theorem index_ne_of_file_ne {a b : AggrT} (valid : a.file ≠ 0) (valid' : b.file ≠ 0)
    (differ : a.file ≠ b.file) : a.file.toNat - 1 ≠ b.file.toNat - 1 := by
  have differ := mt UInt16.toNat_inj.mp differ
  have nonzero : ∀ n : UInt16, n ≠ 0 → 0 < n.toNat := fun n ne =>
    Nat.pos_of_ne_zero fun zero => ne (UInt16.toNat_inj.mp zero)
  have := nonzero _ valid
  have := nonzero _ valid'
  omega

/-- Blocks of one aggregation file do not overlap. -/
theorem block_apart {size no no' i off len : Nat} (differ : no' ≠ no) (inside : i < size)
    (within : off + len ≤ size) :
    no' * size + i < no * size + off ∨ no * size + off + len ≤ no' * size + i := by
  rcases Nat.lt_or_gt_of_ne differ with lt | gt
  · have := Nat.mul_le_mul_right size (Nat.succ_le_of_lt lt)
    rw [Nat.succ_mul] at this
    omega
  · have := Nat.mul_le_mul_right size (Nat.succ_le_of_lt gt)
    rw [Nat.succ_mul] at this
    omega

theorem writeAggr_spec {d d' : FileData} {file : Extent} {data : Slice} {off : Nat}
    (inside : data.length + off ≤ d.aggrBlockSize) (wrote : d.writeAggr file data off = some d') :
    Rewritten d d' ∧ d'.largeFiles = d.largeFiles ∧ ∀ aggr, ∀ i < d.aggrBlockSize,
      d'.blockByte aggr i =
        if aggr = file.aggr then blit (d.blockByte aggr) off data i else d.blockByte aggr i := by
  simp only [writeAggr, Option.map_eq_some_iff] at wrote
  obtain ⟨old, present, rfl⟩ := wrote
  refine ⟨⟨rfl, by simp, rfl, rfl, rfl⟩, rfl, ?_⟩
  intro aggr i inBlock
  have located : file.aggr.file ≠ 0 ∧ d.aggrFiles[file.aggr.file.toNat - 1]? = some old := by
    unfold aggrFile at present
    split at present
    · cases present
    · exact ⟨‹_›, present⟩
  have bound := (List.getElem?_eq_some_iff.mp located.2).1
  let new := old.pwrite data (d.blockOff file off)
  let d' : FileData := { d with aggrFiles := d.aggrFiles.set (file.aggr.file.toNat - 1) new }
  change d'.blockByte aggr i = _
  by_cases sameFile : aggr.file = file.aggr.file
  · have before : d.blockFile aggr = old := by
      rw [blockFile, aggrFile, sameFile, if_neg located.1, located.2, Option.getD_some]
    have after : d'.blockFile aggr = new := by
      rw [blockFile, aggrFile, sameFile, if_neg located.1, List.getElem?_set_self bound,
        Option.getD_some]
    rw [blockByte, after, ByteFile.pwrite_byte, blockOff]
    by_cases same : aggr = file.aggr
    · rw [if_pos same, ← same]
      have shifted := blit_shift old.byte (aggr.no.toNat * d.aggrBlockSize) off i data
      rw [show (fun j => old.byte (aggr.no.toNat * d.aggrBlockSize + j)) = d.blockByte aggr by
        funext j
        rw [blockByte, before]] at shifted
      exact shifted
    · have differ := no_ne_of_file_eq same sameFile
      rw [if_neg same, blockByte, before]
      have apart := block_apart differ inBlock (show off + data.length ≤ d.aggrBlockSize by omega)
      exact blit_outside _ apart
  · have untouched : d'.blockFile aggr = d.blockFile aggr := by
      simp only [blockFile, aggrFile, d']
      split
      · rfl
      · rename_i valid
        rw [List.getElem?_set_ne (index_ne_of_file_ne valid located.1 sameFile).symm]
    have differ : aggr ≠ file.aggr := fun same => sameFile (congrArg AggrT.file same)
    rw [blockByte, untouched, if_neg differ]
    rfl

theorem writeLarge_spec (d : FileData) (file : Extent) (data : Slice) (off : Nat) :
    Rewritten d (d.writeLarge file data off) ∧ (d.writeLarge file data off).aggrFiles = d.aggrFiles ∧
      ∀ ino i, (d.writeLarge file data off).largeByte ino i =
        if ino = file.stIno then blit (d.largeByte ino) off data i else d.largeByte ino i := by
  refine ⟨⟨rfl, rfl, rfl, rfl, rfl⟩, rfl, ?_⟩
  intro ino i
  by_cases same : ino = file.stIno
  · subst same
    simp only [largeByte, largeFile, writeLarge, Function.update_self, Option.getD_some,
      ByteFile.pwrite_byte, if_true]
    rfl
  · simp only [largeByte, largeFile, writeLarge, Function.update_of_ne same, if_neg same]

/-- A write to the block is a write to the file. -/
theorem fileByte_writeAggr {d d' : FileData} {file : Extent} {data : Slice} {off : Nat}
    (inside : data.length + off ≤ d.aggrBlockSize) (wrote : d.writeAggr file data off = some d') :
    d'.fileByte file = blit (d.fileByte file) off data := by
  obtain ⟨rewritten, large, blocks⟩ := writeAggr_spec inside wrote
  funext i
  rw [fileByte, rewritten.aggrBlockSize]
  split
  · rename_i inBlock
    rw [blocks file.aggr i inBlock, if_pos rfl]
    apply blit_congr
    rw [fileByte, if_pos inBlock]
  · rename_i behind
    rw [blit_outside _ (Or.inr (by omega)), fileByte, if_neg behind]
    simp only [largeByte, largeFile, large]

/-- A write to the large file is a write behind the block. -/
theorem fileByte_writeLarge (d : FileData) (file : Extent) (data : Slice) (off : Nat) :
    (d.writeLarge file data off).fileByte file =
      blit (d.fileByte file) (d.aggrBlockSize + off) data := by
  obtain ⟨-, -, large⟩ := d.writeLarge_spec file data off
  funext i
  rw [fileByte, show (d.writeLarge file data off).aggrBlockSize = d.aggrBlockSize from rfl]
  split
  · rename_i inBlock
    rw [blit_outside _ (Or.inl (by omega)), fileByte, if_pos inBlock]
    rfl
  · rename_i behind
    obtain ⟨k, rfl⟩ := Nat.exists_eq_add_of_le (Nat.le_of_not_lt behind)
    have part : (fun j => d.fileByte file (d.aggrBlockSize + j)) = d.largeByte file.stIno := by
      funext j
      rw [fileByte, if_neg (by omega), Nat.add_sub_cancel_left]
    rw [large, if_pos rfl, blit_shift, part, Nat.add_sub_cancel_left]

/-- **What a write does** to its file, to the other blocks and to the other large files. -/
theorem write_spec {d d' : FileData} {file : Extent} {data : Slice} {off : Nat}
    (wrote : d.write file data off = some d') :
    Rewritten d d' ∧ d'.fileByte file = blit (d.fileByte file) off data ∧
      (∀ aggr, aggr ≠ file.aggr → ∀ i < d.aggrBlockSize, d'.blockByte aggr i = d.blockByte aggr i) ∧
      ∀ ino, ino ≠ file.stIno → d'.largeByte ino = d.largeByte ino := by
  unfold write at wrote
  split at wrote
  · rename_i inside
    obtain ⟨rewritten, large, blocks⟩ := writeAggr_spec inside wrote
    refine ⟨rewritten, fileByte_writeAggr inside wrote, ?_, ?_⟩
    · intro aggr differ i inBlock
      rw [blocks aggr i inBlock, if_neg differ]
    · intro ino _
      funext i
      simp only [largeByte, largeFile, large]
  · split at wrote
    · rename_i behind
      cases wrote
      obtain ⟨rewritten, blocks, large⟩ := d.writeLarge_spec file data (off - d.aggrBlockSize)
      refine ⟨rewritten, ?_, fun aggr _ i _ => ?_, ?_⟩
      · rw [fileByte_writeLarge, Nat.add_sub_cancel' behind]
      · simp only [blockByte, blockFile, aggrFile, blocks, rewritten.aggrBlockSize]
      · intro ino differ
        funext i
        rw [large, if_neg differ]
    · rename_i outside before
      simp only [Option.map_eq_some_iff] at wrote
      obtain ⟨mid, first, rfl⟩ := wrote
      have length : (data.take (d.aggrBlockSize - off)).length = d.aggrBlockSize - off := by
        rw [List.length_take]
        omega
      have inside : (data.take (d.aggrBlockSize - off)).length + off ≤ d.aggrBlockSize := by omega
      obtain ⟨rewritten, large, blocks⟩ := writeAggr_spec inside first
      obtain ⟨rewritten', blocks', large'⟩ :=
        mid.writeLarge_spec file (data.drop (d.aggrBlockSize - off)) 0
      refine ⟨rewritten.trans rewritten', ?_, ?_, ?_⟩
      · have joined := blit_append (d.fileByte file) off (data.take (d.aggrBlockSize - off))
          (data.drop (d.aggrBlockSize - off))
        rw [List.take_append_drop, length, Nat.add_sub_cancel' (by omega)] at joined
        rw [fileByte_writeLarge, fileByte_writeAggr inside first, rewritten.aggrBlockSize, Nat.add_zero,
          joined]
      · intro aggr differ i inBlock
        have same : (mid.writeLarge file (data.drop (d.aggrBlockSize - off)) 0).blockByte aggr i =
            mid.blockByte aggr i := by
          simp only [blockByte, blockFile, aggrFile, blocks', rewritten'.aggrBlockSize]
        rw [same, blocks aggr i inBlock, if_neg differ]
      · intro ino differ
        funext i
        rw [large', if_neg differ]
        simp only [largeByte, largeFile, large]

/-- What `Create` does: it hands out a block and may start an empty aggregation file. -/
theorem create_spec {d : FileData} (noneFree : d.aggrFree = [])
    (counted : d.aggrFiles.length = d.curAggrFile) :
    d.create.2.aggrBlockSize = d.aggrBlockSize ∧ d.create.2.largeFiles = d.largeFiles ∧
      d.create.2.aggrFree = [] ∧ d.create.2.aggrFiles.length = d.create.2.curAggrFile ∧
      (d.create.2.aggrFiles = d.aggrFiles ∨ d.create.2.aggrFiles = d.aggrFiles ++ [.empty]) := by
  unfold create
  rw [noneFree]
  by_cases full : d.curAggrIndex = 0x10000
  · simp [full, counted]
  · simp [full, counted]

theorem blockByte_create {d : FileData} (noneFree : d.aggrFree = [])
    (counted : d.aggrFiles.length = d.curAggrFile) (aggr : AggrT) (i : Nat) :
    d.create.2.blockByte aggr i = d.blockByte aggr i := by
  obtain ⟨size, -, -, -, files⟩ := create_spec noneFree counted
  have sameFile : ∀ j, (d.create.2.blockFile aggr).byte j = (d.blockFile aggr).byte j := by
    intro j
    rcases files with same | more
    · simp only [blockFile, aggrFile, same]
    · simp only [blockFile, aggrFile, more]
      split
      · rfl
      · rw [List.getElem?_append]
        split
        · rfl
        · rename_i past
          have old : d.aggrFiles[aggr.file.toNat - 1]? = none := List.getElem?_eq_none (by omega)
          rw [old]
          cases found : ([.empty] : List ByteFile)[aggr.file.toNat - 1 - d.aggrFiles.length]? with
          | none => rfl
          | some new =>
              have member := List.mem_of_getElem? found
              rw [List.mem_singleton.mp member]
              rfl
  rw [blockByte, blockByte, size, sameFile]

end FileData

/-! ## Runs -/

/-- The writes of a file, as a zero-filled byte array. -/
def contentOf (writes : List (Slice × Nat)) : Memory :=
  writes.foldl (fun content write => blit content write.2 write.1) fun _ => 0

/-- The largest `off + size` of the writes. -/
def lengthOf (writes : List (Slice × Nat)) : Nat :=
  writes.foldl (fun length write => max length (write.2 + write.1.length)) 0

theorem contentOf_append (writes : List (Slice × Nat)) (data : Slice) (off : Nat) :
    contentOf (writes ++ [(data, off)]) = blit (contentOf writes) off data := by
  simp [contentOf]

/-- The store with the files created in it, each with its writes so far. -/
structure Volume where
  data : FileData
  files : List (Extent × List (Slice × Nat))

inductive DataOp where
  /-- `Create` for a new file with this inode number. -/
  | create (stIno : Nat)
  /-- `Write` to the file at this position of the list of files. -/
  | write (k : Nat) (data : Slice) (off : Nat)

namespace Volume

def new (slabSize : Nat) : Volume := ⟨.new slabSize, []⟩

def next (v : Volume) : DataOp → Option (Volume × Unit)
  | .create stIno =>
      let created := v.data.create
      some (⟨created.2, v.files ++ [(⟨stIno, created.1⟩, [])]⟩, ())
  | .write k data off =>
      match v.files[k]? with
      | none => none
      | some (file, writes) =>
          (v.data.write file data off).map fun d =>
            (⟨d, v.files.set k (file, writes ++ [(data, off)])⟩, ())

/-- The files have distinct inode numbers and distinct blocks. -/
structure Distinct (v : Volume) : Prop where
  ino : (v.files.map fun entry => entry.1.stIno).Nodup
  aggr : (v.files.map fun entry => entry.1.aggr).Nodup

/-- The byte array of every file is that of its writes; nothing else is written. -/
structure Laid (v : Volume) : Prop where
  noneFree : v.data.aggrFree = []
  counted : v.data.aggrFiles.length = v.data.curAggrFile
  content : ∀ entry ∈ v.files, v.data.fileByte entry.1 = contentOf entry.2
  blocks : ∀ aggr ∉ v.files.map fun entry => entry.1.aggr,
    ∀ i < v.data.aggrBlockSize, v.data.blockByte aggr i = 0
  larges : ∀ ino ∉ v.files.map fun entry => entry.1.stIno, ∀ i, v.data.largeByte ino i = 0

theorem new_laid (slabSize : Nat) : (new slabSize).Laid :=
  ⟨rfl, rfl, by simp [new], fun aggr _ i _ => by
    simp [FileData.blockByte, FileData.blockFile, FileData.aggrFile, new, FileData.new],
    fun ino _ i => by simp [FileData.largeByte, FileData.largeFile, new, FileData.new]⟩

theorem Laid.create {v : Volume} (laid : v.Laid) {stIno : Nat} {v' : Volume} {u : Unit}
    (distinct : v'.Distinct) (taken : v.next (.create stIno) = some (v', u)) : v'.Laid := by
  simp only [next, Option.some.injEq, Prod.mk.injEq] at taken
  obtain ⟨rfl, -⟩ := taken
  obtain ⟨size, large, noneFree, counted, -⟩ := FileData.create_spec laid.noneFree laid.counted
  have sameBlock := FileData.blockByte_create laid.noneFree laid.counted
  have sameLarge : ∀ ino i, v.data.create.2.largeByte ino i = v.data.largeByte ino i := by
    intro ino i
    simp only [FileData.largeByte, FileData.largeFile, large]
  have sameFile : ∀ file, v.data.create.2.fileByte file = v.data.fileByte file := by
    intro file
    funext i
    simp only [FileData.fileByte, size, sameBlock, sameLarge]
  obtain ⟨inos, aggrs⟩ := distinct
  simp only [List.map_append, List.map_cons, List.map_nil] at inos aggrs
  refine ⟨noneFree, counted, ?_, ?_, ?_⟩
  · intro entry member
    rcases List.mem_append.mp member with old | new
    · rw [sameFile]
      exact laid.content entry old
    · rw [List.mem_singleton.mp new, sameFile]
      funext i
      rw [FileData.fileByte]
      split
      · rename_i inBlock
        refine laid.blocks _ (fun old => ?_) i inBlock
        exact (List.nodup_append.mp aggrs).2.2 _ old _ (List.mem_singleton_self _) rfl
      · refine laid.larges _ (fun old => ?_) _
        exact (List.nodup_append.mp inos).2.2 _ old _ (List.mem_singleton_self _) rfl
  · intro aggr unused i inBlock
    rw [sameBlock]
    refine laid.blocks aggr (fun old => unused ?_) i (size ▸ inBlock)
    rw [List.map_append]
    exact List.mem_append_left _ old
  · intro ino unused i
    rw [sameLarge]
    refine laid.larges ino (fun old => unused ?_) i
    rw [List.map_append]
    exact List.mem_append_left _ old

/-- One more write to a file leaves the files what they are. -/
theorem map_fst_set {files : List (Extent × List (Slice × Nat))} {k : Nat} {file : Extent}
    {writes : List (Slice × Nat)} (found : files[k]? = some (file, writes))
    (writes' : List (Slice × Nat)) :
    (files.set k (file, writes')).map Prod.fst = files.map Prod.fst := by
  have bound := (List.getElem?_eq_some_iff.mp found).1
  apply List.ext_getElem?
  intro j
  by_cases same : k = j
  · subst same
    rw [List.getElem?_map, List.getElem?_map, List.getElem?_set_self bound, found]
    rfl
  · rw [List.getElem?_map, List.getElem?_map, List.getElem?_set_ne same]

theorem Laid.write {v : Volume} (laid : v.Laid) (distinct : v.Distinct) {k : Nat} {data : Slice}
    {off : Nat} {v' : Volume} {u : Unit} (taken : v.next (.write k data off) = some (v', u)) :
    v'.Laid := by
  simp only [next] at taken
  split at taken
  · cases taken
  · rename_i file writes found
    simp only [Option.map_eq_some_iff, Prod.mk.injEq] at taken
    obtain ⟨d, wrote, rfl, -⟩ := taken
    obtain ⟨rewritten, own, blocks, larges⟩ := FileData.write_spec wrote
    have bound := (List.getElem?_eq_some_iff.mp found).1
    have extents := map_fst_set found (writes ++ [(data, off)])
    have aggrs := congrArg (List.map Extent.aggr) extents
    have inos := congrArg (List.map Extent.stIno) extents
    simp only [List.map_map, Function.comp_def] at aggrs inos
    refine ⟨rewritten.aggrFree.trans laid.noneFree,
      rewritten.aggrFiles.trans (laid.counted.trans rewritten.curAggrFile.symm), ?_, ?_, ?_⟩
    · intro entry member
      obtain ⟨j, at'⟩ := List.mem_iff_getElem?.mp member
      by_cases same : k = j
      · subst same
        rw [List.getElem?_set_self bound, Option.some.injEq] at at'
        subst at'
        rw [own, laid.content _ (List.mem_of_getElem? found), contentOf_append]
      · rw [List.getElem?_set_ne same] at at'
        -- another file has another block and another large file
        have aggr : entry.1.aggr ≠ file.aggr := by
          intro equal
          apply same
          apply (List.getElem?_inj (by simpa using bound) distinct.aggr).mp
          simp [found, at', equal]
        have ino : entry.1.stIno ≠ file.stIno := by
          intro equal
          apply same
          apply (List.getElem?_inj (by simpa using bound) distinct.ino).mp
          simp [found, at', equal]
        rw [← laid.content entry (List.mem_of_getElem? at')]
        funext i
        rw [FileData.fileByte, FileData.fileByte, rewritten.aggrBlockSize, larges _ ino]
        split
        · rw [blocks _ aggr i ‹_›]
        · rfl
    · intro aggr unused i inBlock
      rw [aggrs] at unused
      rw [rewritten.aggrBlockSize] at inBlock
      have differ : aggr ≠ file.aggr := by
        rintro rfl
        exact unused (List.mem_map.mpr ⟨_, List.mem_of_getElem? found, rfl⟩)
      rw [blocks aggr differ i inBlock]
      exact laid.blocks aggr unused i inBlock
    · intro ino unused i
      rw [inos] at unused
      have differ : ino ≠ file.stIno := by
        rintro rfl
        exact unused (List.mem_map.mpr ⟨_, List.mem_of_getElem? found, rfl⟩)
      rw [larges ino differ]
      exact laid.larges ino unused i

/-- Files stay distinct only if they were. -/
theorem Distinct.before {v v' : Volume} {op : DataOp} {u : Unit} (distinct : v'.Distinct)
    (taken : v.next op = some (v', u)) : v.Distinct := by
  obtain ⟨inos, aggrs⟩ := distinct
  cases op with
  | create stIno =>
      simp only [next, Option.some.injEq, Prod.mk.injEq] at taken
      obtain ⟨rfl, -⟩ := taken
      rw [List.map_append] at inos aggrs
      exact ⟨(List.nodup_append.mp inos).1, (List.nodup_append.mp aggrs).1⟩
  | write k data off =>
      simp only [next] at taken
      split at taken
      · cases taken
      · rename_i file writes found
        simp only [Option.map_eq_some_iff, Prod.mk.injEq] at taken
        obtain ⟨d, -, rfl, -⟩ := taken
        have extents := map_fst_set found (writes ++ [(data, off)])
        have sameAggrs := congrArg (List.map Extent.aggr) extents
        have sameInos := congrArg (List.map Extent.stIno) extents
        simp only [List.map_map, Function.comp_def] at sameAggrs sameInos
        exact ⟨sameInos ▸ inos, sameAggrs ▸ aggrs⟩

end Volume

/-- **File contents.**  In every run of `Create` and `Write` over distinct files, a
read returns its range of the file's byte array if and only if the backing files
reach its end. -/
theorem reads_content_iff (slabSize : Nat) {ops : List DataOp} {v : Volume} {outs : List Unit}
    (ran : Run.run Volume.next (.new slabSize) ops = some (v, outs)) (distinct : v.Distinct)
    {file : Extent} {writes : List (Slice × Nat)} (member : (file, writes) ∈ v.files)
    (size off : Nat) :
    v.data.read file size off = some (cut (contentOf writes) off size) ↔
      v.data.Reaches file size off := by
  have preserved : ∀ (v : Volume) (op : DataOp) (v' : Volume) (u : Unit),
      (v.Distinct → v.Laid) → True → v.next op = some (v', u) → v'.Distinct → v'.Laid := by
    intro v op v' u laid _ taken distinct
    have before := distinct.before taken
    cases op with
    | create stIno => exact (laid before).create distinct taken
    | write k data off => exact (laid before).write before taken
  have laid := Run.invariant preserved (fun _ => Volume.new_laid slabSize)
    (.of_forall fun _ _ => trivial) ran distinct
  rw [← laid.content _ member]
  exact v.data.read_eq_iff file size off

/-- Two files in neighbouring blocks; the first has a hole before its large part, and
the second one's block keeps the aggregation file long enough for it. -/
theorem reads_content_iff_example :
    ∃ v outs, Run.run Volume.next (.new 8)
        [.create 2, .create 3, .write 0 [1, 2] 8, .write 1 [5, 6, 7, 8, 9] 4] = some (v, outs) ∧
      (v.data.read ⟨2, 1, 0⟩ 4 6 = some (cut (contentOf [([1, 2], 8)]) 6 4) ↔
        v.data.Reaches ⟨2, 1, 0⟩ 4 6) := by
  have ends : (Run.run Volume.next (.new 8)
      [.create 2, .create 3, .write 0 [1, 2] 8, .write 1 [5, 6, 7, 8, 9] 4]).map
      (fun out => out.1.files) =
        some [(⟨2, 1, 0⟩, [([1, 2], 8)]), (⟨3, 1, 1⟩, [([5, 6, 7, 8, 9], 4)])] := by
    decide +kernel
  obtain ⟨⟨v, outs⟩, ran, files⟩ := Option.map_eq_some_iff.mp ends
  simp only at files
  have distinct : v.Distinct := by
    constructor
    · rw [files]
      decide
    · rw [files]
      decide
  exact ⟨v, outs, ran, reads_content_iff 8 ran distinct (by rw [files]; exact List.mem_cons_self ..) 4 6⟩

/-- One byte behind the block, and nothing in it: a read of the file's first byte
returns nothing. -/
theorem reads_fail_on_hole :
    ¬ ∀ (ops : List DataOp) (v : Volume) (outs : List Unit),
      Run.run Volume.next (.new 8192) ops = some (v, outs) → v.Distinct →
        ∀ entry ∈ v.files, ∀ size off, off + size ≤ lengthOf entry.2 →
          v.data.read entry.1 size off = some (cut (contentOf entry.2) off size) := by
  intro claim
  have ends : (Run.run Volume.next (.new 8192) [.create 2, .write 0 [1] 8192]).map
      (fun out => out.1.files) = some [(⟨2, 1, 0⟩, [([1], 8192)])] := by
    decide +kernel
  have reply : (Run.run Volume.next (.new 8192) [.create 2, .write 0 [1] 8192]).bind
      (fun out => out.1.data.read ⟨2, 1, 0⟩ 1 0) = some [] := by
    decide +kernel
  obtain ⟨⟨v, outs⟩, ran, files⟩ := Option.map_eq_some_iff.mp ends
  have read : v.data.read ⟨2, 1, 0⟩ 1 0 = some [] := by
    rw [ran] at reply
    exact reply
  simp only at files
  have distinct : v.Distinct := ⟨by rw [files]; decide, by rw [files]; decide⟩
  have full := claim _ v outs ran distinct (⟨2, 1, 0⟩, [([1], 8192)])
    (by rw [files]; exact List.mem_cons_self ..) 1 0 (by decide)
  rw [read, Option.some.injEq] at full
  have := congrArg List.length full
  simp at this

end KTableFS.Fs
