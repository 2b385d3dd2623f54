/-
# Fs.Tenants -- what one file can see of the others

Files have blocks of a shared aggregation file, one after the other where blocks are
recycled.  `FileData::Delete` removes the large file and leaves the block as it is, and how
much `pread` returns from a block depends on how far the aggregation file reaches.

A sequence of calls with the writes to all files but one left out is what the file is
entitled to depend on.

* `secluded_iff`: a read of a file returns the same in all sequences that differ only in
  the writes to the others if and only if, for every byte of the range in the file's
  block, no other file has held the block since the file wrote the byte, and the file
  has written up to it or no other file has a block behind.
-/
import KTableFS.Theory.Run
import KTableFS.Fs.FileContents

namespace KTableFS.Fs

open KTableFS.Theory
open KTableFS.Kvengine (Slice)

set_option autoImplicit false

/-! ## Calls -/

inductive DataCall where
  /-- `Create` for a new file with this inode number. -/
  | create (stIno : Nat)
  /-- `Write` to a file, by its position in the order of creation. -/
  | write (k : Nat) (data : Slice) (off : Nat)
  | delete (k : Nat)
  | read (k size off : Nat)

/-- The files created, in order, and those that have been deleted. -/
structure Tenants where
  data : FileData
  files : List Extent
  gone : List Nat

namespace Tenants

def new (slabSize : Nat) : Tenants := ⟨.new slabSize, [], []⟩

/-- A file that has not been deleted. -/
def tenant (s : Tenants) (k : Nat) : Option Extent := if k ∈ s.gone then none else s.files[k]?

/-- One call, with the bytes of a `Read`.  Inode numbers are not used twice. -/
def next (s : Tenants) : DataCall → Option (Tenants × Slice)
  | .create stIno =>
      if stIno ∈ s.files.map Extent.stIno then none
      else
        let created := s.data.create
        some (⟨created.2, s.files ++ [⟨stIno, created.1⟩], s.gone⟩, [])
  | .write k data off =>
      (s.tenant k).bind fun file => (s.data.write file data off).map fun d => ({ s with data := d }, [])
  | .delete k => (s.tenant k).map fun file => (⟨s.data.delete file, s.files, s.gone ++ [k]⟩, [])
  | .read k size off =>
      (s.tenant k).bind fun file => (s.data.read file size off).map fun bytes => (s, bytes)

end Tenants

/-- The writes of file `f`. -/
def DataCall.wroteBy (f : Nat) : DataCall → Option (Slice × Nat)
  | .write k data off => if k = f then some (data, off) else none
  | _ => none

def ownWrites (f : Nat) (calls : List DataCall) : List (Slice × Nat) := calls.filterMap (DataCall.wroteBy f)

/-- All but the writes to other files. -/
def DataCall.shown (f : Nat) : DataCall → Bool
  | .write k _ _ => k = f
  | _ => true

/-- How far writes reach into a block. -/
def blockEnd (blockSize : Nat) (writes : List (Slice × Nat)) : Nat :=
  writes.foldl (fun reach write =>
    if write.1 ≠ [] ∧ write.2 < blockSize then max reach (min blockSize (write.2 + write.1.length))
    else reach) 0

/-- A write stores the byte at offset `i`. -/
def Covers (write : Slice × Nat) (i : Nat) : Prop := write.2 ≤ i ∧ i < write.2 + write.1.length

namespace Tenants

/-- Since file `f` last wrote byte `i`, or at all if it never did, another file has held
the block. -/
def Exposed (slabSize f : Nat) (aggr : AggrT) (calls : List DataCall) (i : Nat) : Prop :=
  ∃ before after s outs k other, calls = before ++ after ∧
    Run.run next (.new slabSize) before = some (s, outs) ∧ k ≠ f ∧ s.tenant k = some other ∧
      other.aggr = aggr ∧ ∀ write ∈ ownWrites f after, ¬ Covers write i

/-- Another file was given a block behind this one. -/
def Behind (s : Tenants) (f : Nat) (aggr : AggrT) : Prop :=
  ∃ k other, s.files[k]? = some other ∧ k ≠ f ∧ other.aggr.file = aggr.file ∧ aggr.no < other.aggr.no

/-- What a read asks for in the block of its file is the file's own. -/
def Secluded (slabSize f : Nat) (file : Extent) (calls : List DataCall) (s : Tenants) (size off : Nat) : Prop :=
  file.aggr.file ≠ 0 → ∀ i, off ≤ i → i < off + size → i < slabSize →
    ¬ Exposed slabSize f file.aggr calls i ∧
      (i < blockEnd slabSize (ownWrites f calls) ∨ ¬ s.Behind f file.aggr)

end Tenants

/-! ## What the calls do to the backing files -/

namespace FileData

theorem blockFile_set {d : FileData} {file : Extent} {old : ByteFile} (present : d.aggrFile file.aggr = some old)
    (new : ByteFile) (aggr : AggrT) :
    ({ d with aggrFiles := d.aggrFiles.set (file.aggr.file.toNat - 1) new } : FileData).blockFile aggr =
      if aggr.file = file.aggr.file then new else d.blockFile aggr := by
  have located : file.aggr.file ≠ 0 ∧ d.aggrFiles[file.aggr.file.toNat - 1]? = some old := by
    unfold aggrFile at present
    split at present
    · cases present
    · exact ⟨‹_›, present⟩
  have bound := (List.getElem?_eq_some_iff.mp located.2).1
  by_cases sameFile : aggr.file = file.aggr.file
  · rw [if_pos sameFile, blockFile, aggrFile, sameFile, if_neg located.1, List.getElem?_set_self bound,
      Option.getD_some]
  · rw [if_neg sameFile, blockFile, blockFile, aggrFile, aggrFile]
    split
    · rfl
    · next valid => rw [List.getElem?_set_ne (index_ne_of_file_ne valid located.1 sameFile).symm]

/-- **A write**, by its parts: in the aggregation file, and in the large file. -/
theorem write_parts {d d' : FileData} {file : Extent} {data : Slice} {off : Nat}
    (wrote : d.write file data off = some d') :
    (∀ aggr, d'.blockFile aggr = if aggr.file = file.aggr.file then
        (d.blockFile aggr).pwrite (data.take (d.aggrBlockSize - off)) (d.blockOff file off)
      else d.blockFile aggr) ∧
      d'.largeFiles = if data.length + off ≤ d.aggrBlockSize then d.largeFiles
        else Function.update d.largeFiles file.stIno (some ((d.largeFile file.stIno).pwrite
          (data.drop (d.aggrBlockSize - off)) (off - d.aggrBlockSize))) := by
  -- the part in the block
  have inBlock : ∀ {part : Slice} {mid : FileData}, d.writeAggr file part off = some mid → ∀ aggr,
      mid.blockFile aggr = if aggr.file = file.aggr.file then (d.blockFile aggr).pwrite part (d.blockOff file off)
        else d.blockFile aggr := by
    intro part mid written aggr
    obtain ⟨old, present, rfl⟩ := Option.map_eq_some_iff.mp written
    rw [blockFile_set present]
    split
    · next sameFile =>
        have isOld : d.blockFile aggr = old := by
          rw [← blockFile_of_some present, blockFile, blockFile, aggrFile, aggrFile, sameFile]
        rw [isOld]
    · rfl
  unfold write at wrote
  split at wrote
  · next inside =>
      obtain ⟨-, large, -⟩ := writeAggr_spec inside wrote
      rw [if_pos inside, List.take_of_length_le (by omega)]
      exact ⟨inBlock wrote, large⟩
  · next outside =>
      rw [if_neg outside]
      split at wrote
      · next behind =>
          cases wrote
          have nothing : d.aggrBlockSize - off = 0 := by omega
          rw [nothing, List.take_zero, List.drop_zero]
          refine ⟨fun aggr => ?_, rfl⟩
          rw [ByteFile.pwrite_nil, ite_self]
          rfl
      · next before =>
          obtain ⟨mid, first, rfl⟩ := Option.map_eq_some_iff.mp wrote
          have kept : mid.largeFiles = d.largeFiles := by
            obtain ⟨old, present, rfl⟩ := Option.map_eq_some_iff.mp first
            rfl
          refine ⟨fun aggr => inBlock first aggr, ?_⟩
          rw [writeLarge, largeFile, kept, show off - d.aggrBlockSize = 0 by omega]
          rfl

/-- The file a write or a read finds in `aggr_files_` is one of an index. -/
theorem write_isSome (d : FileData) (file : Extent) (data : Slice) (off : Nat) :
    (d.write file data off).isSome ↔
      (d.aggrBlockSize ≤ off ∧ d.aggrBlockSize < data.length + off) ∨ (d.aggrFile file.aggr).isSome := by
  unfold write writeAggr
  split
  · next inside =>
      rw [Option.isSome_map]
      exact ⟨Or.inr, fun either => either.resolve_left (by omega)⟩
  · next outside =>
      split
      · next behind => exact iff_of_true rfl (Or.inl ⟨behind, by omega⟩)
      · next before =>
          rw [Option.isSome_map, Option.isSome_map]
          exact ⟨Or.inr, fun either => either.resolve_left (by omega)⟩

/-- What a read gets from the large file. -/
def largePart (d : FileData) (file : Extent) (size off : Nat) : Slice :=
  if size + off ≤ d.aggrBlockSize then []
  else ((d.largeFiles file.stIno).map fun large =>
    large.pread (size - (d.aggrBlockSize - off)) (off - d.aggrBlockSize)).getD []

/-- **A read**, by its parts. -/
theorem read_parts (d : FileData) (file : Extent) (size off : Nat) :
    d.read file size off =
      if (d.aggrBlockSize ≤ off ∧ d.aggrBlockSize < size + off) ∨ (d.aggrFile file.aggr).isSome then
        some ((d.blockFile file.aggr).pread (min size (d.aggrBlockSize - off)) (d.blockOff file off) ++
          d.largePart file size off)
      else none := by
  have nothing : ∀ (aggr : ByteFile) (pos : Nat), aggr.pread 0 pos = [] := by
    intro aggr pos
    simp [ByteFile.pread, ByteFile.preadCount, cut]
  unfold read largePart
  by_cases inside : size + off ≤ d.aggrBlockSize
  · simp only [if_pos inside, List.append_nil, show min size (d.aggrBlockSize - off) = size by omega,
      Nat.not_lt_of_le inside, and_false, false_or]
    cases present : d.aggrFile file.aggr with
    | none => rfl
    | some aggr => simp [blockFile_of_some present]
  · rw [if_neg inside, if_neg inside]
    by_cases behind : d.aggrBlockSize ≤ off
    · rw [if_pos behind, if_pos (Or.inl ⟨behind, by omega⟩), show d.aggrBlockSize - off = 0 by omega,
        Nat.min_zero, nothing, List.nil_append, Nat.sub_zero]
      cases d.largeFiles file.stIno with
      | none => rfl
      | some large => rfl
    · rw [if_neg behind, show min size (d.aggrBlockSize - off) = d.aggrBlockSize - off by omega,
        show off - d.aggrBlockSize = 0 by omega]
      cases present : d.aggrFile file.aggr with
      | none => simp [behind]
      | some aggr =>
          simp only [Option.isSome_some, or_true, if_true, blockFile_of_some present]
          cases d.largeFiles file.stIno with
          | none => simp
          | some large => rfl

/-- `Create` changes no contents. -/
theorem blockFile_create (d : FileData) (aggr : AggrT) : d.create.2.blockFile aggr = d.blockFile aggr := by
  unfold create
  split
  · rfl
  · simp only
    split
    · unfold blockFile aggrFile
      simp only
      split
      · rfl
      · rw [List.getElem?_append]
        split
        · rfl
        · next past =>
            rw [List.getElem?_eq_none (Nat.le_of_not_lt past)]
            cases aggr.file.toNat - 1 - d.aggrFiles.length with
            | zero => rfl
            | succ n => rfl
    · rfl

theorem largeFiles_create (d : FileData) : d.create.2.largeFiles = d.largeFiles := by
  unfold create
  split
  · rfl
  · simp only
    split
    · rfl
    · rfl

theorem aggrBlockSize_create (d : FileData) : d.create.2.aggrBlockSize = d.aggrBlockSize := by
  unfold create
  split
  · rfl
  · simp only
    split
    · rfl
    · rfl

/-- The block `Create` hands out does not depend on contents. -/
theorem Rewritten.create {d d' : FileData} (rewritten : Rewritten d d') :
    d'.create.1 = d.create.1 ∧ Rewritten d.create.2 d'.create.2 := by
  obtain ⟨blockSize, files, curFile, curIndex, free⟩ := rewritten
  unfold FileData.create
  rw [free]
  cases noneFree : d.aggrFree with
  | cons res rest => exact ⟨rfl, blockSize, files, curFile, curIndex, rfl⟩
  | nil =>
      by_cases full : d.curAggrIndex = 0x10000
      · simp only [curIndex, if_pos full]
        exact ⟨by rw [curFile], blockSize, by simp [files], by simp [curFile], rfl, rfl⟩
      · simp only [curIndex, if_neg full]
        exact ⟨by rw [curFile], blockSize, files, curFile, rfl, rfl⟩

theorem Rewritten.aggrFile {d d' : FileData} (rewritten : Rewritten d d') (aggr : AggrT) :
    (d'.aggrFile aggr).isSome = (d.aggrFile aggr).isSome := by
  unfold FileData.aggrFile
  split
  · rfl
  · rw [Bool.eq_iff_iff, isSome_getElem?, isSome_getElem?, rewritten.aggrFiles]

/-- Reads of two states with one large file differ in what they get from the block. -/
theorem read_eq_read_iff {d d' : FileData} (rewritten : Rewritten d d') {file : Extent}
    (large : d'.largeFiles file.stIno = d.largeFiles file.stIno) (size off : Nat) :
    d'.read file size off = d.read file size off ↔ ((d.aggrFile file.aggr).isSome →
      (d'.blockFile file.aggr).pread (min size (d.aggrBlockSize - off)) (d.blockOff file off) =
        (d.blockFile file.aggr).pread (min size (d.aggrBlockSize - off)) (d.blockOff file off)) := by
  have parts : d'.largePart file size off = d.largePart file size off := by
    rw [largePart, largePart, large, rewritten.aggrBlockSize]
  rw [read_parts, read_parts, parts, rewritten.aggrFile, rewritten.aggrBlockSize]
  have place : d'.blockOff file off = d.blockOff file off := by
    rw [blockOff, blockOff, rewritten.aggrBlockSize]
  rw [place]
  by_cases valid : (d.aggrFile file.aggr).isSome
  · rw [if_pos (Or.inr valid), if_pos (Or.inr valid), Option.some.injEq, List.append_cancel_right_eq]
    simp [valid]
  · simp only [valid, Bool.false_eq_true, false_implies, iff_true, or_false]
    split
    · next behind =>
        rw [show d.aggrBlockSize - off = 0 by omega, Nat.min_zero]
        simp [ByteFile.pread, ByteFile.preadCount, cut]
    · rfl

end FileData

/-! ## Histories -/

theorem ownWrites_append (f : Nat) (calls calls' : List DataCall) :
    ownWrites f (calls ++ calls') = ownWrites f calls ++ ownWrites f calls' := List.filterMap_append ..

theorem ownWrites_quiet {f : Nat} (calls : List DataCall) {c : DataCall} (quiet : c.wroteBy f = none) :
    ownWrites f (calls ++ [c]) = ownWrites f calls := by
  rw [ownWrites_append, ownWrites, ownWrites, List.filterMap_cons_none quiet, List.filterMap_nil,
    List.append_nil]

theorem ownWrites_write (f : Nat) (calls : List DataCall) (data : Slice) (off : Nat) :
    ownWrites f (calls ++ [.write f data off]) = ownWrites f calls ++ [(data, off)] := by
  rw [ownWrites_append]
  simp [ownWrites, DataCall.wroteBy]

theorem ownWrites_other {f k : Nat} (other : k ≠ f) (calls : List DataCall) (data : Slice) (off : Nat) :
    ownWrites f (calls ++ [.write k data off]) = ownWrites f calls :=
  ownWrites_quiet calls (by rw [DataCall.wroteBy, if_neg other])

/-- The writes to other files do not show in those of the file. -/
theorem ownWrites_shown (f : Nat) (calls : List DataCall) :
    ownWrites f (calls.filter (DataCall.shown f)) = ownWrites f calls := by
  induction calls with
  | nil => rfl
  | cons c calls ih =>
      unfold ownWrites at ih ⊢
      cases c with
      | write k data off =>
          by_cases own : k = f
          · rw [List.filter_cons_of_pos (by simp [DataCall.shown, own])]
            simp only [List.filterMap_cons, DataCall.wroteBy, if_pos own, ih]
          · rw [List.filter_cons_of_neg (by simp [DataCall.shown, own])]
            simp only [List.filterMap_cons, DataCall.wroteBy, if_neg own, ih]
      | create stIno =>
          rw [List.filter_cons_of_pos rfl]
          simpa only [List.filterMap_cons, DataCall.wroteBy] using ih
      | delete k =>
          rw [List.filter_cons_of_pos rfl]
          simpa only [List.filterMap_cons, DataCall.wroteBy] using ih
      | read k size off =>
          rw [List.filter_cons_of_pos rfl]
          simpa only [List.filterMap_cons, DataCall.wroteBy] using ih

/-- Another file has no write left. -/
theorem ownWrites_hidden {f k : Nat} (other : k ≠ f) (calls : List DataCall) :
    ownWrites k (calls.filter (DataCall.shown f)) = [] := by
  rw [ownWrites, List.filterMap_eq_nil_iff]
  intro c member
  have shown := (List.mem_filter.mp member).2
  cases c with
  | write j data off =>
      have own : j = f := by simpa [DataCall.shown] using shown
      rw [DataCall.wroteBy, if_neg fun same => other (same.symm.trans own)]
  | create stIno => rfl
  | delete j => rfl
  | read j size off => rfl

theorem blockEnd_append (blockSize : Nat) (writes : List (Slice × Nat)) (data : Slice) (off : Nat) :
    blockEnd blockSize (writes ++ [(data, off)]) =
      if data ≠ [] ∧ off < blockSize then
        max (blockEnd blockSize writes) (min blockSize (off + data.length))
      else blockEnd blockSize writes := by
  simp only [blockEnd, List.foldl_append, List.foldl_cons, List.foldl_nil]

theorem blockEnd_le (blockSize : Nat) (writes : List (Slice × Nat)) : blockEnd blockSize writes ≤ blockSize := by
  induction writes using List.reverseRecOn with
  | nil => exact Nat.zero_le _
  | append_singleton writes write ih =>
      rw [blockEnd_append]
      split
      · omega
      · exact ih

/-- A byte of the block that a write covers is reached. -/
theorem lt_blockEnd_of_covers {blockSize i : Nat} (inBlock : i < blockSize) {writes : List (Slice × Nat)} :
    (∃ write ∈ writes, Covers write i) → i < blockEnd blockSize writes := by
  induction writes using List.reverseRecOn with
  | nil => simp
  | append_singleton writes write ih =>
      rintro ⟨covering, member, covers⟩
      rw [blockEnd_append]
      rcases List.mem_append.mp member with old | new
      · have before := ih ⟨covering, old, covers⟩
        split
        · omega
        · exact before
      · rw [List.mem_singleton.mp new] at covers
        unfold Covers at covers
        have some' : write.1 ≠ [] := by
          intro nothing
          rw [nothing] at covers
          simp only [List.length_nil] at covers
          omega
        rw [if_pos ⟨some', by omega⟩]
        omega

namespace Tenants

variable {slabSize : Nat}

/-- A run of calls from an empty directory. -/
def Ran (slabSize : Nat) (calls : List DataCall) (s : Tenants) : Prop :=
  ∃ outs, Run.run next (.new slabSize) calls = some (s, outs)

theorem Ran.snoc {calls : List DataCall} {s s' : Tenants} {c : DataCall} {bytes : Slice} (ran : Ran slabSize calls s)
    (taken : s.next c = some (s', bytes)) : Ran slabSize (calls ++ [c]) s' := by
  obtain ⟨outs, ran⟩ := ran
  exact ⟨_, Run.run_append_eq_some.mpr ⟨s, outs, [bytes], ran, Run.run_cons_eq_some.mpr
    ⟨s', bytes, [], taken, rfl, rfl⟩, rfl⟩⟩

theorem Ran.unique {calls : List DataCall} {s s' : Tenants} (ran : Ran slabSize calls s)
    (ran' : Ran slabSize calls s') : s = s' := by
  obtain ⟨outs, ran⟩ := ran
  obtain ⟨outs', ran'⟩ := ran'
  rw [ran, Option.some.injEq, Prod.mk.injEq] at ran'
  exact ran'.1

/-- Exposed bytes stay so until the file writes them. -/
theorem Exposed.snoc {f i : Nat} {aggr : AggrT} {calls : List DataCall} {c : DataCall}
    (exposed : Exposed slabSize f aggr calls i) (uncovered : ∀ write ∈ c.wroteBy f, ¬ Covers write i) :
    Exposed slabSize f aggr (calls ++ [c]) i := by
  obtain ⟨before, after, s, outs, k, other, rfl, ran, differ, lives, same, unwritten⟩ := exposed
  refine ⟨before, after ++ [c], s, outs, k, other, List.append_assoc .., ran, differ, lives, same, ?_⟩
  intro write member
  rw [ownWrites_append] at member
  rcases List.mem_append.mp member with old | new
  · exact unwritten write old
  · apply uncovered
    simpa [ownWrites] using new

/-- Another file that holds the block exposes it. -/
theorem Exposed.here {f k : Nat} {calls : List DataCall} {s : Tenants} {other : Extent} (ran : Ran slabSize calls s)
    (differ : k ≠ f) (lives : s.tenant k = some other) (i : Nat) : Exposed slabSize f other.aggr calls i := by
  obtain ⟨outs, ran⟩ := ran
  exact ⟨calls, [], s, outs, k, other, (List.append_nil _).symm, ran, differ, lives, rfl, by simp [ownWrites]⟩

theorem tenant_eq_some {s : Tenants} {k : Nat} {file : Extent} :
    s.tenant k = some file ↔ k ∉ s.gone ∧ s.files[k]? = some file := by
  unfold tenant
  split
  · next gone => simp [gone]
  · next here => simp [here]

/-- What the calls so far say about the backing files. -/
structure Told (slabSize : Nat) (calls : List DataCall) (s : Tenants) : Prop where
  blockSize : s.data.aggrBlockSize = slabSize
  counted : s.data.aggrFiles.length = s.data.curAggrFile
  placed : ∀ file ∈ s.files, file.aggr.file.toNat ≤ s.data.curAggrFile
  free : ∀ aggr ∈ s.data.aggrFree, aggr.file.toNat ≤ s.data.curAggrFile
  gone : ∀ k ∈ s.gone, k < s.files.length
  born : ∀ (k : Nat) (file : Extent), s.files[k]? = some file → ∃ before after mid,
    calls = before ++ after ∧ Ran slabSize before mid ∧ mid.tenant k = some file
  unwritten : ∀ k, s.files.length ≤ k → ownWrites k calls = []
  own : ∀ (k : Nat) (file : Extent), s.files[k]? = some file → ∀ i < slabSize,
    ¬ Exposed slabSize k file.aggr calls i → s.data.blockByte file.aggr i = contentOf (ownWrites k calls) i
  reached : ∀ (k : Nat) (file : Extent), s.files[k]? = some file →
    0 < blockEnd slabSize (ownWrites k calls) →
      file.aggr.no.toNat * slabSize + blockEnd slabSize (ownWrites k calls) ≤ (s.data.blockFile file.aggr).size
  bounded : ∀ aggr, 0 < (s.data.blockFile aggr).size → ∃ (k : Nat) (file : Extent), s.files[k]? = some file ∧
    file.aggr.file = aggr.file ∧ 0 < blockEnd slabSize (ownWrites k calls) ∧
      (s.data.blockFile aggr).size ≤ file.aggr.no.toNat * slabSize + blockEnd slabSize (ownWrites k calls)
  fresh : ∀ aggr ∉ s.files.map Extent.aggr, ∀ i < slabSize, s.data.blockByte aggr i = 0

theorem Told.new (slabSize : Nat) : Told slabSize [] (new slabSize) where
  blockSize := rfl
  counted := rfl
  placed := by simp [Tenants.new]
  free := by simp [Tenants.new, FileData.new]
  gone := by simp [Tenants.new]
  born := by simp [Tenants.new]
  unwritten := fun _ _ => rfl
  own := by simp [Tenants.new]
  reached := by simp [Tenants.new]
  bounded := by simp [Tenants.new, FileData.blockFile, FileData.aggrFile, FileData.new]
  fresh := by simp [Tenants.new, FileData.blockByte, FileData.blockFile, FileData.aggrFile, FileData.new]

variable {calls : List DataCall} {s s' : Tenants} {bytes : Slice}

theorem Told.born_snoc (told : Told slabSize calls s) (c : DataCall) {k : Nat} {file : Extent}
    (found : s.files[k]? = some file) : ∃ before after mid, calls ++ [c] = before ++ after ∧
      Ran slabSize before mid ∧ mid.tenant k = some file := by
  obtain ⟨before, after, mid, rfl, ran, lives⟩ := told.born k file found
  exact ⟨before, after ++ [c], mid, List.append_assoc .., ran, lives⟩

/-- A call that writes nothing and creates nothing. -/
theorem Told.quiet (told : Told slabSize calls s) {c : DataCall} (silent : ∀ f, c.wroteBy f = none)
    (files : s'.files = s.files) (gone : ∀ k ∈ s'.gone, k < s.files.length)
    (blockSize : s'.data.aggrBlockSize = s.data.aggrBlockSize) (aggrFiles : s'.data.aggrFiles = s.data.aggrFiles)
    (curFile : s'.data.curAggrFile = s.data.curAggrFile)
    (free : ∀ aggr ∈ s'.data.aggrFree, aggr.file.toNat ≤ s.data.curAggrFile) :
    Told slabSize (calls ++ [c]) s' := by
  have contents : ∀ aggr, s'.data.blockFile aggr = s.data.blockFile aggr := by
    intro aggr
    rw [FileData.blockFile, FileData.blockFile, FileData.aggrFile, FileData.aggrFile, aggrFiles]
  have blocks : ∀ aggr i, s'.data.blockByte aggr i = s.data.blockByte aggr i := by
    intro aggr i
    rw [FileData.blockByte, FileData.blockByte, contents, blockSize]
  have writes : ∀ k, ownWrites k (calls ++ [c]) = ownWrites k calls := fun k =>
    ownWrites_quiet calls (silent k)
  refine ⟨blockSize.trans told.blockSize, ?_, ?_, ?_, ?_, ?_, ?_, ?_, ?_, ?_, ?_⟩
  · rw [aggrFiles, curFile, told.counted]
  · rw [files, curFile]
    exact told.placed
  · rw [curFile]
    exact free
  · rw [files]
    exact gone
  · intro k file found
    rw [files] at found
    exact told.born_snoc c found
  · intro k past
    rw [files] at past
    rw [writes, told.unwritten k past]
  · intro k file found i inBlock hidden
    rw [files] at found
    rw [blocks, writes]
    exact told.own k file found i inBlock fun exposed => hidden (exposed.snoc (by simp [silent k]))
  · intro k file found
    rw [files] at found
    rw [writes, contents]
    exact told.reached k file found
  · intro aggr
    simp only [contents, writes, files]
    exact told.bounded aggr
  · intro aggr
    simp only [files, blocks]
    exact told.fresh aggr

theorem create_placed {d : FileData} (counted : d.aggrFiles.length = d.curAggrFile)
    (free : ∀ aggr ∈ d.aggrFree, aggr.file.toNat ≤ d.curAggrFile) :
    d.create.2.aggrFiles.length = d.create.2.curAggrFile ∧ d.curAggrFile ≤ d.create.2.curAggrFile ∧
      d.create.1.file.toNat ≤ d.create.2.curAggrFile ∧
        ∀ aggr ∈ d.create.2.aggrFree, aggr.file.toNat ≤ d.create.2.curAggrFile := by
  have small : ∀ n, (UInt16.ofNat n).toNat ≤ n := by
    intro n
    rw [UInt16.toNat_ofNat']
    exact Nat.mod_le ..
  unfold FileData.create
  cases isFree : d.aggrFree with
  | cons res rest =>
      rw [isFree] at free
      exact ⟨counted, le_rfl, free res (List.mem_cons_self ..), fun aggr member =>
        free aggr (List.mem_cons_of_mem _ member)⟩
  | nil =>
      by_cases full : d.curAggrIndex = 0x10000
      · simp only [if_pos full]
        exact ⟨by simp [counted], Nat.le_succ _, small _, by simp⟩
      · simp only [if_neg full]
        exact ⟨counted, le_rfl, small _, by simp⟩

theorem Told.create (told : Told slabSize calls s) (ran : Ran slabSize calls s) {stIno : Nat}
    (taken : s.next (.create stIno) = some (s', bytes)) : Told slabSize (calls ++ [.create stIno]) s' := by
  have ran' := ran.snoc taken
  have isNew : s' = ⟨s.data.create.2, s.files ++ [⟨stIno, s.data.create.1⟩], s.gone⟩ := by
    simp only [next] at taken
    split at taken
    · cases taken
    · cases taken
      rfl
  subst isNew
  have writes : ∀ k, ownWrites k (calls ++ [.create stIno]) = ownWrites k calls := fun k => ownWrites_quiet calls rfl
  have blocks : ∀ aggr i, s.data.create.2.blockByte aggr i = s.data.blockByte aggr i := by
    intro aggr i
    rw [FileData.blockByte, FileData.blockByte, FileData.blockFile_create, FileData.aggrBlockSize_create]
  obtain ⟨counted, later, here, free⟩ := create_placed told.counted told.free
  -- an old file, or the new one
  have splits : ∀ {k : Nat} {file : Extent}, (s.files ++ [⟨stIno, s.data.create.1⟩])[k]? = some file →
      s.files[k]? = some file ∨ (k = s.files.length ∧ file = ⟨stIno, s.data.create.1⟩) := by
    intro k file found
    rw [List.getElem?_append] at found
    split at found
    · exact Or.inl found
    · obtain ⟨bound, rfl⟩ := List.getElem?_eq_some_iff.mp found
      rw [List.length_singleton] at bound
      exact Or.inr ⟨by omega, by simp⟩
  refine ⟨(s.data.aggrBlockSize_create).trans told.blockSize, counted, ?_, free, ?_, ?_, ?_, ?_, ?_, ?_, ?_⟩
  · intro file member
    rcases List.mem_append.mp member with old | new
    · exact (told.placed file old).trans later
    · rw [List.mem_singleton.mp new]
      exact here
  · intro k member
    rw [List.length_append]
    exact Nat.lt_add_right _ (told.gone k member)
  · intro k file found
    rcases splits found with old | ⟨rfl, rfl⟩
    · exact told.born_snoc _ old
    · refine ⟨_, [], _, (List.append_nil _).symm, ran', ?_⟩
      rw [tenant_eq_some]
      exact ⟨fun gone => absurd (told.gone _ gone) (lt_irrefl _), found⟩
  · intro k past
    rw [writes]
    rw [List.length_append] at past
    exact told.unwritten k (by omega)
  · intro k file found i inBlock hidden
    rw [blocks, writes]
    rcases splits found with old | ⟨rfl, rfl⟩
    · exact told.own k file old i inBlock fun exposed => hidden (exposed.snoc (by simp [DataCall.wroteBy]))
    · -- nobody has held the block before
      rw [told.unwritten _ le_rfl]
      apply told.fresh _ _ i inBlock
      intro member
      obtain ⟨earlier, isEarlier, same⟩ := List.mem_map.mp member
      obtain ⟨j, found'⟩ := List.mem_iff_getElem?.mp isEarlier
      obtain ⟨before, after, mid, rfl, ⟨outs, ran''⟩, lives⟩ := told.born j earlier found'
      apply hidden
      refine ⟨before, after ++ [.create stIno], mid, outs, j, earlier, List.append_assoc .., ran'', ?_, lives,
        same, ?_⟩
      · have := (List.getElem?_eq_some_iff.mp found').1
        omega
      · have none' := told.unwritten _ le_rfl
        rw [ownWrites_append, List.append_eq_nil_iff] at none'
        rw [ownWrites_quiet after rfl, none'.2]
        simp
  · intro k file found
    rw [writes, FileData.blockFile_create]
    rcases splits found with old | ⟨rfl, rfl⟩
    · exact told.reached k file old
    · intro positive
      rw [told.unwritten _ le_rfl] at positive
      exact absurd positive (lt_irrefl _)
  · intro aggr
    rw [FileData.blockFile_create]
    intro positive
    obtain ⟨k, file, found, sameFile, wrote, ends⟩ := told.bounded aggr positive
    refine ⟨k, file, ?_, sameFile, ?_⟩
    · rw [List.getElem?_append_left (List.getElem?_eq_some_iff.mp found).1]
      exact found
    · rw [writes]
      exact ⟨wrote, ends⟩
  · intro aggr absent i inBlock
    rw [blocks]
    refine told.fresh aggr (fun member => absent ?_) i inBlock
    rw [List.map_append]
    exact List.mem_append_left _ member

theorem Told.write (told : Told slabSize calls s) (ran : Ran slabSize calls s) {k : Nat} {data : Slice} {off : Nat}
    (taken : s.next (.write k data off) = some (s', bytes)) : Told slabSize (calls ++ [.write k data off]) s' := by
  have ran' := ran.snoc taken
  obtain ⟨file, lives, after⟩ := Option.bind_eq_some_iff.mp taken
  obtain ⟨d, wrote, same⟩ := Option.map_eq_some_iff.mp after
  cases same
  obtain ⟨notGone, found⟩ := tenant_eq_some.mp lives
  obtain ⟨rewritten, content, others, -⟩ := FileData.write_spec wrote
  obtain ⟨blockFiles, -⟩ := FileData.write_parts wrote
  rw [told.blockSize] at others blockFiles
  have blockSize := rewritten.aggrBlockSize.trans told.blockSize
  have grown : ∀ aggr, (s.data.blockFile aggr).size ≤ (d.blockFile aggr).size := by
    intro aggr
    rw [blockFiles]
    split
    · exact ByteFile.size_le_pwrite ..
    · exact le_rfl
  have blockEnds : blockEnd slabSize (ownWrites k calls) ≤
      blockEnd slabSize (ownWrites k (calls ++ [.write k data off])) := by
    rw [ownWrites_write, blockEnd_append]
    split
    · exact le_max_left ..
    · exact le_rfl
  -- the part of the data in the block is empty, or ends where the file now reaches in it
  have part : data.take (slabSize - off) = [] ∧
        blockEnd slabSize (ownWrites k (calls ++ [.write k data off])) = blockEnd slabSize (ownWrites k calls) ∨
      data.take (slabSize - off) ≠ [] ∧ blockEnd slabSize (ownWrites k (calls ++ [.write k data off])) =
        max (blockEnd slabSize (ownWrites k calls)) (off + (data.take (slabSize - off)).length) ∧
          0 < (data.take (slabSize - off)).length := by
    rw [ownWrites_write, blockEnd_append, List.length_take]
    by_cases inside : data ≠ [] ∧ off < slabSize
    · have some' := List.length_pos_iff.mpr inside.1
      rw [if_pos inside]
      refine Or.inr ⟨?_, by omega, by omega⟩
      rw [ne_eq, List.take_eq_nil_iff]
      rintro (nothing | nothing)
      · omega
      · exact inside.1 nothing
    · rw [if_neg inside]
      refine Or.inl ⟨?_, rfl⟩
      rw [List.take_eq_nil_iff]
      by_cases nothing : data = []
      · exact Or.inr nothing
      · exact Or.inl (by have := not_and.mp inside nothing; omega)
  refine ⟨blockSize, ?_, ?_, ?_, told.gone, ?_, ?_, ?_, ?_, ?_, ?_⟩
  · rw [rewritten.aggrFiles, rewritten.curAggrFile, told.counted]
  · rw [rewritten.curAggrFile]
    exact told.placed
  · rw [rewritten.aggrFree, rewritten.curAggrFile]
    exact told.free
  · intro j other found'
    exact told.born_snoc _ found'
  · intro j past
    have past : s.files.length ≤ j := past
    have bound := (List.getElem?_eq_some_iff.mp found).1
    rw [ownWrites_other (show k ≠ j by omega)]
    exact told.unwritten j past
  · intro j other found' i inBlock hidden
    by_cases own : k = j
    · subst own
      cases found.symm.trans found'
      have here := congrFun content i
      rw [FileData.fileByte, if_pos (by rw [blockSize]; exact inBlock)] at here
      rw [here, ownWrites_write, contentOf_append]
      by_cases covers : Covers (data, off) i
      · rw [blit_inside _ covers.1 covers.2, blit_inside _ covers.1 covers.2]
      · have outside : i < off ∨ off + data.length ≤ i := by
          unfold Covers at covers
          dsimp only at covers
          omega
        rw [blit_outside _ outside, blit_outside _ outside, FileData.fileByte,
          if_pos (by rw [told.blockSize]; exact inBlock)]
        exact told.own k file found i inBlock fun exposed => hidden (exposed.snoc (by
          simpa [DataCall.wroteBy] using covers))
    · rw [ownWrites_other own]
      have differ : other.aggr ≠ file.aggr := by
        intro same
        exact hidden (same ▸ Exposed.here ran' own lives i)
      rw [others other.aggr differ i inBlock]
      exact told.own j other found' i inBlock fun exposed => hidden (exposed.snoc (by simp [DataCall.wroteBy, own]))
  · intro j other found'
    by_cases own : k = j
    · subst own
      cases found.symm.trans found'
      rw [blockFiles, if_pos rfl]
      intro positive
      rcases part with ⟨nothing, same⟩ | ⟨some', ends, -⟩
      · rw [nothing, ByteFile.pwrite_nil]
        rw [same] at positive ⊢
        exact told.reached k file found positive
      · rw [ByteFile.pwrite_size _ some', ends, FileData.blockOff, told.blockSize]
        by_cases before : 0 < blockEnd slabSize (ownWrites k calls)
        · have := told.reached k file found before
          omega
        · omega
    · rw [ownWrites_other own]
      exact fun positive => (told.reached j other found' positive).trans (grown _)
  · intro aggr positive
    -- a file that reached the end before
    have kept : 0 < (s.data.blockFile aggr).size → ∃ (j : Nat) (other : Extent), s.files[j]? = some other ∧
        other.aggr.file = aggr.file ∧ 0 < blockEnd slabSize (ownWrites j (calls ++ [.write k data off])) ∧
          (s.data.blockFile aggr).size ≤
            other.aggr.no.toNat * slabSize + blockEnd slabSize (ownWrites j (calls ++ [.write k data off])) := by
      intro positive
      obtain ⟨j, other, found', sameFile, wrote', ends⟩ := told.bounded aggr positive
      refine ⟨j, other, found', sameFile, ?_⟩
      by_cases own : k = j
      · subst own
        omega
      · rw [ownWrites_other own]
        exact ⟨wrote', ends⟩
    rw [blockFiles] at positive ⊢
    split at positive
    · next sameFile =>
        rw [if_pos sameFile]
        rcases part with ⟨nothing, -⟩ | ⟨some', ends, more⟩
        · rw [nothing, ByteFile.pwrite_nil] at positive ⊢
          exact kept positive
        · rw [ByteFile.pwrite_size _ some', FileData.blockOff, told.blockSize]
          by_cases moved : (s.data.blockFile aggr).size ≤
              file.aggr.no.toNat * slabSize + off + (data.take (slabSize - off)).length
          · refine ⟨k, file, found, sameFile.symm, by omega, by omega⟩
          · obtain ⟨j, other, found', sameFile', wrote', ends'⟩ := kept (by omega)
            exact ⟨j, other, found', sameFile', wrote', by omega⟩
    · next differ =>
        rw [if_neg differ]
        exact kept positive
  · intro aggr absent i inBlock
    have differ : aggr ≠ file.aggr := by
      rintro rfl
      exact absent (List.mem_map_of_mem (List.mem_of_getElem? found))
    rw [others aggr differ i inBlock]
    exact told.fresh aggr absent i inBlock

/-- **What a run of calls says.** -/
theorem told_of_ran (ran : Ran slabSize calls s) : Told slabSize calls s := by
  obtain ⟨outs, ran⟩ := ran
  refine Run.history (Told.new slabSize) ?_ ran
  intro calls s outs c s' bytes ran told taken
  cases c with
  | create stIno => exact told.create ⟨outs, ran⟩ taken
  | write k data off => exact told.write ⟨outs, ran⟩ taken
  | delete k =>
      obtain ⟨file, lives, same⟩ := Option.map_eq_some_iff.mp taken
      cases same
      have found := (tenant_eq_some.mp lives).2
      refine told.quiet (fun _ => rfl) rfl ?_ rfl rfl rfl ?_
      · intro j member
        rcases List.mem_append.mp member with old | new
        · exact told.gone j old
        · rw [List.mem_singleton.mp new]
          exact (List.getElem?_eq_some_iff.mp found).1
      · intro aggr member
        rcases List.mem_append.mp member with old | new
        · exact told.free aggr old
        · rw [List.mem_singleton.mp new]
          exact told.placed file (List.mem_of_getElem? found)
  | read k size off =>
      obtain ⟨file, lives, after⟩ := Option.bind_eq_some_iff.mp taken
      obtain ⟨bytes', -, same⟩ := Option.map_eq_some_iff.mp after
      cases same
      exact told.quiet (fun _ => rfl) rfl told.gone rfl rfl rfl told.free

/-- The file of a tenant exists unless its number is 0. -/
theorem Told.valid (told : Told slabSize calls s) {file : Extent} (member : file ∈ s.files) :
    (s.data.aggrFile file.aggr).isSome ↔ file.aggr.file ≠ 0 := by
  have placed := told.placed file member
  have counted := told.counted
  unfold FileData.aggrFile
  split
  · next zero => simp [zero]
  · next valid =>
      have positive : 0 < file.aggr.file.toNat := Nat.pos_of_ne_zero fun zero =>
        valid (UInt16.toNat_inj.mp zero)
      rw [isSome_getElem?]
      exact iff_of_true (by omega) valid

/-! ## Leaving out the other files' writes -/

/-- States that file `f` may not tell apart. -/
structure Alike (f : Nat) (s s' : Tenants) : Prop where
  files : s'.files = s.files
  gone : s'.gone = s.gone
  rewritten : s.data.Rewritten s'.data
  distinct : (s.files.map Extent.stIno).Nodup
  absent : ∀ ino ∉ s.files.map Extent.stIno, s.data.largeFiles ino = none ∧ s'.data.largeFiles ino = none
  large : ∀ file, s.files[f]? = some file → s'.data.largeFiles file.stIno = s.data.largeFiles file.stIno

theorem Alike.tenant {f : Nat} (alike : Alike f s s') (k : Nat) : s'.tenant k = s.tenant k := by
  rw [Tenants.tenant, Tenants.tenant, alike.files, alike.gone]

theorem Alike.shown {f : Nat} {t : Tenants} (alike : Alike f s t) {c : DataCall} (shown : c.shown f = true)
    (taken : s.next c = some (s', bytes)) : ∃ t' bytes', t.next c = some (t', bytes') ∧ Alike f s' t' := by
  obtain ⟨files, gone, rewritten, distinct, absent, large⟩ := alike
  have tenant : ∀ k, t.tenant k = s.tenant k := by
    intro k
    rw [Tenants.tenant, Tenants.tenant, files, gone]
  cases c with
  | create stIno =>
      simp only [next] at taken ⊢
      rw [files]
      split at taken
      · cases taken
      · next unused =>
          cases taken
          obtain ⟨block, rewritten'⟩ := rewritten.create
          rw [if_neg unused]
          refine ⟨_, _, rfl, ?_, gone, rewritten', ?_, ?_, ?_⟩
          · rw [block]
          · rw [List.map_append, List.nodup_append]
            refine ⟨distinct, by simp, ?_⟩
            intro ino member other new same
            rw [same, List.mem_singleton.mp new] at member
            exact unused member
          · intro ino notThere
            rw [FileData.largeFiles_create, FileData.largeFiles_create]
            apply absent
            intro member
            apply notThere
            rw [List.map_append]
            exact List.mem_append_left _ member
          · intro file found
            rw [FileData.largeFiles_create, FileData.largeFiles_create]
            rw [List.getElem?_append] at found
            split at found
            · exact large file found
            · obtain ⟨bound, rfl⟩ := List.getElem?_eq_some_iff.mp found
              have none' := absent stIno unused
              rw [List.getElem_singleton, none'.1, none'.2]
  | write k data off =>
      have own : k = f := by simpa [DataCall.shown] using shown
      subst own
      obtain ⟨file, lives, after⟩ := Option.bind_eq_some_iff.mp taken
      obtain ⟨d, wrote, same⟩ := Option.map_eq_some_iff.mp after
      cases same
      have found := (tenant_eq_some.mp lives).2
      have isSome : (t.data.write file data off).isSome := by
        have some' : (s.data.write file data off).isSome := by rw [wrote]; rfl
        rw [FileData.write_isSome] at some' ⊢
        rwa [rewritten.aggrBlockSize, rewritten.aggrFile]
      obtain ⟨d', wrote'⟩ := Option.isSome_iff_exists.mp isSome
      obtain ⟨rewrote, -⟩ := FileData.write_spec wrote
      obtain ⟨rewrote', -⟩ := FileData.write_spec wrote'
      have larges := (FileData.write_parts wrote).2
      have larges' := (FileData.write_parts wrote').2
      have same := large file found
      have largeFile : t.data.largeFile file.stIno = s.data.largeFile file.stIno := by
        rw [FileData.largeFile, FileData.largeFile, same]
      rw [rewritten.aggrBlockSize, largeFile] at larges'
      refine ⟨{ t with data := d' }, [], ?_, files, gone, (rewrote.symm.trans rewritten).trans rewrote', distinct, ?_, ?_⟩
      · simp only [next, tenant, lives, Option.bind_some, wrote', Option.map_some]
      · intro ino notThere
        have differ : ino ≠ file.stIno := by
          rintro rfl
          exact notThere (List.mem_map_of_mem (List.mem_of_getElem? found))
        have none' := absent ino notThere
        simp only [larges, larges']
        split
        · exact none'
        · rw [Function.update_of_ne differ, Function.update_of_ne differ]
          exact none'
      · intro file' found'
        cases found.symm.trans found'
        simp only [larges, larges']
        split
        · exact same
        · rw [Function.update_self, Function.update_self]
  | delete k =>
      obtain ⟨file, lives, same⟩ := Option.map_eq_some_iff.mp taken
      cases same
      refine ⟨⟨t.data.delete file, t.files, t.gone ++ [k]⟩, [], ?_, files, by rw [gone], ?_, distinct, ?_, ?_⟩
      · simp only [next, tenant, lives, Option.map_some]
      · obtain ⟨blockSize, aggrFiles, curFile, curIndex, free⟩ := rewritten
        exact ⟨blockSize, aggrFiles, curFile, curIndex, by simp [FileData.delete, free]⟩
      · intro ino notThere
        have none' := absent ino notThere
        simp only [FileData.delete, Function.update_apply, none'.1, none'.2, ite_self, and_self]
      · intro file' found
        simp only [FileData.delete, Function.update_apply, large file' found]
  | read k size off =>
      obtain ⟨file, lives, after⟩ := Option.bind_eq_some_iff.mp taken
      obtain ⟨bytes', isRead, same⟩ := Option.map_eq_some_iff.mp after
      cases same
      have isSome : (t.data.read file size off).isSome := by
        have some' : (s.data.read file size off).isSome := by rw [isRead]; rfl
        rw [FileData.read_parts] at some' ⊢
        rw [rewritten.aggrFile, rewritten.aggrBlockSize]
        split at some'
        · next defined => rw [if_pos defined]; rfl
        · cases some'
      obtain ⟨got, isRead'⟩ := Option.isSome_iff_exists.mp isSome
      refine ⟨t, got, ?_, files, gone, rewritten, distinct, absent, large⟩
      simp only [next, tenant, lives, Option.bind_some, isRead', Option.map_some]

theorem Alike.hidden {f : Nat} {t : Tenants} (alike : Alike f s t) {c : DataCall} (hidden : c.shown f = false)
    {bytes : Slice} (taken : s.next c = some (s', bytes)) : Alike f s' t := by
  obtain ⟨files, gone, rewritten, distinct, absent, large⟩ := alike
  cases c with
  | create stIno => cases hidden
  | delete k => cases hidden
  | read k size off => cases hidden
  | write k data off =>
      have other : k ≠ f := by simpa [DataCall.shown] using hidden
      obtain ⟨file, lives, after⟩ := Option.bind_eq_some_iff.mp taken
      obtain ⟨d, wrote, same⟩ := Option.map_eq_some_iff.mp after
      cases same
      have found := (tenant_eq_some.mp lives).2
      obtain ⟨rewrote, -⟩ := FileData.write_spec wrote
      have larges := (FileData.write_parts wrote).2
      have kept : ∀ ino, ino ≠ file.stIno → d.largeFiles ino = s.data.largeFiles ino := by
        intro ino differ
        rw [larges]
        split
        · rfl
        · rw [Function.update_of_ne differ]
      refine ⟨files, gone, rewrote.symm.trans rewritten, distinct, ?_, ?_⟩
      · intro ino notThere
        have differ : ino ≠ file.stIno := by
          rintro rfl
          exact notThere (List.mem_map_of_mem (List.mem_of_getElem? found))
        show d.largeFiles ino = none ∧ _
        rw [kept ino differ]
        exact absent ino notThere
      · intro file' found'
        show _ = d.largeFiles file'.stIno
        rw [kept, large file' found']
        -- two files have two inode numbers
        intro sameIno
        have bound := (List.getElem?_eq_some_iff.mp found).1
        apply other
        apply (List.getElem?_inj (by simpa using bound) distinct).mp
        rw [List.getElem?_map, List.getElem?_map, found, found', Option.map_some, Option.map_some, sameIno]

/-- A run without the writes to the other files. -/
theorem Ran.bare {f : Nat} (ran : Ran slabSize calls s) :
    ∃ bare, Ran slabSize (calls.filter (DataCall.shown f)) bare ∧ Alike f s bare := by
  obtain ⟨outs, ran⟩ := ran
  have start : Alike f (new slabSize) (new slabSize) :=
    ⟨rfl, rfl, ⟨rfl, rfl, rfl, rfl, rfl⟩, List.nodup_nil, fun _ _ => ⟨rfl, rfl⟩, fun _ _ => rfl⟩
  have shown : ∀ s t c s' bytes, Alike f s t → c.shown f = true → next s c = some (s', bytes) →
      ∃ t' bytes', next t c = some (t', bytes') ∧ Alike f s' t' :=
    fun _ _ _ _ _ alike shown taken => alike.shown shown taken
  have hidden : ∀ s t c s' bytes, Alike f s t → c.shown f = false → next s c = some (s', bytes) → Alike f s' t :=
    fun _ _ _ _ _ alike hidden taken => alike.hidden hidden taken
  obtain ⟨bare, outs', ran', alike⟩ := Run.filter shown hidden start ran
  exact ⟨bare, ⟨outs', ran'⟩, alike⟩

/-- Runs that differ in the writes to the other files. -/
theorem Ran.alike {f : Nat} {calls' : List DataCall} (ran : Ran slabSize calls s) (ran' : Ran slabSize calls' s')
    (same : calls'.filter (DataCall.shown f) = calls.filter (DataCall.shown f)) :
    s'.files = s.files ∧ s'.gone = s.gone ∧ s.data.Rewritten s'.data ∧
      ∀ file, s.files[f]? = some file → s'.data.largeFiles file.stIno = s.data.largeFiles file.stIno := by
  obtain ⟨bare, ranBare, alike⟩ := ran.bare (f := f)
  obtain ⟨bare', ranBare', alike'⟩ := ran'.bare (f := f)
  rw [same] at ranBare'
  cases ranBare.unique ranBare'
  have files : s'.files = s.files := alike'.files.symm.trans alike.files
  refine ⟨files, alike'.gone.symm.trans alike.gone, alike.rewritten.trans alike'.rewritten.symm, ?_⟩
  intro file found
  rw [← alike.large file found, alike'.large file (files ▸ found)]

/-- What exposes a byte does not depend on the writes to the other files. -/
theorem Exposed.congr {f i : Nat} {aggr : AggrT} {calls' : List DataCall} (ran : Ran slabSize calls s)
    (same : calls'.filter (DataCall.shown f) = calls.filter (DataCall.shown f))
    (exposed : Exposed slabSize f aggr calls' i) : Exposed slabSize f aggr calls i := by
  obtain ⟨before', after', mid', outs', k, other, rfl, ran', differ, lives, isBlock, unwritten⟩ := exposed
  rw [List.filter_append] at same
  obtain ⟨before, after, rfl, sameBefore, sameAfter⟩ := List.filter_eq_append_iff.mp same.symm
  obtain ⟨outs, ran⟩ := ran
  obtain ⟨mid, bs₁, -, first, -⟩ := Run.run_append_eq_some.mp ran
  obtain ⟨files, gone, -⟩ := Ran.alike (show Ran slabSize before' mid' from ⟨_, ran'⟩)
    (show Ran slabSize before mid from ⟨_, first⟩) sameBefore
  refine ⟨before, after, mid, bs₁, k, other, rfl, first, differ, ?_, isBlock, ?_⟩
  · rw [tenant, files, gone]
    exact lives
  · rw [← ownWrites_shown f after, sameAfter, ownWrites_shown f after']
    exact unwritten

/-- An aggregation file ends before a byte of a block that its file has not reached, if
nobody else can have written there. -/
theorem Told.unreached (told : Told slabSize calls s) {f i : Nat} {file : Extent} (found : s.files[f]? = some file)
    (inBlock : i < slabSize) (hidden : ¬ Exposed slabSize f file.aggr calls i)
    (past : ¬ i < blockEnd slabSize (ownWrites f calls)) (last : ¬ s.Behind f file.aggr) :
    (s.data.blockFile file.aggr).size ≤ file.aggr.no.toNat * slabSize + i := by
  by_contra beyond
  obtain ⟨k, other, found', sameFile, -, ends⟩ := told.bounded file.aggr (by omega)
  by_cases own : k = f
  · subst own
    cases found.symm.trans found'
    omega
  · have notBehind : ¬ file.aggr.no < other.aggr.no := fun behind => last ⟨k, other, found', own, sameFile, behind⟩
    have small := blockEnd_le slabSize (ownWrites k calls)
    by_cases sameBlock : other.aggr = file.aggr
    · -- the other file exposes the byte when it is created, and the file covers it later
      obtain ⟨before, after, mid, rfl, ⟨outs, ran⟩, lives⟩ := told.born k other found'
      apply hidden
      refine ⟨before, after, mid, outs, k, other, rfl, ran, own, lives, sameBlock, ?_⟩
      intro write member covers
      apply past
      apply lt_blockEnd_of_covers inBlock
      rw [ownWrites_append]
      exact ⟨write, List.mem_append_right _ member, covers⟩
    · have differ := FileData.no_ne_of_file_eq sameBlock sameFile
      rw [UInt16.lt_iff_toNat_lt] at notBehind
      have below := Nat.mul_le_mul_right slabSize (show other.aggr.no.toNat + 1 ≤ file.aggr.no.toNat by omega)
      rw [Nat.succ_mul] at below
      omega

/-- **Enough**: what is secluded is read alike. -/
theorem Secluded.read_eq {f size off : Nat} {file : Extent} {calls' : List DataCall} (ran : Ran slabSize calls s)
    (ran' : Ran slabSize calls' s') (same : calls'.filter (DataCall.shown f) = calls.filter (DataCall.shown f))
    (found : s.files[f]? = some file) (secluded : Secluded slabSize f file calls s size off) :
    s'.data.read file size off = s.data.read file size off := by
  obtain ⟨files, -, rewritten, large⟩ := ran.alike ran' same
  have told := told_of_ran ran
  have told' := told_of_ran ran'
  have writes : ownWrites f calls' = ownWrites f calls := by
    rw [← ownWrites_shown, same, ownWrites_shown]
  have found' : s'.files[f]? = some file := by rw [files, found]
  rw [FileData.read_eq_read_iff rewritten (large file found), told.valid (List.mem_of_getElem? found)]
  intro valid
  rw [ByteFile.pread_eq_pread_iff, told.blockSize, FileData.blockOff, told.blockSize]
  intro i inside
  have inBlock : off + i < slabSize := by omega
  obtain ⟨hidden, either⟩ := secluded valid (off + i) (by omega) (by omega) inBlock
  have hidden' : ¬ Exposed slabSize f file.aggr calls' (off + i) := fun exposed => hidden (exposed.congr ran same)
  by_cases reach : off + i < blockEnd slabSize (ownWrites f calls)
  · have below := told.reached f file found (by omega)
    have below' := told'.reached f file found' (by rw [writes]; omega)
    rw [writes] at below'
    have here := told.own f file found (off + i) inBlock hidden
    have here' := told'.own f file found' (off + i) inBlock hidden'
    rw [writes, ← here] at here'
    simp only [FileData.blockByte, told.blockSize, told'.blockSize, ← Nat.add_assoc] at here'
    exact ⟨by omega, fun _ => here'⟩
  · have last := either.resolve_left reach
    have ends := told.unreached found inBlock hidden reach last
    have ends' := told'.unreached found' inBlock hidden' (by rwa [writes]) (by
      unfold Behind at last ⊢
      rwa [files])
    exact ⟨by omega, fun below => by omega⟩

/-- A write to another file can be put in wherever that file lives. -/
theorem insert_write {f k : Nat} {before after : List DataCall} {mid : Tenants} {other : Extent}
    (ran : Ran slabSize (before ++ after) s) (ranMid : Ran slabSize before mid) (differ : k ≠ f)
    (lives : mid.tenant k = some other) (valid : other.aggr.file ≠ 0)
    (bare : ∀ c ∈ after, c.shown f = true) (data : Slice) (off : Nat) :
    ∃ d s' outs, mid.data.write other data off = some d ∧
      Run.run next { mid with data := d } after = some (s', outs) ∧
        Ran slabSize (before ++ .write k data off :: after) s' := by
  have found := (tenant_eq_some.mp lives).2
  have isSome : (mid.data.write other data off).isSome := by
    rw [FileData.write_isSome]
    exact Or.inr (((told_of_ran ranMid).valid (List.mem_of_getElem? found)).mpr valid)
  obtain ⟨d, wrote⟩ := Option.isSome_iff_exists.mp isSome
  have taken : mid.next (.write k data off) = some ({ mid with data := d }, []) := by
    simp only [next, lives, Option.bind_some, wrote, Option.map_some]
  -- the rest runs on as it does without the write
  obtain ⟨outs, ran⟩ := ran
  obtain ⟨mid', bs₁, bs₂, first, rest, -⟩ := Run.run_append_eq_some.mp ran
  cases ranMid.unique ⟨bs₁, first⟩
  obtain ⟨bareMid, -, alike⟩ := (show Ran slabSize before mid from ⟨bs₁, first⟩).bare (f := f)
  have alike' : Alike f mid { mid with data := d } := by
    obtain ⟨rewritten, -⟩ := FileData.write_spec wrote
    have moved := alike.hidden (show (DataCall.write k data off).shown f = false by simp [DataCall.shown, differ]) taken
    refine ⟨rfl, rfl, rewritten, alike.distinct, ?_, ?_⟩
    · intro ino notThere
      exact ⟨(alike.absent ino notThere).1, (moved.absent ino notThere).1⟩
    · intro file found
      rw [← alike.large file found, moved.large file found]
  have shown : ∀ s t c s' bytes, Alike f s t → c.shown f = true → next s c = some (s', bytes) →
      ∃ t' bytes', next t c = some (t', bytes') ∧ Alike f s' t' :=
    fun _ _ _ _ _ alike shown taken => alike.shown shown taken
  have hidden : ∀ s t c s' bytes, Alike f s t → c.shown f = false → next s c = some (s', bytes) → Alike f s' t :=
    fun _ _ _ _ _ alike hidden taken => alike.hidden hidden taken
  obtain ⟨s', outs', ran', -⟩ := Run.filter shown hidden alike' rest
  rw [List.filter_eq_self.mpr bare] at ran'
  obtain ⟨outsMid, ranMid⟩ := ranMid
  refine ⟨d, s', outs', wrote, ran', _, Run.run_append_eq_some.mpr ⟨mid, outsMid, [] :: outs', ranMid, ?_, rfl⟩⟩
  exact Run.run_cons_eq_some.mpr ⟨_, [], outs', taken, ran', rfl⟩

/-- A byte of a block keeps its value as long as only `f` writes, and not that byte. -/
theorem byte_kept {f i : Nat} (inBlock : i < slabSize) {aggr : AggrT} {x : UInt8} {outs : List Slice}
    (bare : ∀ c ∈ calls, c.shown f = true) (uncovered : ∀ write ∈ ownWrites f calls, ¬ Covers write i)
    (ran : Run.run next s calls = some (s', outs)) (blockSize : s.data.aggrBlockSize = slabSize)
    (below : aggr.no.toNat * slabSize + i < (s.data.blockFile aggr).size) (value : s.data.blockByte aggr i = x) :
    s'.data.aggrBlockSize = slabSize ∧ aggr.no.toNat * slabSize + i < (s'.data.blockFile aggr).size ∧
      s'.data.blockByte aggr i = x := by
  have preserved : ∀ (t : Tenants) (c : DataCall) (t' : Tenants) (bytes : Slice),
      t.data.aggrBlockSize = slabSize ∧ aggr.no.toNat * slabSize + i < (t.data.blockFile aggr).size ∧
        t.data.blockByte aggr i = x → c.shown f = true ∧ (∀ write ∈ c.wroteBy f, ¬ Covers write i) →
      t.next c = some (t', bytes) → t'.data.aggrBlockSize = slabSize ∧
        aggr.no.toNat * slabSize + i < (t'.data.blockFile aggr).size ∧ t'.data.blockByte aggr i = x := by
    rintro t c t' bytes ⟨blockSize, below, value⟩ ⟨shown, clear⟩ taken
    cases c with
    | create stIno =>
        simp only [next] at taken
        split at taken
        · cases taken
        · cases taken
          simp only [FileData.blockByte, FileData.blockFile_create, FileData.aggrBlockSize_create] at value ⊢
          exact ⟨blockSize, below, value⟩
    | delete k =>
        obtain ⟨file, -, same⟩ := Option.map_eq_some_iff.mp taken
        cases same
        exact ⟨blockSize, below, value⟩
    | read k size off =>
        obtain ⟨file, -, after⟩ := Option.bind_eq_some_iff.mp taken
        obtain ⟨bytes', -, same⟩ := Option.map_eq_some_iff.mp after
        cases same
        exact ⟨blockSize, below, value⟩
    | write k data off =>
        have own : k = f := by simpa [DataCall.shown] using shown
        have outside : i < off ∨ off + data.length ≤ i := by
          have far := clear (data, off) (by simp [DataCall.wroteBy, own])
          unfold Covers at far
          dsimp only at far
          omega
        obtain ⟨file, lives, after⟩ := Option.bind_eq_some_iff.mp taken
        obtain ⟨d, wrote, same⟩ := Option.map_eq_some_iff.mp after
        cases same
        obtain ⟨rewritten, content, others, -⟩ := FileData.write_spec wrote
        obtain ⟨blockFiles, -⟩ := FileData.write_parts wrote
        refine ⟨rewritten.aggrBlockSize.trans blockSize, ?_, ?_⟩
        · apply lt_of_lt_of_le below
          rw [blockFiles]
          split
          · exact ByteFile.size_le_pwrite ..
          · exact le_rfl
        · show d.blockByte aggr i = x
          by_cases same : aggr = file.aggr
          · have here := congrFun content i
            rw [blit_outside _ outside, FileData.fileByte, FileData.fileByte, rewritten.aggrBlockSize, blockSize,
              if_pos inBlock, if_pos inBlock, ← same] at here
            rw [here, value]
          · rw [others aggr same i (by rw [blockSize]; exact inBlock), value]
  refine Run.invariant preserved ⟨blockSize, below, value⟩ (Run.Along.of_forall fun c member => ⟨bare c member, ?_⟩) ran
  intro write wrote
  exact uncovered write (List.mem_filterMap.mpr ⟨c, member, wrote⟩)

/-- **Necessary**: a byte that is exposed can be given two values. -/
theorem exposed_values {f i : Nat} {aggr : AggrT} (ran : Ran slabSize calls s) (inBlock : i < slabSize)
    (valid : aggr.file ≠ 0) (bare : ∀ c ∈ calls, c.shown f = true) (exposed : Exposed slabSize f aggr calls i)
    (x : UInt8) : ∃ calls' s', calls'.filter (DataCall.shown f) = calls ∧ Ran slabSize calls' s' ∧
      aggr.no.toNat * slabSize + i < (s'.data.blockFile aggr).size ∧ s'.data.blockByte aggr i = x := by
  obtain ⟨before, after, mid, outs, k, other, rfl, ran', differ, lives, rfl, unwritten⟩ := exposed
  have shownBefore : ∀ c ∈ before, c.shown f = true := fun c member => bare c (List.mem_append_left _ member)
  have shownAfter : ∀ c ∈ after, c.shown f = true := fun c member => bare c (List.mem_append_right _ member)
  obtain ⟨d, s', outs', wrote, rest, ranVariant⟩ :=
    insert_write ran ⟨outs, ran'⟩ differ lives valid shownAfter [x] i
  have blockSize := (told_of_ran ⟨outs, ran'⟩).blockSize
  obtain ⟨rewritten, content, -⟩ := FileData.write_spec wrote
  obtain ⟨blockFiles, -⟩ := FileData.write_parts wrote
  have take : [x].take (mid.data.aggrBlockSize - i) = [x] := List.take_of_length_le (by
    rw [blockSize, List.length_singleton]
    omega)
  have below : other.aggr.no.toNat * slabSize + i < (d.blockFile other.aggr).size := by
    rw [blockFiles, if_pos rfl, take, ByteFile.pwrite_size _ (List.cons_ne_nil x []), FileData.blockOff, blockSize,
      List.length_singleton]
    omega
  have value : d.blockByte other.aggr i = x := by
    have here := congrFun content i
    rw [blit_inside _ le_rfl (by simp), FileData.fileByte, rewritten.aggrBlockSize, blockSize, if_pos inBlock,
      Nat.sub_self] at here
    exact here
  refine ⟨_, s', ?_, ranVariant, ?_⟩
  · rw [List.filter_append, List.filter_cons_of_neg (by simp [DataCall.shown, differ]),
      List.filter_eq_self.mpr shownBefore, List.filter_eq_self.mpr shownAfter]
  · exact (byte_kept inBlock shownAfter unwritten rest (rewritten.aggrBlockSize.trans blockSize) below value).2

/-- **Necessary**: another file behind the block can make the aggregation file longer. -/
theorem behind_grows {f : Nat} {aggr : AggrT} (ran : Ran slabSize calls s) (positive : 0 < slabSize)
    (valid : aggr.file ≠ 0) (bare : ∀ c ∈ calls, c.shown f = true) (behind : s.Behind f aggr) :
    ∃ calls' s', calls'.filter (DataCall.shown f) = calls ∧ Ran slabSize calls' s' ∧
      (aggr.no.toNat + 1) * slabSize ≤ (s'.data.blockFile aggr).size := by
  obtain ⟨k, other, found, differ, sameFile, later⟩ := behind
  obtain ⟨before, after, mid, rfl, ranMid, lives⟩ := (told_of_ran ran).born k other found
  have shownBefore : ∀ c ∈ before, c.shown f = true := fun c member => bare c (List.mem_append_left _ member)
  have shownAfter : ∀ c ∈ after, c.shown f = true := fun c member => bare c (List.mem_append_right _ member)
  obtain ⟨d, s', outs', -, -, ranVariant⟩ :=
    insert_write ran ranMid differ lives (sameFile ▸ valid) shownAfter [0] 0
  have isBare : (before ++ .write k [0] 0 :: after).filter (DataCall.shown f) = before ++ after := by
    rw [List.filter_append, List.filter_cons_of_neg (by simp [DataCall.shown, differ]),
      List.filter_eq_self.mpr shownBefore, List.filter_eq_self.mpr shownAfter]
  refine ⟨_, s', isBare, ranVariant, ?_⟩
  have found' : s'.files[k]? = some other := by
    obtain ⟨files, -⟩ := ran.alike (f := f) ranVariant (by
      rw [isBare, List.filter_eq_self.mpr bare])
    rw [files, found]
  have reach : 0 < blockEnd slabSize (ownWrites k (before ++ .write k [0] 0 :: after)) := by
    apply lt_blockEnd_of_covers positive
    refine ⟨([0], 0), ?_, le_rfl, by simp⟩
    rw [ownWrites_append]
    apply List.mem_append_right
    simp [ownWrites, DataCall.wroteBy]
  have reached := (told_of_ran ranVariant).reached k other found' reach
  have sameContents : s'.data.blockFile other.aggr = s'.data.blockFile aggr := by
    rw [FileData.blockFile, FileData.blockFile, FileData.aggrFile, FileData.aggrFile, sameFile]
  rw [sameContents] at reached
  rw [UInt16.lt_iff_toNat_lt] at later
  exact (Nat.mul_le_mul_right slabSize later).trans (by omega)

end Tenants

/-- **What a file can see of the others.**  After a run of calls, a read of a live file
returns what it returns after every run that differs in the writes to the other files
if and only if what the read asks for in the file's block is secluded. -/
theorem secluded_iff (slabSize f size off : Nat) {calls : List DataCall} {s : Tenants} {outs : List Slice}
    (ran : Run.run Tenants.next (.new slabSize) calls = some (s, outs)) {file : Extent}
    (lives : s.tenant f = some file) :
    (∀ calls' s' outs', calls'.filter (DataCall.shown f) = calls.filter (DataCall.shown f) →
        Run.run Tenants.next (.new slabSize) calls' = some (s', outs') →
          s'.tenant f = some file ∧ s'.data.read file size off = s.data.read file size off) ↔
      Tenants.Secluded slabSize f file calls s size off := by
  have found := (Tenants.tenant_eq_some.mp lives).2
  have isRan : Tenants.Ran slabSize calls s := ⟨outs, ran⟩
  constructor
  · intro alike valid i low high inBlock
    obtain ⟨bare, ranBare, alikeBare⟩ := isRan.bare (f := f)
    have shown : ∀ c ∈ calls.filter (DataCall.shown f), c.shown f = true := fun c member => (List.mem_filter.mp member).2
    have toldBare := Tenants.told_of_ran ranBare
    have told := Tenants.told_of_ran isRan
    -- every variant sees in the block what the run sees
    have sees : ∀ calls' s', calls'.filter (DataCall.shown f) = calls.filter (DataCall.shown f) →
        Tenants.Ran slabSize calls' s' →
          (file.aggr.no.toNat * slabSize + i < (s'.data.blockFile file.aggr).size ↔
            file.aggr.no.toNat * slabSize + i < (s.data.blockFile file.aggr).size) ∧
          (file.aggr.no.toNat * slabSize + i < (s'.data.blockFile file.aggr).size →
            s'.data.blockByte file.aggr i = s.data.blockByte file.aggr i) := by
      intro calls' s' same ran'
      obtain ⟨-, -, rewritten, large⟩ := isRan.alike ran' same
      obtain ⟨outs', ran'⟩ := ran'
      have equal := (FileData.read_eq_read_iff rewritten (large file found) size off).mp
        (alike calls' s' outs' same ran').2 ((told.valid (List.mem_of_getElem? found)).mpr valid)
      rw [ByteFile.pread_eq_pread_iff, told.blockSize, FileData.blockOff, told.blockSize] at equal
      have here := equal (i - off) (by omega)
      rw [Nat.add_assoc, Nat.add_sub_cancel' low] at here
      rw [FileData.blockByte, FileData.blockByte, rewritten.aggrBlockSize, told.blockSize]
      exact here
    constructor
    · intro exposed
      have exposed' := exposed.congr ranBare (by rw [List.filter_filter]; simp)
      obtain ⟨calls₁, s₁, same₁, ran₁, below₁, value₁⟩ :=
        Tenants.exposed_values ranBare inBlock valid shown exposed' 1
      obtain ⟨calls₂, s₂, same₂, ran₂, below₂, value₂⟩ :=
        Tenants.exposed_values ranBare inBlock valid shown exposed' 2
      have first := (sees calls₁ s₁ same₁ ran₁).2 below₁
      have second := (sees calls₂ s₂ same₂ ran₂).2 below₂
      rw [value₁, ← second, value₂] at first
      exact absurd first (by decide)
    · by_contra neither
      rw [not_or, not_not] at neither
      obtain ⟨unreached, behind⟩ := neither
      have behind' : bare.Behind f file.aggr := by
        unfold Tenants.Behind at behind ⊢
        rwa [alikeBare.files]
      obtain ⟨calls', s', same', ran', grown⟩ :=
        Tenants.behind_grows ranBare (Nat.zero_lt_of_lt inBlock) valid shown behind'
      -- alone, the file has not made the aggregation file as long
      have short : (bare.data.blockFile file.aggr).size ≤ file.aggr.no.toNat * slabSize + i := by
        by_contra beyond
        obtain ⟨k, other, found', -, wrote, ends⟩ := toldBare.bounded file.aggr (by omega)
        by_cases own : k = f
        · subst own
          rw [alikeBare.files, found] at found'
          cases found'
          rw [ownWrites_shown] at ends
          omega
        · rw [ownWrites_hidden own] at wrote
          exact absurd wrote (lt_irrefl _)
      have long := (sees calls' s' same' ran').1
      have same := (sees _ bare (by rw [List.filter_filter]; simp) ranBare).1
      rw [Nat.succ_mul] at grown
      omega
  · intro secluded calls' s' outs' same ran'
    obtain ⟨files, gone, -⟩ := isRan.alike (f := f) ⟨outs', ran'⟩ same
    refine ⟨?_, secluded.read_eq isRan ⟨outs', ran'⟩ same found⟩
    rw [Tenants.tenant, files, gone]
    exact lives

/-- A file on a recycled block that it writes itself. -/
def overwritten : List DataCall := [.create 2, .write 0 [7, 7] 0, .delete 0, .create 3, .write 1 [1, 2, 3, 4] 0]

/-- The bytes it has written are its own, whatever the deleted file wrote there. -/
theorem secluded_iff_within : ∃ s outs, Run.run Tenants.next (.new 8) overwritten = some (s, outs) ∧
    ∀ calls' s' outs', calls'.filter (DataCall.shown 1) = overwritten.filter (DataCall.shown 1) →
      Run.run Tenants.next (.new 8) calls' = some (s', outs') → s'.data.read ⟨3, ⟨1, 0⟩⟩ 2 1 = some [2, 3] := by
  have ends : (Run.run Tenants.next (.new 8) overwritten).map (fun out =>
      (out.1.tenant 1, out.1.gone, out.1.files.length, out.1.data.read ⟨3, ⟨1, 0⟩⟩ 2 1)) =
        some (some ⟨3, ⟨1, 0⟩⟩, [0], 2, some [2, 3]) := by
    decide +kernel
  obtain ⟨⟨s, outs⟩, ran, facts⟩ := Option.map_eq_some_iff.mp ends
  simp only [Prod.mk.injEq] at facts
  obtain ⟨lives, gone, files, bytes⟩ := facts
  -- before its write the file had not written, behind it the other one is deleted
  have hidden : ∀ i, 1 ≤ i → i < 3 → ¬ Tenants.Exposed 8 1 ⟨1, 0⟩ overwritten i := by
    rintro i low high ⟨before, after, s', outs', k, other, split, ran', differ, lives', -, uncovered⟩
    rcases List.eq_nil_or_concat after with rfl | ⟨rest, last, rfl⟩
    · rw [List.append_nil] at split
      obtain rfl : s = s' := Tenants.Ran.unique ⟨outs, ran⟩ ⟨outs', split ▸ ran'⟩
      obtain ⟨notGone, found⟩ := Tenants.tenant_eq_some.mp lives'
      have below := (List.getElem?_eq_some_iff.mp found).1
      rw [gone, List.mem_singleton] at notGone
      omega
    · have isLast : DataCall.write 1 [1, 2, 3, 4] 0 = last := by
        have ends : overwritten.getLast? = (before ++ rest.concat last).getLast? := by rw [split]
        simpa [overwritten] using ends
      subst isLast
      refine uncovered ([1, 2, 3, 4], 0) ?_ ⟨by omega, by simp only [List.length_cons, List.length_nil]; omega⟩
      simp [ownWrites, DataCall.wroteBy]
  have secluded : Tenants.Secluded 8 1 ⟨3, ⟨1, 0⟩⟩ overwritten s 2 1 := by
    intro _ i low high _
    refine ⟨hidden i low high, Or.inl ?_⟩
    have ends : blockEnd 8 (ownWrites 1 overwritten) = 4 := by decide
    omega
  refine ⟨s, outs, ran, fun calls' s' outs' same ran' => ?_⟩
  rw [← bytes]
  exact ((secluded_iff 8 1 2 1 ran lives).mpr secluded calls' s' outs' same ran').2

/-- A file on a recycled block reads what the deleted file wrote. -/
theorem deleted_file_read :
    ¬ ∀ (f size off : Nat) (calls calls' : List DataCall) (s s' : Tenants) (outs outs' : List Slice) (file : Extent),
      calls'.filter (DataCall.shown f) = calls.filter (DataCall.shown f) →
        Run.run Tenants.next (.new 8) calls = some (s, outs) →
          Run.run Tenants.next (.new 8) calls' = some (s', outs') → s.tenant f = some file →
            s'.data.read file size off = s.data.read file size off := by
  intro claim
  have ends : (Run.run Tenants.next (.new 8) [.create 2, .delete 0, .create 3]).map (fun out =>
      (out.1.tenant 1, out.1.data.read ⟨3, ⟨1, 0⟩⟩ 1 0)) = some (some ⟨3, ⟨1, 0⟩⟩, some []) := by
    decide +kernel
  have ends' : (Run.run Tenants.next (.new 8) [.create 2, .write 0 [7] 0, .delete 0, .create 3]).map (fun out =>
      out.1.data.read ⟨3, ⟨1, 0⟩⟩ 1 0) = some (some [7]) := by
    decide +kernel
  obtain ⟨⟨s, outs⟩, ran, facts⟩ := Option.map_eq_some_iff.mp ends
  obtain ⟨⟨s', outs'⟩, ran', read'⟩ := Option.map_eq_some_iff.mp ends'
  simp only [Prod.mk.injEq] at facts
  have same := claim 1 1 0 [.create 2, .delete 0, .create 3] [.create 2, .write 0 [7] 0, .delete 0, .create 3]
    s s' outs outs' _ rfl ran ran' facts.1
  rw [facts.2, read'] at same
  exact absurd same (by decide)

end KTableFS.Fs
