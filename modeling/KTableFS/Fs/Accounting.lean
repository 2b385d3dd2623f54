/-
# Fs.Accounting -- which blocks creations keep track of

The constructor of a regular file's handle takes a block from `FileData::Create` before
the store has said whether the name is free.  `MknodCallback` passes the error on and
does not give the block back, so the block is out and no record names it.

* `blocks_accounted_iff`: along a run, every block is recorded or free and every refused
  `Mknod` leaves the allocator as it was if and only if no `Mknod` of a file that takes a
  block names an entry that exists.
-/
import KTableFS.Fs.Sizes

namespace KTableFS.Fs

open KTableFS.Theory
open KTableFS.Kvengine (Slice Store)

set_option autoImplicit false

structure Mknod where
  parent : FuseIno
  name : Slice
  mode : UInt32
  now : UInt32

/-- A file system, and the blocks `Create` has issued. -/
structure Issuing where
  fs : FsState
  issued : List AggrT

/-- A `Mknod` with this mode takes no block. -/
def Mknod.Blockless (m : Mknod) : Prop := (m.mode &&& FsState.sIfdir != 0) = true

instance (m : Mknod) : Decidable m.Blockless := inferInstanceAs (Decidable (_ = true))

namespace Issuing

def new (stat : Stat) (slabSize : Nat) (now : UInt32) : Issuing := ⟨.new stat slabSize now, []⟩

def next (s : Issuing) (m : Mknod) : Option (Issuing × Reply) :=
  (s.fs.mknod m.parent m.name m.mode m.now).map fun out =>
    (⟨out.1, if m.Blockless then s.issued else s.issued ++ [s.fs.fileData.create.1]⟩, out.2)

/-- A stored file has the block. -/
def Recorded (s : Issuing) (aggr : AggrT) : Prop :=
  ∃ (key : FileKey) (value : Slice) (file : File), s.fs.db[key.toSlice]? = some value ∧
    File.ofSlice value = some file ∧ file.aggr = aggr

/-- No block is leaked. -/
def Accounted (s : Issuing) : Prop :=
  ∀ aggr ∈ s.issued, s.Recorded aggr ∨ aggr ∈ s.fs.fileData.aggrFree

/-- A refused `Mknod` leaves the allocator as it was. -/
def RefusedKeeps (s : Issuing) (m : Mknod) : Prop :=
  ∀ s' errno, s.next m = some (s', .err errno) → s'.fs.fileData = s.fs.fileData

/-- The entry a `Mknod` names exists. -/
def Names (s : Issuing) (m : Mknod) : Prop :=
  ∃ parentHandle ∈ s.fs.handle m.parent, ∃ parentFile ∈ s.fs.file parentHandle,
    s.fs.db.contains (FileKey.ofName parentFile.stIno m.name).toSlice = true

end Issuing

/-- `Create` always moves on. -/
theorem FileData.create_ne (d : FileData) : d.create.2 ≠ d := by
  intro same
  unfold create at same
  split at same
  · next res free isFree =>
      have lists := congrArg (fun d : FileData => d.aggrFree.length) same
      simp only [isFree, List.length_cons] at lists
      omega
  · simp only at same
    split at same
    · have file := congrArg FileData.curAggrFile same
      simp only at file
      omega
    · have index := congrArg FileData.curAggrIndex same
      simp only at index
      omega

/-- A block that was free, and is not the one `Create` issues, still is. -/
theorem FileData.free_of_create {d : FileData} {aggr : AggrT} (free : aggr ∈ d.aggrFree) :
    aggr = d.create.1 ∨ aggr ∈ d.create.2.aggrFree := by
  cases isFree : d.aggrFree with
  | nil =>
      rw [isFree] at free
      cases free
  | cons res rest =>
      rw [isFree] at free
      simp only [create, isFree]
      exact List.mem_cons.mp free

namespace Issuing

variable {s s' : Issuing} {m : Mknod} {reply : Reply}

/-- The new file and the allocator behind it. -/
theorem newFile_eq (fs : FsState) (m : Mknod) :
    (fs.newFile File.regular m.mode m.now).1.type = File.regular ∧
      (fs.newFile File.regular m.mode m.now).1.aggr = (if m.Blockless then ⟨0, 0⟩ else fs.fileData.create.1) ∧
      (fs.newFile File.regular m.mode m.now).2.fileData =
        (if m.Blockless then fs.fileData else fs.fileData.create.2) ∧
      (fs.newFile File.regular m.mode m.now).2.db = fs.db := by
  unfold FsState.newFile Mknod.Blockless
  simp only
  split
  · next dir => simp only [dir, if_true, and_self]
  · next file => simp only [file, if_false, and_self, Bool.false_eq_true]

/-- **One `Mknod`**: refused, or its file is stored under a name that was free. -/
theorem next_cases (taken : s.next m = some (s', reply)) :
    s'.fs.fileData = (if m.Blockless then s.fs.fileData else s.fs.fileData.create.2) ∧
      s'.issued = (if m.Blockless then s.issued else s.issued ++ [s.fs.fileData.create.1]) ∧
      ((s.Names m ∧ reply = .err 17 ∧ s'.fs.db = s.fs.db) ∨
        (¬ s.Names m ∧ (∀ errno, reply ≠ .err errno) ∧ ∃ (key : FileKey) (value : Slice) (file : File),
          s.fs.db[key.toSlice]? = none ∧ s'.fs.db = s.fs.db.insert key.toSlice value ∧
            File.ofSlice value = some file ∧
            file.aggr = if m.Blockless then ⟨0, 0⟩ else s.fs.fileData.create.1)) := by
  obtain ⟨⟨fs, answer⟩, created, same⟩ := Option.map_eq_some_iff.mp taken
  obtain ⟨parentHandle, parentFile, named, points⟩ := FsState.parent_of_create created
  have names : s.Names m ↔ s.fs.db.contains (FileKey.ofName parentFile.stIno m.name).toSlice = true := by
    simp [Names, named, points]
  obtain ⟨type, aggr, data, db⟩ := newFile_eq s.fs m
  rw [FsState.mknod, FsState.create_eq named points, Option.some.injEq] at created
  simp only at created
  cases same
  split at created
  · next present =>
      cases created
      exact ⟨data, rfl, Or.inl ⟨names.mpr present, rfl, db⟩⟩
  · next absent =>
      cases created
      refine ⟨data, rfl, Or.inr ⟨fun exists' => absent (names.mp exists'), by simp, ?_⟩⟩
      refine ⟨_, _, (s.fs.newFile File.regular m.mode m.now).1, ?_, rfl, ?_, aggr⟩
      · rwa [Bool.not_eq_true, Std.TreeMap.contains_eq_isSome_getElem?, Option.isSome_eq_false_iff,
          Option.isNone_iff_eq_none] at absent
      · apply File.ofSlice_toSlice
        rw [File.toSlice, File.isSymlink, File.isRegular, type]
        rfl

/-- A `Mknod` that a valid handle names has a result. -/
theorem next_of_names (names : s.Names m) : ∃ s', s.next m = some (s', .err 17) := by
  obtain ⟨parentHandle, named, parentFile, points, present⟩ := names
  simp only [next, FsState.mknod, FsState.create_eq (Option.mem_def.mp named) (Option.mem_def.mp points), present,
    if_true, Option.map_some]
  exact ⟨_, rfl⟩

/-- **Refusals**: one leaves the allocator as it was exactly if no block was taken for it. -/
theorem refusedKeeps_iff (s : Issuing) (m : Mknod) : s.RefusedKeeps m ↔ m.Blockless ∨ ¬ s.Names m := by
  constructor
  · intro keeps
    by_contra leaks
    simp only [not_or, not_not] at leaks
    obtain ⟨s', taken⟩ := next_of_names leaks.2
    have data := (next_cases taken).1
    rw [if_neg leaks.1, keeps s' 17 taken] at data
    exact s.fs.fileData.create_ne data.symm
  · rintro harmless s' errno taken
    obtain ⟨data, -, cases'⟩ := next_cases taken
    rcases cases' with ⟨names, -⟩ | ⟨-, noError, -⟩
    · rcases harmless with blockless | free
      · rw [data, if_pos blockless]
      · exact absurd names free
    · exact absurd rfl (noError errno)

theorem Recorded.insert {aggr : AggrT} (recorded : s.Recorded aggr) {key : FileKey} {value : Slice}
    (fresh : s.fs.db[key.toSlice]? = none) (stored : s'.fs.db = s.fs.db.insert key.toSlice value) :
    s'.Recorded aggr := by
  obtain ⟨other, value', file, found, decoded, same⟩ := recorded
  refine ⟨other, value', file, ?_, decoded, same⟩
  have differ : other.toSlice ≠ key.toSlice := by
    intro equal
    rw [equal, fresh] at found
    cases found
  rw [stored, Store.getElem?_insert, if_neg differ]
  exact found

/-- **One harmless `Mknod`** keeps the books. -/
theorem Accounted.next (accounted : s.Accounted) (harmless : m.Blockless ∨ ¬ s.Names m)
    (taken : s.next m = some (s', reply)) : s'.Accounted := by
  obtain ⟨data, issued, cases'⟩ := next_cases taken
  intro aggr member
  by_cases blockless : m.Blockless
  · rw [if_pos blockless] at data issued
    rw [issued] at member
    rw [data]
    refine (accounted aggr member).imp_left fun recorded => ?_
    rcases cases' with ⟨-, -, same⟩ | ⟨-, -, key, value, file, fresh, stored, -⟩
    · unfold Recorded at recorded ⊢
      rwa [same]
    · exact recorded.insert fresh stored
  · have free := harmless.resolve_left blockless
    rcases cases' with ⟨names, -⟩ | ⟨-, -, key, value, file, fresh, stored, decoded, block⟩
    · exact absurd names free
    · rw [if_neg blockless] at data issued block
      have new : s'.Recorded s.fs.fileData.create.1 := by
        refine ⟨key, value, file, ?_, decoded, block⟩
        rw [stored, Store.getElem?_insert, if_pos rfl]
      rw [issued] at member
      rw [data]
      rcases List.mem_append.mp member with old | new'
      · rcases accounted aggr old with recorded | isFree
        · exact Or.inl (recorded.insert fresh stored)
        · rcases FileData.free_of_create isFree with rfl | still
          · exact Or.inl new
          · exact Or.inr still
      · rw [List.mem_singleton.mp new']
        exact Or.inl new

end Issuing

/-- **Blocks.**  In a run of `Mknod`s every block issued so far is recorded in a stored
file or free, in every state, and every refused `Mknod` leaves the allocator as it was,
if and only if no `Mknod` that takes a block names an entry that exists. -/
theorem blocks_accounted_iff (stat : Stat) (slabSize : Nat) (start : UInt32) (mknods : List Mknod) :
    Run.Along Issuing.next (fun s m => m.Blockless ∨ ¬ s.Names m) (.new stat slabSize start) mknods ↔
      (∀ n s' replies, Run.run Issuing.next (.new stat slabSize start) (mknods.take n) = some (s', replies) →
        s'.Accounted) ∧
      Run.Along Issuing.next Issuing.RefusedKeeps (.new stat slabSize start) mknods := by
  have same : (Issuing.RefusedKeeps) = fun s m => m.Blockless ∨ ¬ s.Names m := by
    funext s m
    exact propext (Issuing.refusedKeeps_iff s m)
  rw [same]
  constructor
  · intro harmless
    refine ⟨?_, harmless⟩
    intro n s' replies ran
    refine Run.invariant (fun _ _ _ _ accounted harmless taken => accounted.next harmless taken) ?_
      (harmless.take n) ran
    intro aggr member
    cases member
  · exact And.right

/-- A name that is taken costs a block: two `Mknod`s of one name leave two blocks issued
and one recorded. -/
theorem block_leaked :
    ¬ ∀ (mknods : List Mknod) (s : Issuing) (replies : List Reply),
      Run.run Issuing.next (.new exampleStat 8192 0) mknods = some (s, replies) → s.Accounted := by
  intro claim
  have ends : (Run.run Issuing.next (.new exampleStat 8192 0)
      [⟨.root, [97], 0x81a4, 1⟩, ⟨.root, [97], 0x81a4, 2⟩]).map (fun out =>
        (out.1.issued, out.1.fs.fileData.aggrFree,
          out.1.fs.db.toList.map fun entry => (File.ofSlice entry.2).map File.aggr)) =
      some ([⟨1, 0⟩, ⟨1, 1⟩], [], [some ⟨1, 0⟩]) := by
    decide +kernel
  obtain ⟨⟨s, replies⟩, ran, facts⟩ := Option.map_eq_some_iff.mp ends
  simp only [Prod.mk.injEq] at facts
  obtain ⟨issued, free, stored⟩ := facts
  rcases claim _ s replies ran ⟨1, 1⟩ (by rw [issued]; decide) with ⟨key, value, file, found, decoded, block⟩ | isFree
  · have entry := Std.TreeMap.mem_toList_iff_getElem?_eq_some.mpr found
    have member := List.mem_map_of_mem (f := fun entry => (File.ofSlice entry.2).map File.aggr) entry
    rw [stored, List.mem_singleton] at member
    simp only [decoded, Option.map_some, block] at member
    exact absurd member (by decide)
  · rw [free] at isFree
    cases isFree

end KTableFS.Fs
