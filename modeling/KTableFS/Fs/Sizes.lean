/-
# Fs.Sizes -- file sizes over several handles

A handle decides from its own copy of the file whether a write grows it, and then
stores that copy.  `Session` runs the requests of one client at a time and remembers
the acknowledged writes; `View` is the part of it that sizes depend on, and
`View.Change` the five things a request can do to that part.

As long as every copy of a file reports its size, a growing write keeps it so exactly
when its handle is the only one for the name: `View.GrowsAlone`.  Otherwise the other
handles keep the old size, and the next of them to grow its own copy stores it.
-/
import KTableFS.Theory.Run
import KTableFS.Fs.Requests

namespace KTableFS.Fs

open KTableFS.Theory
open KTableFS.Kvengine (Slice Store)

set_option autoImplicit false

/-! ## Sessions -/

/-- A file system with the key and `off + count` of every acknowledged write. -/
structure Session where
  fs : FsState
  acked : List (FileKey × Nat)

inductive Act where
  | mknod (parent : FuseIno) (name : Slice) (mode now : UInt32)
  | mkdir (parent : FuseIno) (name : Slice) (mode now : UInt32)
  | lookup (parent : FuseIno) (name : Slice)
  /-- `Write` through the handle at an address. -/
  | write (addr : Nat) (data : Slice) (off : Nat) (now : UInt32)
  /-- `WriteBuf` through a handle, with the result of `fuse_buf_copy`. -/
  | writeBuf (addr : Nat) (data : Slice) (off : Nat) (res : Int) (now : UInt32)
  | getAttr (ino : FuseIno)

namespace Session

def new (stat : Stat) (slabSize : Nat) (now : UInt32) : Session := ⟨.new stat slabSize now, []⟩

/-- A reply to a write through a handle is remembered if it acknowledges one. -/
def note (s : Session) (addr off : Nat) (out : FsState × Reply) : Session × Reply :=
  match s.fs.handles[addr]?, out.2 with
  | some handle, .write count => (⟨out.1, s.acked ++ [(handle.key, count + off)]⟩, out.2)
  | _, _ => (⟨out.1, s.acked⟩, out.2)

def next (s : Session) : Act → Option (Session × Reply)
  | .mknod parent name mode now =>
      (s.fs.mknod parent name mode now).map fun out => (⟨out.1, s.acked⟩, out.2)
  | .mkdir parent name mode now =>
      (s.fs.mkdir parent name mode now).map fun out => (⟨out.1, s.acked⟩, out.2)
  | .lookup parent name => (s.fs.lookup parent name).map fun out => (⟨out.1, s.acked⟩, out.2)
  | .write addr data off now => (s.fs.write (.handle addr) data off now).map (s.note addr off)
  | .writeBuf addr data off res now =>
      (s.fs.writeBuf (.handle addr) data off res now).map (s.note addr off)
  | .getAttr ino => (s.fs.getAttr ino).map fun out => (⟨out.1, s.acked⟩, out.2)

end Session

/-- The largest `off + count` of the acknowledged writes to a file. -/
def ackedSize (acked : List (FileKey × Nat)) (key : FileKey) : Nat :=
  acked.foldl (fun size write => if write.1 = key then max size write.2 else size) 0

/-- Every stored record and every handle of a file has its size. -/
structure Session.SizesKept (s : Session) : Prop where
  stored : ∀ (key : FileKey) (value : Slice), s.fs.db[key.toSlice]? = some value →
    ∃ file, File.ofSlice value = some file ∧ file.stSize.toNat = ackedSize s.acked key
  reported : ∀ (addr : Nat) (handle : FileHandle), s.fs.handles[addr]? = some handle →
    ∃ attr, s.fs.getAttr (.handle addr) = some (s.fs, .attr attr) ∧
      attr.stSize.toNat = ackedSize s.acked handle.key

/-! ## What sizes depend on -/

structure View where
  db : Store
  files : List File
  handles : List FileHandle
  acked : List (FileKey × Nat)

def Session.view (s : Session) : View := ⟨s.fs.db, s.fs.files, s.fs.handles, s.acked⟩

/-- The handle and the end of a write that gets as far as its acknowledgement. -/
def Act.writeEnd : Act → Option (Nat × Nat)
  | .write addr data off _ => if data = [] then none else some (addr, data.length + off)
  | .writeBuf addr _ off res _ => if res < 0 then none else some (addr, res.toNat + off)
  | _ => none

namespace View

/-- A write ends inside its handle's copy, or no other handle has its key. -/
def GrowsAlone (v : View) : Option (Nat × Nat) → Prop
  | none => True
  | some (addr, ending) => ∀ handle ∈ v.handles[addr]?,
      (∀ file ∈ v.files[handle.file]?, ending ≤ file.stSize.toNat) ∨
        ∀ other < v.handles.length, ∀ sibling ∈ v.handles[other]?,
          sibling.key = handle.key → other = addr

instance (v : View) : (ending : Option (Nat × Nat)) → Decidable (v.GrowsAlone ending)
  | none => .isTrue trivial
  | some _ => inferInstanceAs (Decidable (∀ handle ∈ _, _ ∨ _))

/-- What a request can do. -/
inductive Change (v : View) : Option (Nat × Nat) → View → Prop
  | idle : Change v none v
  | created {key : FileKey} {file : File} {value : Slice} (fresh : v.db[key.toSlice]? = none)
      (empty : file.stSize = 0) (encoded : file.toSlice = some value) :
      Change v none
        { v with
          db := v.db.insert key.toSlice value
          files := v.files ++ [file]
          handles := v.handles ++ [⟨v.files.length, key⟩] }
  | opened {key : FileKey} {file : File} {value : Slice} (stored : v.db[key.toSlice]? = some value)
      (decoded : File.ofSlice value = some file) :
      Change v none
        { v with
          files := v.files ++ [file]
          handles := v.handles ++ [⟨v.files.length, key⟩] }
  | covered {addr ending : Nat} {handle : FileHandle} {file : File}
      (named : v.handles[addr]? = some handle) (points : v.files[handle.file]? = some file)
      (inside : ending ≤ file.stSize.toNat) :
      Change v (some (addr, ending)) { v with acked := v.acked ++ [(handle.key, ending)] }
  | grown {addr ending : Nat} {handle : FileHandle} {file file' : File} {value : Slice}
      (named : v.handles[addr]? = some handle) (points : v.files[handle.file]? = some file)
      (behind : file.stSize.toNat < ending) (size : file'.stSize.toNat = ending)
      (encoded : file'.toSlice = some value) :
      Change v (some (addr, ending))
        { v with
          db := v.db.insert handle.key.toSlice value
          files := v.files.set handle.file file'
          acked := v.acked ++ [(handle.key, ending)] }

/-- Handles have files of their own and keys that are stored; so have the writes. -/
structure Sound (v : View) : Prop where
  counted : v.files.length = v.handles.length + 1
  owned : ∀ (addr : Nat) (handle : FileHandle), v.handles[addr]? = some handle →
    handle.file = addr + 1
  keyed : ∀ handle ∈ v.handles, (v.db[handle.key.toSlice]?).isSome
  noted : ∀ write ∈ v.acked, (v.db[write.1.toSlice]?).isSome

structure Kept (v : View) : Prop where
  stored : ∀ (key : FileKey) (value : Slice), v.db[key.toSlice]? = some value →
    ∃ file, File.ofSlice value = some file ∧ file.stSize.toNat = ackedSize v.acked key
  copied : ∀ handle ∈ v.handles,
    ∃ file, v.files[handle.file]? = some file ∧ file.stSize.toNat = ackedSize v.acked handle.key

end View

/-! ## One request -/

theorem ackedSize_append (acked : List (FileKey × Nat)) (key other : FileKey) (ending : Nat) :
    ackedSize (acked ++ [(key, ending)]) other =
      if key = other then max (ackedSize acked other) ending else ackedSize acked other := by
  simp [ackedSize]

/-- No write to a file leaves it empty. -/
theorem ackedSize_of_unnoted {acked : List (FileKey × Nat)} {key : FileKey}
    (unnoted : ∀ write ∈ acked, write.1 ≠ key) : ackedSize acked key = 0 := by
  induction acked using List.reverseRecOn with
  | nil => rfl
  | append_singleton acked write ih =>
      obtain ⟨other, ending⟩ := write
      have differ : other ≠ key := unnoted (other, ending) (by simp)
      rw [ackedSize_append, if_neg differ]
      exact ih fun earlier member => unnoted earlier (List.mem_append_left _ member)

namespace View

variable {v v' : View} {ending : Option (Nat × Nat)}

theorem insert_isSome {db : Store} {key other value : Slice} (stored : (db[other]?).isSome) :
    ((db.insert key value)[other]?).isSome := by
  rw [Store.getElem?_insert]
  split
  · rfl
  · exact stored

/-- A handle to a new file is sound. -/
theorem Sound.opened (sound : v.Sound) {key : FileKey} (file : File)
    (stored : (v.db[key.toSlice]?).isSome) :
    Sound { v with files := v.files ++ [file], handles := v.handles ++ [⟨v.files.length, key⟩] } := by
  obtain ⟨counted, owned, keyed, noted⟩ := sound
  refine ⟨by simp [counted], ?_, ?_, noted⟩
  · intro addr handle named
    simp only [List.getElem?_append] at named
    split at named
    · exact owned addr handle named
    · have last := List.getElem?_eq_some_iff.mp named
      obtain ⟨bound, rfl⟩ := last
      simp only [List.length_singleton] at bound
      simp only [List.getElem_singleton, counted]
      omega
  · intro handle member
    rcases List.mem_append.mp member with old | new
    · exact keyed handle old
    · rw [List.mem_singleton.mp new]
      exact stored

theorem Sound.change (sound : v.Sound) (change : v.Change ending v') : v'.Sound := by
  cases change with
  | idle => exact sound
  | @created key file value fresh empty encoded =>
      let stored : View := { v with db := v.db.insert key.toSlice value }
      have sound' : stored.Sound := ⟨sound.counted, sound.owned,
        fun handle member => insert_isSome (sound.keyed handle member),
        fun write member => insert_isSome (sound.noted write member)⟩
      exact sound'.opened file (by simp [stored])
  | opened stored decoded => exact sound.opened _ (by simp [stored])
  | @covered addr ending handle file named points inside =>
      refine ⟨sound.counted, sound.owned, sound.keyed, ?_⟩
      intro write member
      rcases List.mem_append.mp member with old | new
      · exact sound.noted write old
      · rw [List.mem_singleton.mp new]
        exact sound.keyed handle (List.mem_of_getElem? named)
  | @grown addr ending handle file file' value named points behind size encoded =>
      refine ⟨by simp [sound.counted], sound.owned,
        fun other member => insert_isSome (sound.keyed other member), ?_⟩
      intro write member
      apply insert_isSome
      rcases List.mem_append.mp member with old | new
      · exact sound.noted write old
      · rw [List.mem_singleton.mp new]
        exact sound.keyed handle (List.mem_of_getElem? named)

/-- A handle to the stored file reports what is stored. -/
theorem Kept.opened (kept : v.Kept) {key : FileKey} {file : File}
    (size : file.stSize.toNat = ackedSize v.acked key) :
    Kept { v with files := v.files ++ [file], handles := v.handles ++ [⟨v.files.length, key⟩] } := by
  refine ⟨kept.stored, ?_⟩
  intro handle member
  rcases List.mem_append.mp member with old | new
  · obtain ⟨copy, points, copied⟩ := kept.copied handle old
    exact ⟨copy, by rw [List.getElem?_append_left (List.getElem?_eq_some_iff.mp points).1, points],
      copied⟩
  · rw [List.mem_singleton.mp new]
    exact ⟨file, by simp, size⟩

/-- A growing write keeps the sizes exactly when no other handle has its key. -/
theorem Kept.grown (kept : v.Kept) (sound : v.Sound) {addr ending : Nat} {handle : FileHandle}
    {file file' : File} {value : Slice} (named : v.handles[addr]? = some handle)
    (points : v.files[handle.file]? = some file) (behind : file.stSize.toNat < ending)
    (size : file'.stSize.toNat = ending) (encoded : file'.toSlice = some value) :
    (∀ other < v.handles.length, ∀ sibling ∈ v.handles[other]?,
        sibling.key = handle.key → other = addr) ↔
      Kept { v with
        db := v.db.insert handle.key.toSlice value
        files := v.files.set handle.file file'
        acked := v.acked ++ [(handle.key, ending)] } := by
  have old : file.stSize.toNat = ackedSize v.acked handle.key := by
    obtain ⟨copy, points', size⟩ := kept.copied handle (List.mem_of_getElem? named)
    rw [points, Option.some.injEq] at points'
    exact points' ▸ size
  have grew : ackedSize (v.acked ++ [(handle.key, ending)]) handle.key = ending := by
    rw [ackedSize_append, if_pos rfl]
    omega
  have apart : ∀ {other : Nat} {sibling : FileHandle}, v.handles[other]? = some sibling →
      other ≠ addr → (v.files.set handle.file file')[sibling.file]? = v.files[sibling.file]? := by
    intro other sibling found differ
    have := sound.owned other sibling found
    have := sound.owned addr handle named
    exact List.getElem?_set_ne (by omega)
  constructor
  · intro alone
    refine ⟨?_, ?_⟩
    · intro key value' found
      simp only [Store.getElem?_insert] at found
      split at found
      · rename_i same
        cases found
        rw [FileKey.toSlice_injective same, grew]
        exact ⟨file', File.ofSlice_toSlice encoded, size⟩
      · rename_i differ
        have other : handle.key ≠ key := fun same => differ (same ▸ rfl)
        rw [ackedSize_append, if_neg other]
        exact kept.stored key value' found
    · intro sibling member
      obtain ⟨other, found⟩ := List.mem_iff_getElem?.mp member
      by_cases same : other = addr
      · subst same
        rw [found, Option.some.injEq] at named
        subst named
        rw [grew]
        have bound := (List.getElem?_eq_some_iff.mp points).1
        exact ⟨file', List.getElem?_set_self bound, size⟩
      · have bound := (List.getElem?_eq_some_iff.mp found).1
        have differ : handle.key ≠ sibling.key := fun equal =>
          same (alone other bound sibling found equal.symm)
        rw [ackedSize_append, if_neg differ, apart found same]
        exact kept.copied sibling member
  · intro kept' other _ sibling found sameKey
    by_contra differ
    -- the copy of the other handle is the one it had before
    obtain ⟨copy, points', size'⟩ := kept'.copied sibling (List.mem_of_getElem? found)
    obtain ⟨copy', points'', size''⟩ := kept.copied sibling (List.mem_of_getElem? found)
    rw [apart found differ, points'', Option.some.injEq] at points'
    rw [sameKey, grew] at size'
    rw [sameKey, ← old, points'] at size''
    omega

/-- **One request.**  Sizes that were kept stay kept exactly when a growing write goes
through the only handle of its name. -/
theorem Kept.change (kept : v.Kept) (sound : v.Sound) (change : v.Change ending v') :
    v.GrowsAlone ending ↔ v'.Kept := by
  cases change with
  | idle => exact iff_of_true trivial kept
  | @created key file value fresh empty encoded =>
      refine iff_of_true trivial ?_
      have size : ackedSize v.acked key = 0 := by
        apply ackedSize_of_unnoted
        rintro write member rfl
        have present := sound.noted write member
        simp [fresh] at present
      have kept' : Kept { v with db := v.db.insert key.toSlice value } := by
        refine ⟨?_, kept.copied⟩
        intro other value' found
        simp only [Store.getElem?_insert] at found
        split at found
        · rename_i same
          cases found
          rw [FileKey.toSlice_injective same]
          exact ⟨file, File.ofSlice_toSlice encoded, by simp [empty, size]⟩
        · exact kept.stored other value' found
      exact kept'.opened (by simp [empty, size])
  | @opened key file value stored decoded =>
      refine iff_of_true trivial ?_
      obtain ⟨file', decoded', size⟩ := kept.stored key value stored
      rw [decoded, Option.some.injEq] at decoded'
      exact kept.opened (decoded' ▸ size)
  | @covered addr ending handle file named points inside =>
      have alone : v.GrowsAlone (some (addr, ending)) := by
        rintro _ at'
        rw [named, Option.mem_some_iff] at at'
        subst at'
        refine Or.inl ?_
        intro _ followed
        rw [points, Option.mem_some_iff] at followed
        exact followed ▸ inside
      refine iff_of_true alone ?_
      obtain ⟨copy, points', size⟩ := kept.copied handle (List.mem_of_getElem? named)
      rw [points, Option.some.injEq] at points'
      subst points'
      have same : ∀ key, ackedSize (v.acked ++ [(handle.key, ending)]) key = ackedSize v.acked key := by
        intro key
        rw [ackedSize_append]
        split
        · rename_i equal
          subst equal
          omega
        · rfl
      refine ⟨?_, ?_⟩
      · intro key value found
        simp only [same]
        exact kept.stored key value found
      · intro other member
        simp only [same]
        exact kept.copied other member
  | @grown addr ending handle file file' value named points behind size encoded =>
      rw [← kept.grown sound named points behind size encoded]
      constructor
      · intro alone
        rcases alone handle named with inside | alone
        · have := inside file points
          omega
        · exact alone
      · intro alone handle' at'
        rw [named, Option.mem_some_iff] at at'
        exact at' ▸ Or.inr alone

end View

/-! ## The requests of the source -/

namespace FsState

variable {fs fs' : FsState} {reply : Reply}

def view (fs : FsState) (acked : List (FileKey × Nat)) : View :=
  ⟨fs.db, fs.files, fs.handles, acked⟩

/-- A new file is empty, and only the counters know of it. -/
theorem newFile_spec (fs : FsState) (type : BitVec 4) (mode now : UInt32) :
    (fs.newFile type mode now).1.stSize = 0 ∧
      (fs.newFile type mode now).2.openFile = fs.openFile ∧
      ∀ acked, (fs.newFile type mode now).2.view acked = fs.view acked := by
  unfold newFile
  simp only
  split
  · exact ⟨rfl, rfl, fun _ => rfl⟩
  · exact ⟨rfl, rfl, fun _ => rfl⟩

theorem create_change {parent : FuseIno} {name : Slice} {mode now : UInt32}
    (taken : fs.create parent name mode now = some (fs', reply)) (acked : List (FileKey × Nat)) :
    fs'.openFile = fs.openFile ∧ (fs.view acked).Change none (fs'.view acked) := by
  obtain ⟨empty, openFile, same⟩ := fs.newFile_spec File.regular mode now
  unfold create at taken
  generalize fs.newFile File.regular mode now = out at empty openFile same taken
  obtain ⟨file, mid⟩ := out
  simp only [Option.bind_eq_bind, Option.bind_eq_some_iff] at taken
  obtain ⟨parentHandle, -, parentFile, -, value, encoded, taken⟩ := taken
  rw [Store.submit_put] at taken
  rw [← openFile, ← same acked]
  by_cases present : mid.db.contains (FileKey.ofName parentFile.stIno name).toSlice = true
  · simp only [present, if_true, Kvengine.eexist, Option.some.injEq] at taken
    obtain ⟨_, rfl, taken⟩ := taken
    simp only [Int.reduceNeg, Int.reduceLT, if_true, Option.some.injEq, Prod.mk.injEq] at taken
    obtain ⟨rfl, -⟩ := taken
    exact ⟨rfl, .idle⟩
  · simp only [present, Bool.false_eq_true, if_false, Option.some.injEq] at taken
    obtain ⟨_, rfl, taken⟩ := taken
    simp only [lt_irrefl, if_false, newHandle, indexInsert, Option.some.injEq, Prod.mk.injEq] at taken
    obtain ⟨rfl, -⟩ := taken
    refine ⟨rfl, .created ?_ empty encoded⟩
    rw [Store.contains_iff, not_exists] at present
    exact Option.eq_none_iff_forall_ne_some.mpr present

theorem lookup_change {parent : FuseIno} {name : Slice} (unindexed : fs.openFile = [])
    (taken : fs.lookup parent name = some (fs', reply)) (acked : List (FileKey × Nat)) :
    fs'.openFile = fs.openFile ∧ (fs.view acked).Change none (fs'.view acked) := by
  have missed : ∀ key, fs.indexFind key = none := by simp [indexFind, unindexed]
  simp only [lookup, missed, Store.submit_get, Option.bind_eq_bind, Option.bind_eq_some_iff,
    Option.some.injEq] at taken
  obtain ⟨parentHandle, -, parentFile, -, _, rfl, taken⟩ := taken
  cases found : fs.db[(FileKey.ofName parentFile.stIno name).toSlice]? with
  | none =>
      simp only [found, Option.isSome_none, Bool.false_eq_true, if_false, Kvengine.enoent,
        Int.reduceNeg, Int.reduceLT, if_true, Option.some.injEq, Prod.mk.injEq] at taken
      obtain ⟨rfl, -⟩ := taken
      exact ⟨rfl, .idle⟩
  | some value =>
      simp only [found, Option.isSome_some, if_true, lt_irrefl, if_false, Option.bind_eq_some_iff,
        Option.some.injEq] at taken
      obtain ⟨_, rfl, file, decoded, taken⟩ := taken
      have shape : fs' = (fs.newHandle file (FileKey.ofName parentFile.stIno name)).2 := by
        split at taken
        · simp only [indexInsert, Option.some.injEq, Prod.mk.injEq] at taken
          exact taken.1.symm
        · simp only [Option.some.injEq, Prod.mk.injEq] at taken
          exact taken.1.symm
      subst shape
      exact ⟨rfl, .opened found decoded⟩

/-- What the end of a write does, acknowledged as a write of `count` bytes. -/
theorem written_change {addr count off : Nat} {handle : FileHandle} {file : File} {now : UInt32}
    (taken : fs.written handle file count off now = some (fs', reply))
    (named : fs.handles[addr]? = some handle) (points : fs.files[handle.file]? = some file)
    (keyed : fs.db[handle.key.toSlice]?.isSome) (acked : List (FileKey × Nat)) :
    reply = .write count ∧ fs'.openFile = fs.openFile ∧
      (fs.view acked).Change (some (addr, count + off))
        (fs'.view (acked ++ [(handle.key, count + off)])) := by
  unfold written at taken
  split at taken
  · cases taken
  · rename_i noOverflow
    split at taken
    · rename_i behind
      simp only [Store.submit_update, Option.bind_eq_bind, Option.bind_eq_some_iff] at taken
      obtain ⟨value, encoded, taken⟩ := taken
      have present : fs.db.contains handle.key.toSlice = true := by
        rwa [Std.TreeMap.contains_eq_isSome_getElem?]
      simp only [present, if_true, Option.some.injEq] at taken
      obtain ⟨_, rfl, taken⟩ := taken
      simp only [if_true, Option.some.injEq, Prod.mk.injEq] at taken
      obtain ⟨rfl, rfl⟩ := taken
      have size : (UInt64.ofNat (count + off)).toNat = count + off := by
        rw [UInt64.toNat_ofNat']
        omega
      exact ⟨rfl, rfl, .grown named points behind size encoded⟩
    · rename_i inside
      simp only [Option.some.injEq, Prod.mk.injEq] at taken
      obtain ⟨rfl, rfl⟩ := taken
      exact ⟨rfl, rfl, .covered named points (by omega)⟩

end FsState

namespace Session

variable {s s' : Session} {a : Act} {reply : Reply}

theorem next_change (unindexed : s.fs.openFile = []) (sound : s.view.Sound) (taken : s.next a = some (s', reply)) :
    s'.fs.openFile = [] ∧ s.view.Change a.writeEnd s'.view := by
  cases a with
  | mknod parent name mode now =>
      simp only [next, Option.map_eq_some_iff, Prod.mk.injEq] at taken
      obtain ⟨out, made, rfl, -⟩ := taken
      obtain ⟨openFile, change⟩ := FsState.create_change made s.acked
      exact ⟨openFile.trans unindexed, change⟩
  | mkdir parent name mode now =>
      simp only [next, Option.map_eq_some_iff, Prod.mk.injEq] at taken
      obtain ⟨out, made, rfl, -⟩ := taken
      obtain ⟨openFile, change⟩ := FsState.create_change made s.acked
      exact ⟨openFile.trans unindexed, change⟩
  | lookup parent name =>
      simp only [next, Option.map_eq_some_iff, Prod.mk.injEq] at taken
      obtain ⟨out, found, rfl, -⟩ := taken
      obtain ⟨openFile, change⟩ := FsState.lookup_change unindexed found s.acked
      exact ⟨openFile.trans unindexed, change⟩
  | getAttr ino =>
      simp only [next, FsState.getAttr, Option.bind_eq_bind, Option.map_eq_some_iff,
        Option.bind_eq_some_iff, Option.some.injEq, Prod.mk.injEq] at taken
      obtain ⟨_, ⟨_, -, _, -, rfl⟩, rfl, -⟩ := taken
      exact ⟨unindexed, .idle⟩
  | write addr data off now =>
      simp only [next, FsState.write, FsState.handle, FsState.file, Option.bind_eq_bind,
        Option.map_eq_some_iff, Option.bind_eq_some_iff] at taken
      obtain ⟨⟨fs, answer⟩, ⟨handle, named, file, points, fileData, -, wrote⟩, noted⟩ := taken
      simp only [note, named] at noted
      split at wrote
      · rename_i some'
        obtain ⟨rfl, openFile, change⟩ := FsState.written_change wrote named points
          (sound.keyed handle (List.mem_of_getElem? named)) s.acked
        simp only [Prod.mk.injEq] at noted
        obtain ⟨rfl, -⟩ := noted
        rw [Act.writeEnd, if_neg (List.ne_nil_of_length_pos some')]
        exact ⟨openFile.trans unindexed, change⟩
      · rename_i empty
        simp only [Option.some.injEq, Prod.mk.injEq] at wrote
        obtain ⟨rfl, rfl⟩ := wrote
        simp only [Prod.mk.injEq] at noted
        obtain ⟨rfl, -⟩ := noted
        rw [Act.writeEnd, if_pos (List.eq_nil_of_length_eq_zero (by omega))]
        exact ⟨unindexed, .idle⟩
  | writeBuf addr data off res now =>
      simp only [next, FsState.writeBuf, FsState.handle, FsState.file, Option.bind_eq_bind,
        Option.map_eq_some_iff, Option.bind_eq_some_iff] at taken
      obtain ⟨⟨fs, answer⟩, ⟨handle, named, file, points, ⟨out, fileData⟩, -, wrote⟩, noted⟩ := taken
      simp only [note, named] at noted
      split at wrote
      · rename_i failed
        simp only [Option.some.injEq, Prod.mk.injEq] at wrote
        obtain ⟨rfl, rfl⟩ := wrote
        simp only [Prod.mk.injEq] at noted
        obtain ⟨rfl, -⟩ := noted
        rw [Act.writeEnd, if_pos failed]
        exact ⟨unindexed, .idle⟩
      · rename_i copied
        obtain ⟨rfl, openFile, change⟩ := FsState.written_change wrote named points
          (sound.keyed handle (List.mem_of_getElem? named)) s.acked
        simp only [Prod.mk.injEq] at noted
        obtain ⟨rfl, -⟩ := noted
        rw [Act.writeEnd, if_neg copied]
        exact ⟨openFile.trans unindexed, change⟩

/-- `GetAttr` reports the size of the handle's copy. -/
theorem sizesKept_iff (s : Session) : s.SizesKept ↔ s.view.Kept := by
  constructor
  · rintro ⟨stored, reported⟩
    refine ⟨stored, ?_⟩
    intro handle member
    obtain ⟨addr, named⟩ := List.mem_iff_getElem?.mp member
    obtain ⟨attr, answered, size⟩ := reported addr handle named
    simp only [FsState.getAttr, FsState.handle, FsState.file, Option.bind_eq_bind,
      Option.bind_eq_some_iff, Option.some.injEq, Prod.mk.injEq, Reply.attr.injEq] at answered
    obtain ⟨handle', named', file, points, -, rfl⟩ := answered
    rw [show s.fs.handles[addr]? = some handle from named, Option.some.injEq] at named'
    subst named'
    exact ⟨file, points, size⟩
  · rintro ⟨stored, copied⟩
    refine ⟨stored, ?_⟩
    intro addr handle named
    obtain ⟨file, points, size⟩ := copied handle (List.mem_of_getElem? named)
    refine ⟨s.fs.fuseEntry file, ?_, size⟩
    have points : s.fs.files[handle.file]? = some file := points
    simp [FsState.getAttr, FsState.handle, FsState.file, named, points]

theorem new_sound (stat : Stat) (slabSize : Nat) (now : UInt32) :
    (new stat slabSize now).view.Sound := by
  refine ⟨rfl, ?_, ?_, ?_⟩
  · intro addr handle named
    simp [view, new, FsState.new] at named
  · intro handle member
    simp [view, new, FsState.new] at member
  · intro write member
    simp [view, new] at member

theorem new_kept (stat : Stat) (slabSize : Nat) (now : UInt32) :
    (new stat slabSize now).SizesKept := by
  refine ⟨?_, ?_⟩
  · intro key value stored
    simp [new, FsState.new] at stored
  · intro addr handle named
    simp [new, FsState.new] at named

end Session

/-- **File sizes.**  In every run, the stored size and the size every handle reports
are the largest end of the acknowledged writes in all states on the way if and only
if every growing write went through the only handle of its name. -/
theorem sizes_kept_iff (stat : Stat) (slabSize : Nat) (start : UInt32) {acts : List Act}
    {s : Session} {replies : List Reply}
    (ran : Run.run Session.next (.new stat slabSize start) acts = some (s, replies)) :
    Run.Along Session.next (fun s a => s.view.GrowsAlone a.writeEnd)
        (.new stat slabSize start) acts ↔
      ∀ n s' replies', Run.run Session.next (.new stat slabSize start) (acts.take n) =
        some (s', replies') → s'.SizesKept := by
  have preserved : ∀ (s : Session) (a : Act) (s' : Session) (reply : Reply),
      s.fs.openFile = [] ∧ s.view.Sound → s.next a = some (s', reply) →
        s'.fs.openFile = [] ∧ s'.view.Sound := by
    rintro s a s' reply ⟨unindexed, sound⟩ taken
    obtain ⟨unindexed', change⟩ := Session.next_change unindexed sound taken
    exact ⟨unindexed', sound.change change⟩
  refine Run.along_iff preserved ?_ ⟨rfl, Session.new_sound ..⟩ (Session.new_kept ..) ran
  rintro s a s' reply ⟨unindexed, sound⟩ kept taken
  rw [Session.sizesKept_iff] at kept ⊢
  exact kept.change sound (Session.next_change unindexed sound taken).2

/-- The data directory of the runs below. -/
def exampleStat : Stat := ⟨0x41ed, 2, 4096, 0, 0, 0, 0, 4096⟩

/-- A file written through its first handle, looked up again, and then only
overwritten through the second one. -/
theorem sizes_kept_iff_example :
    ∃ s replies, Run.run Session.next (.new exampleStat 8192 0)
      [.mknod .root [97] 0x81a4 1, .write 0 [1, 2, 3] 0 2, .lookup .root [97],
        .write 1 [9] 1 3, .getAttr (.handle 1)] = some (s, replies) ∧ s.SizesKept := by
  have ends : (Run.run Session.next (.new exampleStat 8192 0)
      [.mknod .root [97] 0x81a4 1, .write 0 [1, 2, 3] 0 2, .lookup .root [97],
        .write 1 [9] 1 3, .getAttr (.handle 1)]).isSome := by
    decide +kernel
  obtain ⟨⟨s, replies⟩, ran⟩ := Option.isSome_iff_exists.mp ends
  have kept := (sizes_kept_iff exampleStat 8192 0 ran).mp (by decide +kernel)
  exact ⟨s, replies, ran, kept 5 s replies ran⟩

/-- Two handles for one name: three bytes through the first, then one through the
second, whose copy is still empty.  The file is stored as one byte long. -/
theorem sizes_shrink_over_two_handles :
    ¬ ∀ (acts : List Act) (s : Session) (replies : List Reply),
      Run.run Session.next (.new exampleStat 8192 0) acts = some (s, replies) → s.SizesKept := by
  intro claim
  have ends : (Run.run Session.next (.new exampleStat 8192 0)
      [.mknod .root [97] 0x81a4 1, .lookup .root [97], .write 0 [1, 2, 3] 0 2,
        .write 1 [9] 0 3]).map (fun out => out.1.acked) =
      some [(.ofName 1 [97], 3), (.ofName 1 [97], 1)] := by
    decide +kernel
  have shrunk : (Run.run Session.next (.new exampleStat 8192 0)
      [.mknod .root [97] 0x81a4 1, .lookup .root [97], .write 0 [1, 2, 3] 0 2,
        .write 1 [9] 0 3]).bind (fun out => out.1.fs.db[(FileKey.ofName 1 [97]).toSlice]?.bind
          fun value => (File.ofSlice value).map fun file => file.stSize.toNat) = some 1 := by
    decide +kernel
  obtain ⟨⟨s, replies⟩, ran, acked⟩ := Option.map_eq_some_iff.mp ends
  simp only at acked
  rw [ran] at shrunk
  simp only [Option.bind_some, Option.bind_eq_some_iff, Option.map_eq_some_iff] at shrunk
  obtain ⟨value, stored, file, decoded, size⟩ := shrunk
  obtain ⟨file', decoded', size'⟩ := (claim _ s replies ran).stored _ value stored
  rw [decoded, Option.some.injEq] at decoded'
  rw [← decoded', size, acked] at size'
  exact absurd size' (by decide)

end KTableFS.Fs
