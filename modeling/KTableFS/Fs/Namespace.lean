/-
# Fs.Namespace -- the names as a map from directory and name to files

`Namespace` is what a client that sees nothing but the replies knows: the inode number each
handle was returned with, and the successful creations.  It is the map the names are meant to
be: `find` gives the creation of a name in the directory with an inode number, and `Answers`
says what the map requires of a reply.

Behind it lie several handles to one directory, each with a decoded copy of the record, and
keys of an inode number, a hash and a name.  `Named` is the simulation between the two:
every name that was created, and no other, is stored under its key, with the attributes its
creation was answered with.

`names_are_a_map`: every request of every run is answered as the map requires.  The inode
numbers come from a counter of 64 bits, so they are distinct, and none is that of the root,
as long as fewer than `2 ^ 64` creations were asked for; the one after that gets the root's.
-/
import KTableFS.Theory.Run
import KTableFS.Fs.Requests

namespace KTableFS.Fs

open KTableFS.Theory
open KTableFS.Kvengine (Slice Store)

set_option autoImplicit false

inductive NameAct where
  | mknod (parent : FuseIno) (name : Slice) (mode now : UInt32)
  | mkdir (parent : FuseIno) (name : Slice) (mode now : UInt32)
  | lookup (parent : FuseIno) (name : Slice)

namespace NameAct

def parent : NameAct → FuseIno
  | mknod parent _ _ _ => parent
  | mkdir parent _ _ _ => parent
  | lookup parent _ => parent

def name : NameAct → Slice
  | mknod _ name _ _ => name
  | mkdir _ name _ _ => name
  | lookup _ name => name

/-- The mode of the file a request is to create. -/
def creates : NameAct → Option UInt32
  | mknod _ _ mode _ => some mode
  | mkdir _ _ mode _ => some (mode ||| FsState.sIfdir)
  | lookup _ _ => none

/-- The mode asked for fits its field. -/
def Narrow : NameAct → Prop
  | mknod _ _ mode _ => mode.toNat < 2 ^ 20
  | mkdir _ _ mode _ => mode.toNat < 2 ^ 20
  | lookup _ _ => True

theorem Narrow.creates {act : NameAct} (narrow : act.Narrow) {mode : UInt32}
    (creates : act.creates = some mode) : mode.toNat < 2 ^ 20 := by
  cases act with
  | mknod parent name mode' now =>
      cases creates
      exact narrow
  | mkdir parent name mode' now =>
      cases creates
      rw [UInt32.toNat_or]
      exact Nat.or_lt_two_pow narrow (by decide)
  | lookup parent name => cases creates

end NameAct

/-- One request, answered. -/
def FsState.serve (fs : FsState) : NameAct → Option (FsState × Reply)
  | .mknod parent name mode now => fs.mknod parent name mode now
  | .mkdir parent name mode now => fs.mkdir parent name mode now
  | .lookup parent name => fs.lookup parent name

/-! ## What the replies tell -/

/-- A successful creation: the directory's inode number, the name, and the attributes it was
answered with. -/
structure Creation where
  dir : UInt64
  name : Slice
  attr : Attr

structure Namespace where
  /-- The inode number a handle was returned with. -/
  ino : FuseIno → Option UInt64
  created : List Creation

namespace Namespace

def start : Namespace where
  ino
    | .root => some 1
    | .handle _ => none
  created := []

def observe (ns : Namespace) (step : NameAct × Reply) : Namespace :=
  match step.2 with
  | .entry handle attr =>
      { ino := Function.update ns.ino handle (some attr.stIno)
        created := match step.1.creates, ns.ino step.1.parent with
          | some _, some dir => ns.created ++ [⟨dir, step.1.name, attr⟩]
          | _, _ => ns.created }
  | _ => ns

/-- The namespace after requests and their replies. -/
def after (trail : List (NameAct × Reply)) : Namespace := trail.foldl observe start

/-- The creation of a name in a directory. -/
def find (ns : Namespace) (dir : UInt64) (name : Slice) : Option Creation :=
  ns.created.find? fun c => c.dir = dir ∧ c.name = name

/-- What the map requires of a reply. -/
def Answers (ns : Namespace) (act : NameAct) (reply : Reply) : Prop :=
  ∃ dir, ns.ino act.parent = some dir ∧
    match act.creates, ns.find dir act.name with
    | some _, some _ => reply = .err 17
    | some mode, none => ∃ handle attr, reply = .entry handle attr ∧ attr.stMode.toNat = mode.toNat ∧
        attr.stNlink = if mode &&& FsState.sIfdir != 0 then 2 else 1
    | none, none => reply = .err 2
    | none, some c => ∃ handle attr, reply = .entry handle attr ∧ attr.stIno = c.attr.stIno ∧
        attr.stMode = c.attr.stMode ∧ attr.stNlink = c.attr.stNlink

theorem after_append (trail : List (NameAct × Reply)) (step : NameAct × Reply) :
    after (trail ++ [step]) = (after trail).observe step := by
  rw [after, List.foldl_append]
  rfl

end Namespace

/-! ## The map and the store -/

/-- The record of a file answers with these attributes. -/
structure Attr.Describes (attr : Attr) (file : File) : Prop where
  ino : attr.stIno = file.stIno
  mode : attr.stMode = file.stMode
  nlink : attr.stNlink = file.stNlink

def nameKey (dir : UInt64) (name : Slice) : Slice := (FileKey.ofName dir name).toSlice

theorem nameKey_inj {dir dir' : UInt64} {name name' : Slice} :
    nameKey dir name = nameKey dir' name' ↔ dir = dir' ∧ name = name' := by
  constructor
  · intro same
    have := FileKey.toSlice_injective same
    simp only [FileKey.ofName, FileKey.mk.injEq] at this
    exact ⟨this.1, this.2.2⟩
  · rintro ⟨rfl, rfl⟩
    rfl

/-- The handles the replies returned are the handles, each to a file with its number. -/
structure Handles (ino : FuseIno → Option UInt64) (fs : FsState) : Prop where
  valid : ∀ addr handle, fs.handle addr = some handle → (fs.file handle).isSome
  returned : ∀ addr, ino addr = (fs.handle addr).bind fun handle => (fs.file handle).map File.stIno

/-- The file system stores the namespace. -/
structure Named (ns : Namespace) (fs : FsState) : Prop where
  unindexed : fs.openFile = []
  root : ns.ino .root = some 1
  handles : Handles ns.ino fs
  absent : ∀ dir name, ns.find dir name = none → fs.db[nameKey dir name]? = none
  present : ∀ dir name c, ns.find dir name = some c → ∃ file : File,
    fs.db[nameKey dir name]? = some file.bytes ∧ file.type = File.regular ∧ c.attr.Describes file

theorem Handles.of_ino {ino : FuseIno → Option UInt64} {fs : FsState} (handles : Handles ino fs)
    {addr : FuseIno} {dir : UInt64} (known : ino addr = some dir) :
    ∃ handle file, fs.handle addr = some handle ∧ fs.file handle = some file ∧ file.stIno = dir := by
  rw [handles.returned] at known
  obtain ⟨handle, named, known⟩ := Option.bind_eq_some_iff.mp known
  obtain ⟨file, points, rfl⟩ := Option.map_eq_some_iff.mp known
  exact ⟨handle, file, named, points, rfl⟩

/-- A new handle to a new file, returned by a reply. -/
theorem Handles.opened {ino : FuseIno → Option UInt64} {fs fs' : FsState} (handles : Handles ino fs)
    {file : File} {key : FileKey} (root : fs'.root = fs.root) (files : fs'.files = fs.files ++ [file])
    (added : fs'.handles = fs.handles ++ [⟨fs.files.length, key⟩]) :
    Handles (Function.update ino (.handle fs.handles.length) (some file.stIno)) fs' := by
  have old : ∀ addr, addr ≠ .handle fs.handles.length → fs'.handle addr = fs.handle addr := by
    intro addr other
    cases addr with
    | root => exact congrArg some root
    | handle at' =>
        have differ : at' ≠ fs.handles.length := fun same => other (congrArg _ same)
        simp only [FsState.handle, added]
        rw [List.getElem?_append]
        split
        · rfl
        · next behind =>
            rw [List.getElem?_eq_none (by simp; omega), List.getElem?_eq_none (by omega)]
  have new : fs'.handle (.handle fs.handles.length) = some ⟨fs.files.length, key⟩ := by
    simp [FsState.handle, added]
  have kept : ∀ addr handle, fs.handle addr = some handle → fs'.file handle = fs.file handle := by
    intro addr handle named
    obtain ⟨pointed, points⟩ := Option.isSome_iff_exists.mp (handles.valid addr handle named)
    rw [FsState.file, files, List.getElem?_append_left (List.getElem?_eq_some_iff.mp points).1]
    rfl
  have newest : fs'.file ⟨fs.files.length, key⟩ = some file := by
    simp [FsState.file, files]
  constructor
  · intro addr handle named
    by_cases same : addr = .handle fs.handles.length
    · subst same
      rw [new] at named
      cases named
      rw [newest]
      rfl
    · rw [old addr same] at named
      rw [kept addr handle named]
      exact handles.valid addr handle named
  · intro addr
    by_cases same : addr = .handle fs.handles.length
    · subst same
      rw [Function.update_self, new, Option.bind_some, newest]
      rfl
    · rw [Function.update_of_ne same, old addr same, handles.returned]
      cases named : fs.handle addr with
      | none => rfl
      | some handle => rw [Option.bind_some, Option.bind_some, kept addr handle named]

namespace Namespace

/-- Of a name that was not there. -/
theorem find_created {ns : Namespace} {c : Creation} (new : ns.find c.dir c.name = none)
    (ino : FuseIno → Option UInt64) (dir : UInt64) (name : Slice) :
    find ⟨ino, ns.created ++ [c]⟩ dir name =
      if dir = c.dir ∧ name = c.name then some c else ns.find dir name := by
  simp only [find, List.find?_append]
  split
  · next same =>
      obtain ⟨rfl, rfl⟩ := same
      rw [find] at new
      rw [new]
      simp
  · next other =>
      have differ : ¬ (c.dir = dir ∧ c.name = name) := fun same => other ⟨same.1.symm, same.2.symm⟩
      simp [differ]

end Namespace

namespace FsState

variable {fs : FsState} {ns : Namespace}

theorem newFile_attr (fs : FsState) (mode now : UInt32) :
    (fs.newFile File.regular mode now).1.type = File.regular ∧
      (fs.newFile File.regular mode now).1.stIno = fs.curIno + 1 ∧
      (fs.newFile File.regular mode now).1.stMode = .ofNat 20 mode.toNat ∧
      (fs.newFile File.regular mode now).1.stNlink = (if mode &&& sIfdir != 0 then 2 else 1) ∧
      (fs.newFile File.regular mode now).2 = { fs with
        curIno := fs.curIno + 1
        fileData := (fs.newFile File.regular mode now).2.fileData } := by
  unfold newFile
  simp only
  split
  · exact ⟨rfl, rfl, rfl, rfl, rfl⟩
  · exact ⟨rfl, rfl, rfl, rfl, rfl⟩

theorem serve_create {act : NameAct} {mode : UInt32} (creates : act.creates = some mode) :
    ∃ now, fs.serve act = fs.create act.parent act.name mode now := by
  cases act with
  | mknod parent name mode' now =>
      cases creates
      exact ⟨now, rfl⟩
  | mkdir parent name mode' now =>
      cases creates
      exact ⟨now, rfl⟩
  | lookup parent name => cases creates

theorem serve_lookup {act : NameAct} (creates : act.creates = none) :
    fs.serve act = fs.lookup act.parent act.name := by
  cases act with
  | lookup parent name => rfl
  | _ => cases creates

/-- A request that has a result was given a handle. -/
theorem known_of_serve {act : NameAct} {out : FsState × Reply} (named : Named ns fs)
    (served : fs.serve act = some out) : ∃ dir, ns.ino act.parent = some dir := by
  have parent : ∃ handle file, fs.handle act.parent = some handle ∧ fs.file handle = some file := by
    cases creates : act.creates with
    | some mode =>
        obtain ⟨now, same⟩ := @serve_create fs act mode creates
        exact parent_of_create (same ▸ served)
    | none =>
        rw [serve_lookup creates, FsState.lookup, Option.bind_eq_bind, Option.bind_eq_some_iff] at served
        obtain ⟨handle, isHandle, served⟩ := served
        obtain ⟨file, points, -⟩ := Option.bind_eq_some_iff.mp served
        exact ⟨handle, file, isHandle, points⟩
  obtain ⟨handle, file, isHandle, points⟩ := parent
  exact ⟨file.stIno, by simp [named.handles.returned, isHandle, points]⟩

/-- What a request does, answered with a reply. -/
structure Served (ns : Namespace) (fs : FsState) (act : NameAct) (fs' : FsState) (reply : Reply) :
    Prop where
  answers : ns.Answers act reply
  named : Named (ns.observe (act, reply)) fs'
  counted : fs'.curIno = fs.curIno + if act.creates.isSome then 1 else 0
  created : (ns.observe (act, reply)).created = ns.created ∨ act.creates.isSome ∧ ∃ c,
    (ns.observe (act, reply)).created = ns.created ++ [c] ∧ c.name = act.name ∧
      c.attr.stIno = fs.curIno + 1

/-- **A creation**: refused if the name is there, and otherwise the name is there now. -/
theorem create_served {act : NameAct} {mode : UInt32} (named : Named ns fs) (narrow : act.Narrow)
    (creates : act.creates = some mode) {dir : UInt64} (known : ns.ino act.parent = some dir) :
    ∃ fs' reply, fs.serve act = some (fs', reply) ∧ Served ns fs act fs' reply := by
  obtain ⟨now, serves⟩ := @serve_create fs act mode creates
  obtain ⟨handle, parentFile, isHandle, points, isDir⟩ := named.handles.of_ino known
  obtain ⟨type, ino, stMode, nlink, made⟩ := newFile_attr fs mode now
  have fits := narrow.creates creates
  rw [serves, create_eq isHandle points, isDir]
  simp only
  generalize (fs.newFile File.regular mode now).1 = file at type ino stMode nlink
  generalize (fs.newFile File.regular mode now).2 = mid at made
  cases found : ns.find dir act.name with
  | some c =>
      obtain ⟨record, stored, -⟩ := named.present dir act.name c found
      have taken : fs.db.contains (FileKey.ofName dir act.name).toSlice = true :=
        (Store.contains_iff _ _).mpr ⟨_, stored⟩
      rw [if_pos taken]
      have same : ns.observe (act, .err 17) = ns := rfl
      refine ⟨mid, .err 17, rfl, ⟨dir, known, by simp only [creates, found]⟩, ?_, ?_, Or.inl rfl⟩
      · rw [same, made]
        exact ⟨named.unindexed, named.root, ⟨named.handles.valid, named.handles.returned⟩, named.absent,
          named.present⟩
      · rw [made, creates]
        rfl
  | none =>
      have free : ¬ fs.db.contains (FileKey.ofName dir act.name).toSlice = true := by
        rw [Store.contains_iff]
        rintro ⟨value, stored⟩
        cases (named.absent dir act.name found).symm.trans stored
      rw [if_neg free]
      have observed : ns.observe (act, .entry (.handle fs.handles.length) (fs.fuseEntry file)) =
          ⟨Function.update ns.ino (.handle fs.handles.length) (some file.stIno),
            ns.created ++ [⟨dir, act.name, fs.fuseEntry file⟩]⟩ := by
        simp only [Namespace.observe, creates, known]
        rfl
      refine ⟨_, _, rfl, ⟨dir, known, ?_⟩, ?_, ?_, 
        Or.inr ⟨by rw [creates]; rfl, _, by rw [observed], rfl, ino⟩⟩
      · simp only [creates, found]
        refine ⟨_, _, rfl, ?_, nlink⟩
        show file.stMode.toNat = mode.toNat
        rw [stMode, BitVec.toNat_ofNat, Nat.mod_eq_of_lt fits]
      · rw [observed]
        have entries := @Namespace.find_created ns ⟨dir, act.name, fs.fuseEntry file⟩ found
          (Function.update ns.ino (.handle fs.handles.length) (some file.stIno))
        constructor
        · rw [made]
          exact named.unindexed
        · exact named.root
        · exact named.handles.opened (by rw [made]) rfl rfl
        · intro d name isNone
          rw [entries] at isNone
          split at isNone
          · cases isNone
          · next other =>
              have differ : nameKey d name ≠ nameKey dir act.name := fun same => other (nameKey_inj.mp same)
              show (fs.db.insert (nameKey dir act.name) file.bytes)[nameKey d name]? = none
              rw [Store.getElem?_insert, if_neg differ]
              exact named.absent d name isNone
        · intro d name c isSome
          rw [entries] at isSome
          show ∃ record : File, (fs.db.insert (nameKey dir act.name) file.bytes)[nameKey d name]? =
            some record.bytes ∧ record.type = File.regular ∧ c.attr.Describes record
          split at isSome
          · next same =>
              cases isSome
              refine ⟨file, ?_, type, ⟨rfl, rfl, rfl⟩⟩
              rw [Store.getElem?_insert, if_pos (nameKey_inj.mpr same)]
          · next other =>
              have differ : nameKey d name ≠ nameKey dir act.name := fun same => other (nameKey_inj.mp same)
              rw [Store.getElem?_insert, if_neg differ]
              exact named.present d name c isSome
      · rw [creates]
        show mid.curIno = _
        rw [made]
        rfl

/-- **A lookup** finds the name if it is there, with the attributes it was created with. -/
theorem lookup_served {act : NameAct} (named : Named ns fs) (creates : act.creates = none)
    {dir : UInt64} (known : ns.ino act.parent = some dir) :
    ∃ fs' reply, fs.serve act = some (fs', reply) ∧ Served ns fs act fs' reply := by
  obtain ⟨handle, parentFile, isHandle, points, isDir⟩ := named.handles.of_ino known
  rw [serve_lookup creates, lookup_eq isHandle points named.unindexed, isDir]
  simp only
  have still : fs.curIno = fs.curIno + if act.creates.isSome then 1 else 0 := by
    rw [creates]
    simp
  cases found : ns.find dir act.name with
  | none =>
      have free : fs.db[(FileKey.ofName dir act.name).toSlice]? = none := named.absent dir act.name found
      rw [free]
      exact ⟨fs, .err 2, rfl, ⟨dir, known, by simp only [creates, found]⟩, named, still, Or.inl rfl⟩
  | some c =>
      obtain ⟨file, stored, type, describes⟩ := named.present dir act.name c found
      have stored : fs.db[(FileKey.ofName dir act.name).toSlice]? = some file.bytes := stored
      have encoded : file.toSlice = some file.bytes := by
        rw [File.toSlice, File.isSymlink, File.isRegular, type]
        rfl
      have regular : file.isRegular = true := by
        rw [File.isRegular, type]
        rfl
      rw [stored]
      simp only [File.ofSlice_toSlice encoded, Option.map_some, regular, if_true]
      have observed : ns.observe (act, .entry (.handle fs.handles.length) (fs.fuseEntry file)) =
          ⟨Function.update ns.ino (.handle fs.handles.length) (some file.stIno), ns.created⟩ := by
        simp only [Namespace.observe, creates]
        rfl
      refine ⟨_, _, rfl, ⟨dir, known, ?_⟩, ?_, still, Or.inl (by rw [observed])⟩
      · simp only [creates, found]
        exact ⟨_, _, rfl, describes.ino.symm, describes.mode.symm, describes.nlink.symm⟩
      · rw [observed]
        exact ⟨named.unindexed, named.root, named.handles.opened rfl rfl rfl, named.absent, named.present⟩

/-- **Every request of a known directory is answered as the map requires.** -/
theorem serve_served {act : NameAct} (named : Named ns fs) (narrow : act.Narrow) {dir : UInt64}
    (known : ns.ino act.parent = some dir) :
    ∃ fs' reply, fs.serve act = some (fs', reply) ∧ Served ns fs act fs' reply := by
  cases creates : act.creates with
  | some mode => exact create_served named narrow creates known
  | none => exact lookup_served named creates known

theorem named_new (stat : Stat) (slabSize : Nat) (now : UInt32) :
    Named .start (.new stat slabSize now) where
  unindexed := rfl
  root := rfl
  handles := by
    constructor
    · intro addr handle isHandle
      cases addr with
      | root =>
          cases isHandle
          rfl
      | handle at' => cases isHandle
    · intro addr
      cases addr with
      | root => rfl
      | handle at' => rfl
  absent _ _ _ := rfl
  present _ _ _ found := by cases found

end FsState

/-! ## Inode numbers -/

/-- The creations asked for. -/
def asked (acts : List NameAct) : Nat := acts.countP fun act => act.creates.isSome

/-- The numbers given out are those of the counter, which started behind the root's. -/
structure Numbered (count : Nat) (ns : Namespace) (fs : FsState) : Prop where
  counter : fs.curIno = .ofNat (1 + count)
  each : ∀ c ∈ ns.created, ∃ k, 1 ≤ k ∧ k ≤ count ∧ c.attr.stIno = .ofNat (1 + k)
  distinct : count < 2 ^ 64 → (ns.created.map fun c => c.attr.stIno).Nodup

/-- Two values of the counter are the same only if it has run over. -/
theorem counter_ne {k count : Nat} (before : k < count) (narrow : count < 2 ^ 64) :
    UInt64.ofNat (1 + k) ≠ .ofNat (1 + count) := by
  intro same
  have value := congrArg UInt64.toNat same
  simp only [UInt64.toNat_ofNat'] at value
  omega

theorem Numbered.served {count : Nat} {ns : Namespace} {fs fs' : FsState} {act : NameAct} {reply : Reply}
    (numbered : Numbered count ns fs) (served : FsState.Served ns fs act fs' reply) :
    Numbered (count + if act.creates.isSome then 1 else 0) (ns.observe (act, reply)) fs' := by
  have next : fs.curIno + 1 = .ofNat (1 + (count + 1)) := by
    rw [numbered.counter, ← Nat.add_assoc, UInt64.ofNat_add (1 + count) 1]
    rfl
  rcases served.created with same | ⟨creates, c, same, -, ino⟩
  · constructor
    · rw [served.counted]
      split
      · exact next
      · simpa using numbered.counter
    · intro c member
      obtain ⟨k, positive, before, number⟩ := numbered.each c (same ▸ member)
      exact ⟨k, positive, by omega, number⟩
    · intro narrow
      rw [same]
      exact numbered.distinct (by omega)
  · rw [if_pos creates]
    constructor
    · rw [served.counted, if_pos creates, next]
    · intro d member
      rw [same] at member
      rcases List.mem_append.mp member with old | new
      · obtain ⟨k, positive, before, number⟩ := numbered.each d old
        exact ⟨k, positive, by omega, number⟩
      · rw [List.mem_singleton.mp new, ino, next]
        exact ⟨count + 1, by omega, le_rfl, rfl⟩
    · intro narrow
      rw [same, List.map_append, List.nodup_append]
      refine ⟨numbered.distinct (by omega), List.nodup_singleton _, ?_⟩
      intro number old other new
      obtain ⟨d, member, rfl⟩ := List.mem_map.mp old
      obtain ⟨k, positive, before, number⟩ := numbered.each d member
      rw [List.map_singleton, List.mem_singleton] at new
      rw [new, ino, next, number]
      exact counter_ne (by omega) narrow

/-- The two invariants over any run. -/
theorem named_of_run {stat : Stat} {slabSize : Nat} {now : UInt32} {acts : List NameAct} {fs : FsState}
    {replies : List Reply} (narrow : ∀ act ∈ acts, act.Narrow)
    (ran : Run.run FsState.serve (.new stat slabSize now) acts = some (fs, replies)) :
    Named (.after (acts.zip replies)) fs ∧ Numbered (asked acts) (.after (acts.zip replies)) fs := by
  have start : Named (.after []) (.new stat slabSize now) ∧
      Numbered (asked (List.map Prod.fst ([] : List (NameAct × Reply)))) (.after [])
        (.new stat slabSize now) :=
    ⟨FsState.named_new stat slabSize now, rfl, fun c member => absurd member List.not_mem_nil,
      fun _ => List.nodup_nil⟩
  have step : ∀ (trail : List (NameAct × Reply)) (fs : FsState) (act : NameAct) (fs' : FsState)
      (reply : Reply),
      Named (.after trail) fs ∧ Numbered (asked (trail.map Prod.fst)) (.after trail) fs → act.Narrow →
        fs.serve act = some (fs', reply) →
        Named (.after (trail ++ [(act, reply)])) fs' ∧
          Numbered (asked ((trail ++ [(act, reply)]).map Prod.fst)) (.after (trail ++ [(act, reply)])) fs' := by
    intro trail fs act fs' reply inv fits served
    obtain ⟨dir, known⟩ := FsState.known_of_serve inv.1 served
    obtain ⟨fs'', reply', served', spec⟩ := FsState.serve_served inv.1 fits known
    cases served.symm.trans served'
    rw [Namespace.after_append]
    refine ⟨spec.named, ?_⟩
    have numbered := inv.2.served spec
    simpa only [asked, List.map_append, List.map_singleton, List.countP_append, List.countP_singleton]
      using numbered
  have kept := Run.trail step start narrow ran
  rw [List.nil_append, List.map_fst_zip (Run.length_run ran).ge] at kept
  exact kept

/-- **The names are a map**, in every run of `Mknod`, `Mkdir` and `Lookup`: whatever is asked
of a directory a reply has named is answered as the map requires of what was created so far.
Fewer than `2 ^ 64` creations asked for, the inode numbers are distinct and not the root's. -/
theorem names_are_a_map (stat : Stat) (slabSize : Nat) (now : UInt32) {acts : List NameAct} {fs : FsState}
    {replies : List Reply} (narrow : ∀ act ∈ acts, act.Narrow)
    (ran : Run.run FsState.serve (.new stat slabSize now) acts = some (fs, replies)) :
    (∀ act : NameAct, act.Narrow → ((Namespace.after (acts.zip replies)).ino act.parent).isSome →
      ∃ fs' reply, fs.serve act = some (fs', reply) ∧
        (Namespace.after (acts.zip replies)).Answers act reply) ∧
    (asked acts < 2 ^ 64 →
      ((Namespace.after (acts.zip replies)).created.map fun c => c.attr.stIno).Nodup ∧
        ∀ c ∈ (Namespace.after (acts.zip replies)).created, c.attr.stIno ≠ 1) := by
  obtain ⟨named, numbered⟩ := named_of_run narrow ran
  refine ⟨fun act fits known => ?_, fun few => ⟨numbered.distinct few, fun c member => ?_⟩⟩
  · obtain ⟨dir, known⟩ := Option.isSome_iff_exists.mp known
    obtain ⟨fs', reply, served, spec⟩ := FsState.serve_served named fits known
    exact ⟨fs', reply, served, spec.answers⟩
  · obtain ⟨k, positive, before, number⟩ := numbered.each c member
    rw [number]
    exact (counter_ne positive (lt_of_le_of_lt before few)).symm

/-- A directory, looked up; a file made in it through one handle and looked up through the
other; and the directory made again. -/
def browsing : List NameAct :=
  [.mkdir .root [100] 0 0, .lookup .root [100], .mknod (.handle 1) [97] 0 0, .lookup (.handle 0) [97],
    .mkdir .root [100] 0 0]

theorem names_are_a_map_browsing : ∃ fs replies,
    Run.run FsState.serve (.new ⟨0, 1, 0, 0, 0, 0, 0, 4096⟩ 64 0) browsing = some (fs, replies) ∧
      (∀ act : NameAct, act.Narrow → ((Namespace.after (browsing.zip replies)).ino act.parent).isSome →
        ∃ fs' reply, fs.serve act = some (fs', reply) ∧
          (Namespace.after (browsing.zip replies)).Answers act reply) ∧
      ((Namespace.after (browsing.zip replies)).created.map fun c => c.attr.stIno).Nodup := by
  have runs : (Run.run FsState.serve (.new ⟨0, 1, 0, 0, 0, 0, 0, 4096⟩ 64 0) browsing).isSome := by
    decide +kernel
  obtain ⟨⟨fs, replies⟩, ran⟩ := Option.isSome_iff_exists.mp runs
  have narrow : ∀ act ∈ browsing, act.Narrow := by
    simp [browsing, NameAct.Narrow]
  obtain ⟨answers, numbers⟩ := names_are_a_map _ 64 0 narrow ran
  exact ⟨fs, replies, ran, answers, (numbers (by decide)).1⟩

/-! ## The counter runs over -/

/-- A file in the root. -/
def named (name : Slice) : NameAct := .mknod .root name 0 0

theorem narrow_named (name : Slice) : (named name).Narrow :=
  show (0 : UInt32).toNat < 2 ^ 20 by decide

theorem narrow_again (n : Nat) : ∀ act ∈ List.replicate n (named [97]), act.Narrow := by
  intro act member
  rw [(List.mem_replicate.mp member).2]
  exact narrow_named [97]

section Overrun

variable (stat : Stat) (slabSize : Nat) (now : UInt32)

/-- One more request in the root, after a run. -/
theorem run_named {acts : List NameAct} {fs : FsState} {replies : List Reply} (name : Slice)
    (narrow : ∀ act ∈ acts, act.Narrow)
    (ran : Run.run FsState.serve (.new stat slabSize now) acts = some (fs, replies)) :
    ∃ fs' reply,
      Run.run FsState.serve (.new stat slabSize now) (acts ++ [named name]) =
        some (fs', replies ++ [reply]) ∧
      FsState.Served (.after (acts.zip replies)) fs (named name) fs' reply ∧
      Namespace.after ((acts ++ [named name]).zip (replies ++ [reply])) =
        (Namespace.after (acts.zip replies)).observe (named name, reply) := by
  obtain ⟨isNamed, -⟩ := named_of_run narrow ran
  obtain ⟨fs', reply, served, spec⟩ :=
    @FsState.serve_served fs _ (named name) isNamed (narrow_named name) _ isNamed.root
  refine ⟨fs', reply, ?_, spec, ?_⟩
  · exact Run.run_append_eq_some.mpr ⟨fs, replies, [reply], ran,
      Run.run_cons_eq_some.mpr ⟨fs', reply, [], served, rfl, rfl⟩, rfl⟩
  · rw [List.zip_append (Run.length_run ran).symm, List.zip_cons_cons, List.zip_nil_left,
      Namespace.after_append]

/-- The same name again and again: every request takes an inode number. -/
theorem run_again : ∀ n : Nat, ∃ fs replies,
    Run.run FsState.serve (.new stat slabSize now) (List.replicate n (named [97])) = some (fs, replies) ∧
    ∀ c ∈ (Namespace.after ((List.replicate n (named [97])).zip replies)).created, c.name = [97]
  | 0 => ⟨_, [], rfl, fun _ member => absurd member List.not_mem_nil⟩
  | n + 1 => by
      obtain ⟨fs, replies, ran, names⟩ := run_again n
      obtain ⟨fs', reply, ran', spec, after⟩ := run_named stat slabSize now [97] (narrow_again n) ran
      rw [List.replicate_succ']
      refine ⟨fs', replies ++ [reply], ran', fun c member => ?_⟩
      rw [after] at member
      rcases spec.created with same | ⟨-, d, same, name, -⟩
      · exact names c (same ▸ member)
      · rw [same] at member
        rcases List.mem_append.mp member with old | new
        · exact names c old
        · rw [List.mem_singleton.mp new]
          exact name

/-- Another name then gets the next number. -/
theorem run_another (n : Nat) : ∃ fs replies,
    Run.run FsState.serve (.new stat slabSize now) (List.replicate n (named [97]) ++ [named [98]]) =
      some (fs, replies) ∧
    ∃ c ∈ (Namespace.after ((List.replicate n (named [97]) ++ [named [98]]).zip replies)).created,
      c.attr.stIno = .ofNat (n + 2) := by
  obtain ⟨fs, replies, ran, names⟩ := run_again stat slabSize now n
  obtain ⟨isNamed, numbered⟩ := named_of_run (narrow_again n) ran
  obtain ⟨fs', reply, ran', spec, after⟩ := run_named stat slabSize now [98] (narrow_again n) ran
  refine ⟨fs', _, ran', ?_⟩
  rw [after]
  have count : asked (List.replicate n (named [97])) = n := by
    rw [asked, List.countP_replicate]
    exact if_pos rfl
  have new : (Namespace.after ((List.replicate n (named [97])).zip replies)).find 1 [98] = none := by
    rw [Namespace.find, List.find?_eq_none]
    intro c member
    simp [names c member]
  obtain ⟨dir, isDir, answer⟩ := spec.answers
  obtain rfl : dir = 1 := Option.some.inj (isDir.symm.trans isNamed.root)
  have creates : (named [98]).creates = some 0 := rfl
  have name : (named [98]).name = [98] := rfl
  simp only [creates, name, new] at answer
  obtain ⟨handle, attr, rfl, -⟩ := answer
  have observed : ((Namespace.after ((List.replicate n (named [97])).zip replies)).observe
      (named [98], .entry handle attr)).created =
      (Namespace.after ((List.replicate n (named [97])).zip replies)).created ++ [⟨1, [98], attr⟩] := by
    have root : (Namespace.after ((List.replicate n (named [97])).zip replies)).ino
        (named [98]).parent = some 1 := isNamed.root
    simp only [Namespace.observe, creates, name, root]
  rcases spec.created with same | ⟨-, c, same, -, ino⟩
  · rw [observed] at same
    simp at same
  · refine ⟨c, by rw [same]; simp, ?_⟩
    rw [ino, numbered.counter, count, show n + 2 = 1 + n + 1 by omega, UInt64.ofNat_add (1 + n) 1]
    rfl

end Overrun

/-- The creation after `2 ^ 64 - 1` others asked for gets the inode number of the root, also where
no name has more than 974 bytes. -/
theorem inode_number_of_root :
    ¬ ∀ (stat : Stat) (slabSize : Nat) (now : UInt32) (acts : List NameAct) (fs : FsState)
      (replies : List Reply), (∀ act ∈ acts, act.Narrow ∧ act.name.length ≤ 974) →
      Run.run FsState.serve (.new stat slabSize now) acts = some (fs, replies) →
      (∀ act : NameAct, act.Narrow → act.name.length ≤ 974 →
        ((Namespace.after (acts.zip replies)).ino act.parent).isSome →
        ∃ fs' reply, fs.serve act = some (fs', reply) ∧
          (Namespace.after (acts.zip replies)).Answers act reply) ∧
      ((Namespace.after (acts.zip replies)).created.map fun c => c.attr.stIno).Nodup ∧
        ∀ c ∈ (Namespace.after (acts.zip replies)).created, c.attr.stIno ≠ 1 := by
  intro always
  obtain ⟨fs, replies, ran, c, member, ino⟩ :=
    run_another ⟨0, 1, 0, 0, 0, 0, 0, 4096⟩ 64 0 (2 ^ 64 - 1)
  have narrow : ∀ act ∈ List.replicate (2 ^ 64 - 1) (named [97]) ++ [named [98]],
      act.Narrow ∧ act.name.length ≤ 974 := by
    intro act member
    rcases List.mem_append.mp member with again | another
    · refine ⟨narrow_again _ act again, ?_⟩
      rw [List.eq_of_mem_replicate again]
      decide
    · rw [List.mem_singleton.mp another]
      exact ⟨narrow_named [98], by decide⟩
  refine (always _ 64 0 _ fs replies narrow ran).2.2 c member ?_
  rw [ino]
  decide

end KTableFS.Fs
