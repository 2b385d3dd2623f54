/-
# Fs.Mount -- the file system on its database

A request function replies at once, or it submits one request to the database with a callback that
will reply (`Begun`).  `Begun.over` runs it over anything that serves requests.  Over the map of
`Kvengine.Store` this is the function that `Requests` models (`FsState.answer_eq`); over the workers
it is the program, down to the pages of their caches and the bytes of their slab files.

`mounted_of_run`: a client that waits for each reply gets the same replies from both, for as long as
the requests meet the conditions the workers need (`Mount.Safe`).
-/
import KTableFS.Fs.CopyRange
import KTableFS.Kvengine.Shares

namespace KTableFS.Fs

open KTableFS.Theory
open KTableFS.Kvengine (Slice Store Request Effect Workers Worker route)

set_option autoImplicit false

/-- What a request function has done when it returns. -/
inductive Begun where
  | replied (fs : FsState) (reply : Reply)
  | submitted (req : Request) (callback : Option Slice → Int → Option (FsState × Reply))

/-- The respond a callback gets. -/
def respondIn (effects : List Effect) : Option (Option Slice × Int) :=
  effects.findSome? fun
    | .respond _ data res => some (data, res)
    | _ => none

namespace FsState

/-! ## The request functions, up to `DB::Submit` -/

/-- `Mknod` and `Mkdir`, with `MknodCallback` and `MkdirCallback`. -/
def beginCreate (fs : FsState) (parent : FuseIno) (name : Slice) (mode now : UInt32) : Option Begun := do
  let (file, fs) := fs.newFile File.regular mode now
  let parentHandle ← fs.handle parent
  let parentFile ← fs.file parentHandle
  let key := FileKey.ofName parentFile.stIno name
  let value ← file.toSlice
  some (.submitted (.put key.toSlice value) fun _ res =>
    if res < 0 then some (fs, .err (-res))
    else
      let (ino, fs') := fs.newHandle file key
      some (fs'.indexInsert key fs.files.length, .entry ino (fs'.fuseEntry file)))

/-- `Lookup`, with `LookupCallback`. -/
def beginLookup (fs : FsState) (parent : FuseIno) (name : Slice) : Option Begun := do
  let parentHandle ← fs.handle parent
  let parentFile ← fs.file parentHandle
  let key := FileKey.ofName parentFile.stIno name
  match fs.indexFind key with
  | some addr =>
      let file ← fs.files[addr]?
      let fs' := { fs with handles := fs.handles ++ [⟨addr, key⟩] }
      some (.replied fs' (.entry (.handle fs.handles.length) (fs'.fuseEntry file)))
  | none =>
      some (.submitted (.get key.toSlice) fun data res =>
        if res < 0 then some (fs, .err (-res))
        else do
          let value ← data
          let file ← File.ofSlice value
          let (ino, fs') := fs.newHandle file key
          if file.isRegular then
            some (fs'.indexInsert key fs.files.length, .entry ino (fs'.fuseEntry file))
          else some (fs', .unanswered))

/-- The end of `Write`, `WriteBuf` and `CopyFileRange`, with `WriteCallback`. -/
def beginWritten (fs : FsState) (handle : FileHandle) (file : File) (count off : Nat) (now : UInt32) :
    Option Begun :=
  if 2 ^ 63 ≤ count + off then none
  else if file.stSize.toNat < count + off then do
    let file := { file with stSize := .ofNat (count + off), mtime := now }
    let value ← file.toSlice
    let fs := { fs with files := fs.files.set handle.file file }
    some (.submitted (.update handle.key.toSlice value) fun _ res =>
      if res = 0 then some (fs, .write count) else some (fs, .unanswered))
  else some (.replied fs (.write count))

def beginWrite (fs : FsState) (ino : FuseIno) (data : Slice) (off : Nat) (now : UInt32) : Option Begun := do
  let handle ← fs.handle ino
  let file ← fs.file handle
  let fileData ← fs.fileData.write file.extent data off
  let fs := { fs with fileData }
  if 0 < data.length then fs.beginWritten handle file data.length off now
  else some (.replied fs (.err 0))

def beginWriteBuf (fs : FsState) (ino : FuseIno) (data : Slice) (off : Nat) (res : Int) (now : UInt32) :
    Option Begun := do
  let handle ← fs.handle ino
  let file ← fs.file handle
  let (out, fileData) ← fs.fileData.writeBuf file.extent data.length off
  let fs := { fs with fileData := fileData.bufCopy out (data.take res.toNat) }
  if res < 0 then some (.replied fs (.err (-res)))
  else fs.beginWritten handle file res.toNat off now

def beginCopyFileRange (fs : FsState) (inoIn : FuseIno) (offIn : Nat) (inoOut : FuseIno)
    (offOut size : Nat) (now : UInt32) : Option Begun := do
  let handleIn ← fs.handle inoIn
  let handleOut ← fs.handle inoOut
  let fileIn ← fs.file handleIn
  let fileOut ← fs.file handleOut
  let srcs ← fs.fileData.readBuf fileIn.extent size offIn
  let (dsts, fileData) ← fs.fileData.writeBuf fileOut.extent size offOut
  let (fileData, res) := fileData.bufCopyFd srcs dsts
  beginWritten { fs with fileData } handleOut fileOut res offOut now

def begin (fs : FsState) : CopyAct → Option Begun
  | .act (.mknod parent name mode now) => fs.beginCreate parent name mode now
  | .act (.mkdir parent name mode now) => fs.beginCreate parent name (mode ||| sIfdir) now
  | .act (.lookup parent name) => fs.beginLookup parent name
  | .act (.write addr data off now) => fs.beginWrite (.handle addr) data off now
  | .act (.writeBuf addr data off res now) => fs.beginWriteBuf (.handle addr) data off res now
  | .act (.getAttr ino) => (fs.getAttr ino).map fun out => .replied out.1 out.2
  | .copy addrIn offIn addrOut offOut size now =>
      fs.beginCopyFileRange (.handle addrIn) offIn (.handle addrOut) offOut size now

/-- The same requests over the map. -/
def answer (fs : FsState) : CopyAct → Option (FsState × Reply)
  | .act (.mknod parent name mode now) => fs.mknod parent name mode now
  | .act (.mkdir parent name mode now) => fs.mkdir parent name mode now
  | .act (.lookup parent name) => fs.lookup parent name
  | .act (.write addr data off now) => fs.write (.handle addr) data off now
  | .act (.writeBuf addr data off res now) => fs.writeBuf (.handle addr) data off res now
  | .act (.getAttr ino) => fs.getAttr ino
  | .copy addrIn offIn addrOut offOut size now =>
      fs.copyFileRange (.handle addrIn) offIn (.handle addrOut) offOut size now

end FsState

/-- `DB::Submit` of the request, and the callback when it is answered. -/
def Begun.over {σ : Type} (submit : σ → Request → Option (σ × Option (Option Slice × Int))) (db : σ) :
    Begun → Option (σ × FsState × Reply)
  | .replied fs reply => some (db, fs, reply)
  | .submitted req callback => do
      let (db, respond) ← submit db req
      let (data, res) ← respond
      let (fs, reply) ← callback data res
      some (db, fs, reply)

/-- The same function on a state with another map. -/
def Begun.withDb (m : Store) : Begun → Begun
  | .replied fs reply => .replied { fs with db := m } reply
  | .submitted req callback => .submitted req fun data res =>
      (callback data res).map fun out => ({ out.1 with db := m }, out.2)

namespace FsState

/-! ## Nothing before `DB::Submit` looks at the database -/

section WithDb

variable (fs : FsState) (m : Store)

theorem handle_withDb (ino : FuseIno) : handle { fs with db := m } ino = fs.handle ino := by
  cases ino <;> rfl

theorem newFile_withDb (type : BitVec 4) (mode now : UInt32) : newFile { fs with db := m } type mode now =
    ((fs.newFile type mode now).1, { (fs.newFile type mode now).2 with db := m }) := by
  unfold newFile
  dsimp only
  split <;> rfl

/-- What is bound before `DB::Submit` is the same. -/
theorem bind_withDb {α : Type} {o : Option α} {f g : α → Option Begun} {m : Store}
    (each : ∀ a, f a = (g a).map (Begun.withDb m)) : o.bind f = (o.bind g).map (Begun.withDb m) := by
  cases o with
  | none => rfl
  | some a => exact each a

theorem beginCreate_withDb (parent : FuseIno) (name : Slice) (mode now : UInt32) :
    beginCreate { fs with db := m } parent name mode now =
      (fs.beginCreate parent name mode now).map (Begun.withDb m) := by
  rw [beginCreate, beginCreate, newFile_withDb]
  obtain ⟨file, mid⟩ := fs.newFile File.regular mode now
  simp only [Option.bind_eq_bind, handle_withDb]
  apply bind_withDb
  intro parentHandle
  apply bind_withDb
  intro parentFile
  apply bind_withDb
  intro value
  simp only [Option.map_some, Begun.withDb, Option.some.injEq, Begun.submitted.injEq, true_and]
  funext data res
  split <;> rfl

theorem beginLookup_withDb (parent : FuseIno) (name : Slice) :
    beginLookup { fs with db := m } parent name = (fs.beginLookup parent name).map (Begun.withDb m) := by
  have same : ∀ key, indexFind { fs with db := m } key = fs.indexFind key := fun _ => rfl
  rw [beginLookup, beginLookup]
  simp only [Option.bind_eq_bind, handle_withDb, same]
  apply bind_withDb
  intro parentHandle
  apply bind_withDb
  intro parentFile
  cases fs.indexFind (FileKey.ofName parentFile.stIno name) with
  | some addr =>
      apply bind_withDb
      intro file
      rfl
  | none =>
      simp only [Option.map_some, Begun.withDb, Option.some.injEq, Begun.submitted.injEq, true_and]
      funext data res
      split
      · rfl
      · cases data with
        | none => rfl
        | some value =>
            simp only [Option.bind_some]
            cases File.ofSlice value with
            | none => rfl
            | some file =>
                simp only [Option.bind_some, newHandle]
                split <;> rfl

theorem beginWritten_withDb (handle : FileHandle) (file : File) (count off : Nat) (now : UInt32) :
    beginWritten { fs with db := m } handle file count off now =
      (fs.beginWritten handle file count off now).map (Begun.withDb m) := by
  rw [beginWritten, beginWritten]
  split
  · rfl
  · split
    · apply bind_withDb
      intro value
      simp only [Option.map_some, Begun.withDb, Option.some.injEq, Begun.submitted.injEq, true_and]
      funext data res
      split <;> rfl
    · rfl

end WithDb

theorem beginWrite_withDb (fs : FsState) (m : Store) (ino : FuseIno) (data : Slice) (off : Nat) (now : UInt32) :
    beginWrite { fs with db := m } ino data off now =
      (fs.beginWrite ino data off now).map (Begun.withDb m) := by
  rw [beginWrite, beginWrite]
  simp only [Option.bind_eq_bind, handle_withDb]
  apply bind_withDb
  intro handle
  apply bind_withDb
  intro file
  apply bind_withDb
  intro fileData
  split
  · exact beginWritten_withDb { fs with fileData := fileData } m handle file data.length off now
  · rfl

theorem beginWriteBuf_withDb (fs : FsState) (m : Store) (ino : FuseIno) (data : Slice) (off : Nat) (res : Int)
    (now : UInt32) : beginWriteBuf { fs with db := m } ino data off res now =
      (fs.beginWriteBuf ino data off res now).map (Begun.withDb m) := by
  rw [beginWriteBuf, beginWriteBuf]
  simp only [Option.bind_eq_bind, handle_withDb]
  apply bind_withDb
  intro handle
  apply bind_withDb
  intro file
  apply bind_withDb
  rintro ⟨out, fileData⟩
  dsimp only
  split
  · rfl
  · exact beginWritten_withDb { fs with fileData := fileData.bufCopy out (data.take res.toNat) } m handle file
      res.toNat off now

theorem beginCopyFileRange_withDb (fs : FsState) (m : Store) (inoIn : FuseIno) (offIn : Nat) (inoOut : FuseIno)
    (offOut size : Nat) (now : UInt32) :
    beginCopyFileRange { fs with db := m } inoIn offIn inoOut offOut size now =
      (fs.beginCopyFileRange inoIn offIn inoOut offOut size now).map (Begun.withDb m) := by
  rw [beginCopyFileRange, beginCopyFileRange]
  simp only [Option.bind_eq_bind, handle_withDb]
  apply bind_withDb
  intro handleIn
  apply bind_withDb
  intro handleOut
  apply bind_withDb
  intro fileIn
  apply bind_withDb
  intro fileOut
  apply bind_withDb
  intro srcs
  apply bind_withDb
  rintro ⟨dsts, fileData⟩
  exact beginWritten_withDb { fs with fileData := (fileData.bufCopyFd srcs dsts).1 } m handleOut fileOut
    (fileData.bufCopyFd srcs dsts).2 offOut now

/-- The database is only handed on. -/
theorem begin_withDb (fs : FsState) (m : Store) (act : CopyAct) :
    FsState.begin { fs with db := m } act = (fs.begin act).map (Begun.withDb m) := by
  cases act with
  | copy addrIn offIn addrOut offOut size now => exact beginCopyFileRange_withDb ..
  | act a =>
      cases a with
      | mknod parent name mode now => exact beginCreate_withDb ..
      | mkdir parent name mode now => exact beginCreate_withDb ..
      | lookup parent name => exact beginLookup_withDb ..
      | write addr data off now => exact beginWrite_withDb ..
      | writeBuf addr data off res now => exact beginWriteBuf_withDb ..
      | getAttr ino =>
          simp only [begin, getAttr, Option.bind_eq_bind, handle_withDb]
          cases fs.handle ino with
          | none => rfl
          | some handle =>
              simp only [Option.bind_some, FsState.file]
              cases fs.files[handle.file]? <;> rfl

/-! ## Over the map, the request functions are those of `Requests` -/

/-- A request function over the map. -/
def settle (m : Store) (begun : Option Begun) : Option (FsState × Reply) :=
  (begun.bind (Begun.over (fun m req => some (m.submit req)) m)).map fun out =>
    ({ out.2.1 with db := out.1 }, out.2.2)

theorem newFile_db (fs : FsState) (type : BitVec 4) (mode now : UInt32) :
    (fs.newFile type mode now).2.db = fs.db := by
  unfold newFile
  dsimp only
  split <;> rfl

theorem bind_settles {α : Type} {o : Option α} {f : α → Option (FsState × Reply)} {g : α → Option Begun}
    {m : Store} (each : ∀ a, f a = settle m (g a)) : o.bind f = settle m (o.bind g) := by
  cases o with
  | none => rfl
  | some a => exact each a

section Settle

variable (fs : FsState)

theorem create_settles (parent : FuseIno) (name : Slice) (mode now : UInt32) :
    fs.create parent name mode now = settle fs.db (fs.beginCreate parent name mode now) := by
  rw [create, beginCreate, ← newFile_db fs File.regular mode now]
  obtain ⟨file, mid⟩ := fs.newFile File.regular mode now
  apply bind_settles
  intro parentHandle
  apply bind_settles
  intro parentFile
  apply bind_settles
  intro value
  simp only [settle, Option.bind_some, Begun.over, Option.bind_eq_bind]
  cases (mid.db.submit (.put (FileKey.ofName parentFile.stIno name).toSlice value)).2 with
  | none => rfl
  | some respond =>
      simp only [Option.bind_some]
      split <;> rfl

theorem lookup_settles (parent : FuseIno) (name : Slice) :
    fs.lookup parent name = settle fs.db (fs.beginLookup parent name) := by
  rw [lookup, beginLookup]
  apply bind_settles
  intro parentHandle
  apply bind_settles
  intro parentFile
  dsimp only
  cases fs.indexFind (FileKey.ofName parentFile.stIno name) with
  | some addr =>
      apply bind_settles
      intro file
      rfl
  | none =>
      simp only [settle, Option.bind_some, Begun.over, Option.bind_eq_bind]
      cases (fs.db.submit (.get (FileKey.ofName parentFile.stIno name).toSlice)).2 with
      | none => rfl
      | some respond =>
          simp only [Option.bind_some]
          split
          · rfl
          · cases respond.1 with
            | none => rfl
            | some value =>
                simp only [Option.bind_some]
                cases File.ofSlice value with
                | none => rfl
                | some file =>
                    simp only [Option.bind_some, newHandle]
                    split <;> rfl

theorem written_settles (handle : FileHandle) (file : File) (count off : Nat) (now : UInt32) :
    fs.written handle file count off now = settle fs.db (fs.beginWritten handle file count off now) := by
  rw [written, beginWritten]
  split
  · rfl
  · split
    · apply bind_settles
      intro value
      simp only [settle, Option.bind_some, Begun.over, Option.bind_eq_bind]
      cases (fs.db.submit (.update handle.key.toSlice value)).2 with
      | none => rfl
      | some respond =>
          simp only [Option.bind_some]
          split <;> rfl
    · rfl

end Settle

theorem write_settles (fs : FsState) (ino : FuseIno) (data : Slice) (off : Nat) (now : UInt32) :
    fs.write ino data off now = settle fs.db (fs.beginWrite ino data off now) := by
  rw [write, beginWrite]
  apply bind_settles
  intro handle
  apply bind_settles
  intro file
  apply bind_settles
  intro fileData
  dsimp only
  split
  · exact written_settles { fs with fileData := fileData } handle file data.length off now
  · rfl

theorem writeBuf_settles (fs : FsState) (ino : FuseIno) (data : Slice) (off : Nat) (res : Int) (now : UInt32) :
    fs.writeBuf ino data off res now = settle fs.db (fs.beginWriteBuf ino data off res now) := by
  rw [writeBuf, beginWriteBuf]
  apply bind_settles
  intro handle
  apply bind_settles
  intro file
  apply bind_settles
  rintro ⟨out, fileData⟩
  dsimp only
  split
  · rfl
  · exact written_settles { fs with fileData := fileData.bufCopy out (data.take res.toNat) } handle file
      res.toNat off now

theorem copyFileRange_settles (fs : FsState) (inoIn : FuseIno) (offIn : Nat) (inoOut : FuseIno)
    (offOut size : Nat) (now : UInt32) : fs.copyFileRange inoIn offIn inoOut offOut size now =
      settle fs.db (fs.beginCopyFileRange inoIn offIn inoOut offOut size now) := by
  rw [copyFileRange, beginCopyFileRange]
  apply bind_settles
  intro handleIn
  apply bind_settles
  intro handleOut
  apply bind_settles
  intro fileIn
  apply bind_settles
  intro fileOut
  apply bind_settles
  intro srcs
  apply bind_settles
  rintro ⟨dsts, fileData⟩
  exact written_settles { fs with fileData := (fileData.bufCopyFd srcs dsts).1 } handleOut fileOut
    (fileData.bufCopyFd srcs dsts).2 offOut now

/-- **Over the map, a request function is the one of `Requests`.** -/
theorem answer_eq (fs : FsState) (act : CopyAct) : fs.answer act = settle fs.db (fs.begin act) := by
  cases act with
  | copy addrIn offIn addrOut offOut size now => exact copyFileRange_settles ..
  | act a =>
      cases a with
      | mknod parent name mode now => exact create_settles ..
      | mkdir parent name mode now => exact create_settles ..
      | lookup parent name => exact lookup_settles ..
      | write addr data off now => exact write_settles ..
      | writeBuf addr data off res now => exact writeBuf_settles ..
      | getAttr ino =>
          simp only [answer, begin, getAttr, Option.bind_eq_bind]
          cases fs.handle ino with
          | none => rfl
          | some handle =>
              simp only [Option.bind_some]
              cases fs.file handle <;> rfl

/-! ## What the file system asks of its database -/

/-- The request that is submitted. -/
def asks : Option Begun → Option Request
  | some (.submitted req _) => some req
  | _ => none

theorem asks_bind {α : Type} {o : Option α} {f : α → Option Begun} {req : Request}
    (asked : asks (o.bind f) = some req) : ∃ a, asks (f a) = some req := by
  cases o with
  | none => cases asked
  | some a => exact ⟨a, asked⟩

theorem beginWritten_point {fs : FsState} {handle : FileHandle} {file : File} {count off : Nat} {now : UInt32}
    {req : Request} (asked : asks (fs.beginWritten handle file count off now) = some req) :
    req.isPoint = true := by
  rw [beginWritten] at asked
  split at asked
  · cases asked
  · split at asked
    · obtain ⟨_, asked⟩ := asks_bind asked
      cases asked
      rfl
    · cases asked

/-- It never scans. -/
theorem begin_point {fs : FsState} {act : CopyAct} {req : Request} (asked : asks (fs.begin act) = some req) :
    req.isPoint = true := by
  have create : ∀ {parent name mode now}, asks (fs.beginCreate parent name mode now) = some req →
      req.isPoint = true := by
    intro parent name mode now asked
    rw [beginCreate] at asked
    obtain ⟨_, asked⟩ := asks_bind asked
    obtain ⟨_, asked⟩ := asks_bind asked
    obtain ⟨_, asked⟩ := asks_bind asked
    cases asked
    rfl
  cases act with
  | copy addrIn offIn addrOut offOut size now =>
      rw [begin, beginCopyFileRange] at asked
      obtain ⟨_, asked⟩ := asks_bind asked
      obtain ⟨_, asked⟩ := asks_bind asked
      obtain ⟨_, asked⟩ := asks_bind asked
      obtain ⟨_, asked⟩ := asks_bind asked
      obtain ⟨_, asked⟩ := asks_bind asked
      obtain ⟨_, asked⟩ := asks_bind asked
      exact beginWritten_point asked
  | act a =>
      cases a with
      | mknod parent name mode now => exact create asked
      | mkdir parent name mode now => exact create asked
      | lookup parent name =>
          rw [begin, beginLookup] at asked
          obtain ⟨_, asked⟩ := asks_bind asked
          obtain ⟨_, asked⟩ := asks_bind asked
          dsimp only at asked
          split at asked
          · obtain ⟨_, asked⟩ := asks_bind asked
            cases asked
          · cases asked
            rfl
      | write addr data off now =>
          rw [begin, beginWrite] at asked
          obtain ⟨_, asked⟩ := asks_bind asked
          obtain ⟨_, asked⟩ := asks_bind asked
          obtain ⟨_, asked⟩ := asks_bind asked
          dsimp only at asked
          split at asked
          · exact beginWritten_point asked
          · cases asked
      | writeBuf addr data off res now =>
          rw [begin, beginWriteBuf] at asked
          obtain ⟨_, asked⟩ := asks_bind asked
          obtain ⟨_, asked⟩ := asks_bind asked
          obtain ⟨_, asked⟩ := asks_bind asked
          dsimp only at asked
          split at asked
          · cases asked
          · exact beginWritten_point asked
      | getAttr ino =>
          rw [begin] at asked
          cases got : fs.getAttr ino with
          | none =>
              rw [got] at asked
              cases asked
          | some out =>
              rw [got] at asked
              cases asked

end FsState

/-! ## The file system over the workers -/

/-- A file system with its database; the map of `fs` is not used. -/
structure Mount (σ : Type) where
  fs : FsState
  db : σ

namespace Mount

def next {σ : Type} (submit : σ → Request → Option (σ × Option (Option Slice × Int))) (mount : Mount σ)
    (act : CopyAct) : Option (Mount σ × Reply) :=
  ((mount.fs.begin act).bind (Begun.over submit mount.db)).map fun out => (⟨out.2.1, out.1⟩, out.2.2)

section Workers

variable {n : Nat} (split : Slice → Nat → Nat)

/-- `DB::Submit` of a batch of one request, until it is answered. -/
def submit (ws : Workers n) (req : Request) : Option (Workers n × Option (Option Slice × Int)) :=
  (ws.serveOne split req).map fun out => (out.1, respondIn out.2)

/-- The request that is submitted meets the conditions of its worker. -/
def Safe (mount : Mount (Workers n)) (act : CopyAct) : Prop :=
  ∀ req ∈ FsState.asks (mount.fs.begin act), mount.db.MapSafe split req

instance (mount : Mount (Workers n)) (act : CopyAct) : Decidable (mount.Safe split act) :=
  inferInstanceAs (Decidable (∀ req ∈ FsState.asks (mount.fs.begin act), mount.db.MapSafe split req))

/-- The workers hold the map of `fs`, and all else is the same. -/
structure Shows (mount : Mount (Workers n)) (fs : FsState) : Prop where
  holds : mount.db.Holds split fs.db
  rest : fs = { mount.fs with db := fs.db }

variable {split}

/-- **One request.** -/
theorem Shows.step (routed : ∀ key, split key n < n) {mount : Mount (Workers n)} {fs fs' : FsState}
    {act : CopyAct} {reply : Reply} (mounted : mount.Shows split fs) (safe : mount.Safe split act)
    (answered : fs.answer act = some (fs', reply)) :
    ∃ mount', mount.next (submit split) act = some (mount', reply) ∧ mount'.Shows split fs' := by
  have same := FsState.begin_withDb mount.fs fs.db act
  rw [← mounted.rest] at same
  rw [FsState.answer_eq, FsState.settle, same] at answered
  cases begun : mount.fs.begin act with
  | none =>
      rw [begun] at answered
      cases answered
  | some b =>
      rw [begun] at answered
      cases b with
      | replied fs₀ r =>
          cases answered
          exact ⟨⟨fs₀, mount.db⟩, by rw [next, begun]; rfl, mounted.holds, rfl⟩
      | submitted req callback =>
          have asked : FsState.asks (mount.fs.begin act) = some req := by rw [begun, FsState.asks]
          have point := FsState.begin_point asked
          have inRange : route split n req < n := by
            cases req with
            | scan => cases point
            | _ => exact routed _
          have unstopped : req.Unstopped := by
            cases req with
            | scan => cases point
            | _ => trivial
          obtain ⟨ws, served, holds⟩ := mounted.holds.step inRange unstopped (safe req asked)
          rw [Workers.storeStep, Store.serve_share_effects fs.db point] at served
          simp only [Option.map_some, Begun.withDb, Option.bind_some, Begun.over, Option.bind_eq_bind] at answered
          cases respond : respondIn (fs.db.serve req).2 with
          | none =>
              rw [show (fs.db.submit req).2 = none from respond] at answered
              cases answered
          | some out =>
              rw [show (fs.db.submit req).2 = some out from respond, Option.bind_some] at answered
              cases called : callback out.1 out.2 with
              | none =>
                  rw [called] at answered
                  cases answered
              | some after =>
                  rw [called] at answered
                  cases answered
                  refine ⟨⟨after.1, ws⟩, ?_, holds, rfl⟩
                  rw [next, begun]
                  simp [Begun.over, submit, served, respond, called]

end Workers

/-- A new file system over new workers. -/
def new (n : Nat) (workDir : String) (pages : Nat) (junk : Memory) (stat : Stat) (slabSize : Nat)
    (now : UInt32) : Mount (Workers n) :=
  ⟨.new stat slabSize now, fun k => .new k workDir pages junk⟩

/-- **The file system on its database is the file system on a map**: a client that waits for its replies
gets the same ones, and in the end the workers hold the map, each the keys that are routed to it. -/
theorem mounted_of_run {split : Slice → Nat → Nat} {n : Nat} (routed : ∀ key, split key n < n)
    (workDir : String) {pages : Nat} (two : 2 ≤ pages) (junk : Memory) (stat : Stat)
    (slabSize : Nat) (now : UInt32) {acts : List CopyAct} {fs : FsState} {replies : List Reply}
    (safe : Run.Along (next (submit split)) (Safe split) (new n workDir pages junk stat slabSize now) acts)
    (ran : Run.run FsState.answer (.new stat slabSize now) acts = some (fs, replies)) :
    ∃ mount, Run.run (next (submit split)) (new n workDir pages junk stat slabSize now) acts =
        some (mount, replies) ∧ mount.Shows split fs :=
  Run.follows (fun _ _ _ _ _ mounted ok answered => mounted.step routed ok answered)
    ⟨Workers.Holds.new workDir two junk, rfl⟩ safe ran

/-- A directory, a file in it that is written and copied to another one, and a name that is taken. -/
def busy : List CopyAct :=
  [.act (.mkdir .root [100] 0 0), .act (.lookup .root [100]), .act (.mknod (.handle 1) [97] 0 0),
    .act (.write 2 [1, 2, 3] 0 5), .act (.mknod .root [97, 98] 0 0), .copy 2 0 3 0 3 6,
    .act (.lookup .root [97, 98]), .act (.mknod .root [97, 98] 0 0), .act (.getAttr (.handle 4))]

theorem mounted_of_run_busy : ∃ (mount : Mount (Workers 2)) (fs : FsState) (replies : List Reply),
    Run.run (next (submit fun key n => key.length % n))
        (new 2 "db" 4 (fun _ => 0) ⟨0, 1, 0, 0, 0, 0, 0, 4096⟩ 64 0) busy = some (mount, replies) ∧
      mount.Shows (fun key n => key.length % n) fs ∧ replies[7]? = some (.err 17) := by
  have ends : (Run.run FsState.answer (.new ⟨0, 1, 0, 0, 0, 0, 0, 4096⟩ 64 0) busy).any (fun out =>
      out.2[7]? == some (.err 17)) = true := by
    decide +kernel
  obtain ⟨⟨fs, replies⟩, ran, taken⟩ := (Option.any_eq_true ..).mp ends
  have safe : Run.Along (next (submit fun key n => key.length % n)) (Safe fun key n => key.length % n)
      (new 2 "db" 4 (fun _ => 0) ⟨0, 1, 0, 0, 0, 0, 0, 4096⟩ 64 0) busy := by
    decide +kernel
  obtain ⟨mount, ran', mounted⟩ :=
    mounted_of_run (fun key => Nat.mod_lt _ (by decide)) "db" (by decide) (fun _ => 0) _ 64 0 safe ran
  exact ⟨mount, fs, replies, ran', mounted, beq_iff_eq.mp taken⟩

end Mount

end KTableFS.Fs
