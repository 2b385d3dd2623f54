/-
# Kvengine.Process -- what one request does to a worker

`Processed w id req w' effects` lists the branches of `Worker::ProcessRequest_`
for a batch that holds the one request `req`: it is refused on the spot
(`Worker.refusal`), or one I/O is queued, or a scan reads synchronously.  Every
proof about the engine goes through this inversion, or through `Handled` for a batch
with more requests, and the shapes of the queued I/O (`Aio.toWrite`, `Aio.toFake`,
`Aio.toLoad`) and never unfolds the engine itself.
-/
import KTableFS.Kvengine.Pending

namespace KTableFS.Kvengine

open KTableFS.Theory

set_option autoImplicit false

/-! ## The shapes of queued I/O -/

/-- The request `LocalFileSet::Write` queues; `hit` is the cached entry it found. -/
def Aio.toWrite (aio : Aio) (file : Nat) (data : Slice) (off : Nat) (hit : Option Nat) : Aio :=
  { aio with
    opcode := .pwrite
    data := data
    fildes := file
    nbytes := data.length
    offset := off
    submit := true
    callbacks := aio.callbacks ++
      (hit.map fun ent => Callback.cacheWrite ent data (off % pageSize)).toList }

/-- The fake read `LocalFileSet::Read` queues for a cached page. -/
def Aio.toFake (aio : Aio) (size off frame : Nat) : Aio :=
  { aio with readSize := size, readOff := off % pageSize, frame := frame, submit := false }

/-- The page load it queues otherwise. -/
def Aio.toLoad (aio : Aio) (file size off ent frame : Nat) : Aio :=
  { aio with
    readSize := size
    readOff := off % pageSize
    opcode := .pread
    frame := frame
    fildes := file
    nbytes := pageSize
    offset := pageSize * (off / pageSize)
    submit := true
    callbacks := aio.callbacks ++ [.cacheRead ent] }

namespace LocalFileSet

theorem write_eq_some {fs fs' : LocalFileSet} {file off : Nat} {data : Slice} {aio a : Aio}
    (wrote : fs.write file data off aio = some (a, fs')) :
    fs.HasFile file ∧ ∃ hit c, fs.pagecache.lookup (pageHash file (off / pageSize)) = some (hit, c) ∧
      a = aio.toWrite file data off hit ∧ fs' = { fs with pagecache := c } := by
  unfold write at wrote
  split at wrote
  · rename_i has
    refine ⟨has, ?_⟩
    split at wrote
    · cases wrote
    · rename_i ent c looked
      cases wrote
      exact ⟨some ent, c, looked, rfl, rfl⟩
    · rename_i c looked
      cases wrote
      exact ⟨none, c, looked, by simp [Aio.toWrite], rfl⟩
  · cases wrote

theorem read_eq_some {fs fs' : LocalFileSet} {file size off : Nat} {aio a : Aio}
    (queued : fs.read file size off aio = some (a, fs')) :
    fs.HasFile file ∧ ∃ hit c c', fs.pagecache.lookup (pageHash file (off / pageSize)) = some (hit, c) ∧
      fs' = { fs with pagecache := c' } ∧
      ((∃ ent, hit = some ent ∧ c' = c ∧ a = aio.toFake size off (c.entry ent).page) ∨
        (∃ ent, hit = none ∧ c.newEntry (pageHash file (off / pageSize)) = some (ent, c') ∧
          a = aio.toLoad file size off ent (c'.entry ent).page)) := by
  unfold read at queued
  split at queued
  · rename_i has
    refine ⟨has, ?_⟩
    simp only at queued
    split at queued
    · cases queued
    · rename_i ent c looked
      cases queued
      exact ⟨some ent, c, c, looked, rfl, Or.inl ⟨ent, rfl, rfl, rfl⟩⟩
    · rename_i c looked
      split at queued
      · cases queued
      · rename_i ent c' made
        cases queued
        exact ⟨none, c, c', looked, rfl, Or.inr ⟨ent, rfl, made, rfl⟩⟩
  · cases queued

theorem readSync_eq_some {fs fs' : LocalFileSet} {file size off : Nat} {bytes : Slice}
    (read : fs.readSync file size off = some (bytes, fs')) :
    fs.HasFile file ∧ ∃ hit c c' ent,
      fs.pagecache.lookup (pageHash file (off / pageSize)) = some (hit, c) ∧
      fs' = { fs with pagecache := c' } ∧
      bytes = cut c'.data ((c'.entry ent).page + off % pageSize) size ∧
      (hit = some ent ∧ c' = c ∨
        ∃ mid, hit = none ∧ c.newEntry (pageHash file (off / pageSize)) = some (ent, mid) ∧
          c' = fs.loadPage file (off / pageSize) ent mid) := by
  unfold readSync at read
  split at read
  · rename_i has
    refine ⟨has, ?_⟩
    simp only at read
    split at read
    · cases read
    · rename_i ent c looked
      cases read
      exact ⟨some ent, c, c, ent, looked, rfl, rfl, Or.inl ⟨rfl, rfl⟩⟩
    · rename_i c looked
      split at read
      · cases read
      · rename_i ent mid made
        cases read
        exact ⟨none, c, _, ent, looked, rfl, rfl, Or.inr ⟨mid, rfl, made, rfl⟩⟩
  · cases read

/-- A page load changes a frame and the `wait` flag of its entry. -/
theorem loadPage_completed (fs : LocalFileSet) (file page ent : Nat) (c : PageCache) :
    c.Completed (fs.loadPage file page ent c) := by
  refine ⟨rfl, rfl, rfl, rfl, rfl, ?_, ?_, ?_, ?_, ?_, ?_⟩ <;> intro e <;>
    rw [loadPage, PageCache.modify_entry] <;> split <;> simp_all

end LocalFileSet

/-! ## One request -/

namespace Worker

/-- The result code of a request that is answered without I/O. -/
def refusal (w : Worker) : Request → Option Int
  | .get key => if w.index[key]?.isSome then none else some enoent
  | .put key _ => if w.index[key]?.isSome then some eexist else none
  | .update key _ => if w.index[key]?.isSome then none else some enoent
  | .delete key => if w.index[key]?.isSome then none else some enoent
  | .scan .. => none

/-- The I/O object a request of the batch `id` starts with. -/
def blankAio (w : Worker) (id : Nat) : Aio := Aio.new w.ioQueue.length ⟨id, [], []⟩

/-- The worker with one more request in its I/O queue. -/
def queue (w : Worker) (fs : FileSlab) (a : Aio) : Worker :=
  { w with slab := fs, ioQueue := w.ioQueue ++ [a] }

end Worker

/-- The branches of `ProcessRequest_` for a batch of one request. -/
inductive Processed (w : Worker) (id : Nat) : Request → Worker → List Effect → Prop where
  | refused {req : Request} {res : Int} (reason : w.refusal req = some res) :
      Processed w id req w [.respond id none res]
  | get {key : Slice} {slab : SlabT} {a : Aio} {fs : LocalFileSet}
      (found : w.index[key]? = some slab)
      (queued : w.slab.fileSet.read slab.file slab.size slab.off
        ((w.blankAio id).addCallback .fileSlabRead) = some (a, fs)) :
      Processed w id (.get key) (w.queue { w.slab with fileSet := fs } a) []
  | put {key value : Slice} {slab : SlabT} {slabs : List SingleFileSlab} {fs fs' : LocalFileSet}
      {a : Aio} (absent : w.index[key]? = none)
      (created : FileSlab.createIn (itemSize key value) w.slab.slabs w.slab.fileSet =
        some (slab, slabs, fs))
      (queued : fs.write slab.file (itemBytes key value) slab.off
        ((w.blankAio id).addCallback (.put key slab)) = some (a, fs')) :
      Processed w id (.put key value) (w.queue ⟨fs', slabs⟩ a) []
  | update {key value : Slice} {slab : SlabT} {a : Aio} {fs : LocalFileSet}
      (found : w.index[key]? = some slab)
      (queued : w.slab.fileSet.write slab.file (itemBytes key value) slab.off (w.blankAio id) =
        some (a, fs)) :
      Processed w id (.update key value) (w.queue { w.slab with fileSet := fs } a) []
  | delete {key : Slice} {slab : SlabT} {slabs : List SingleFileSlab} {a : Aio} {fs : LocalFileSet}
      (found : w.index[key]? = some slab)
      (freed : FileSlab.freeIn slab w.slab.slabs = some slabs)
      (queued : w.slab.fileSet.write slab.file (storeLE 8 0) slab.off
        ((w.blankAio id).addCallback (.delete key)) = some (a, fs)) :
      Processed w id (.delete key) (w.queue ⟨fs, slabs⟩ a) []
  | scan {minKey maxKey : Slice} {callback : ScanCallback} {tag : Nat} {fs : FileSlab}
      {batch : Batch} {effects : List Effect}
      (scanned : Worker.scanLoop callback (Worker.scanRange w.index minKey maxKey) w.slab
        ⟨id, [], []⟩ = some (fs, batch, effects)) :
      Processed w id (.scan minKey maxKey callback tag) { w with slab := fs }
        (effects ++ [batch.finishRequest none 0])

/-- The branches of `ProcessRequest_` for any batch; `batch` is what is left of it when
the request has been taken off. -/
inductive Handled (w : Worker) (batch : Batch) : Request → Worker → List Effect → Prop where
  | refused {req : Request} {res : Int} (reason : w.refusal req = some res) :
      Handled w batch req w [batch.finishRequest none res]
  | get {key : Slice} {slab : SlabT} {a : Aio} {fs : LocalFileSet}
      (found : w.index[key]? = some slab)
      (queued : w.slab.fileSet.read slab.file slab.size slab.off
        ((Aio.new w.ioQueue.length batch).addCallback .fileSlabRead) = some (a, fs)) :
      Handled w batch (.get key) (w.queue { w.slab with fileSet := fs } a) []
  | put {key value : Slice} {slab : SlabT} {slabs : List SingleFileSlab} {fs fs' : LocalFileSet}
      {a : Aio} (absent : w.index[key]? = none)
      (created : FileSlab.createIn (itemSize key value) w.slab.slabs w.slab.fileSet =
        some (slab, slabs, fs))
      (queued : fs.write slab.file (itemBytes key value) slab.off
        ((Aio.new w.ioQueue.length batch).addCallback (.put key slab)) = some (a, fs')) :
      Handled w batch (.put key value) (w.queue ⟨fs', slabs⟩ a) []
  | update {key value : Slice} {slab : SlabT} {a : Aio} {fs : LocalFileSet}
      (found : w.index[key]? = some slab)
      (queued : w.slab.fileSet.write slab.file (itemBytes key value) slab.off
        (Aio.new w.ioQueue.length batch) = some (a, fs)) :
      Handled w batch (.update key value) (w.queue { w.slab with fileSet := fs } a) []
  | delete {key : Slice} {slab : SlabT} {slabs : List SingleFileSlab} {a : Aio} {fs : LocalFileSet}
      (found : w.index[key]? = some slab)
      (freed : FileSlab.freeIn slab w.slab.slabs = some slabs)
      (queued : w.slab.fileSet.write slab.file (storeLE 8 0) slab.off
        ((Aio.new w.ioQueue.length batch).addCallback (.delete key)) = some (a, fs)) :
      Handled w batch (.delete key) (w.queue ⟨fs, slabs⟩ a) []
  | scan {minKey maxKey : Slice} {callback : ScanCallback} {tag : Nat} {fs : FileSlab}
      {last : Batch} {effects : List Effect}
      (scanned : Worker.scanLoop callback (Worker.scanRange w.index minKey maxKey) w.slab batch =
        some (fs, last, effects)) :
      Handled w batch (.scan minKey maxKey callback tag) { w with slab := fs }
        (effects ++ [last.finishRequest none 0])

theorem Worker.processRequest_handled {w w' : Worker} {batch : Batch} {req : Request}
    {rest : List Request} {effects : List Effect} (shape : batch.requests = req :: rest)
    (taken : w.processRequest batch = some (w', effects)) :
    Handled w { batch with requests := rest } req w' effects := by
  unfold processRequest at taken
  rw [shape] at taken
  cases req with
  | get key =>
      simp only at taken
      split at taken
      · rename_i absent
        cases taken
        exact .refused (by simp [refusal, absent])
      · rename_i slab found
        simp only [enqueue, FileSlab.read, Option.map_eq_some_iff, Prod.mk.injEq] at taken
        obtain ⟨_, ⟨⟨a, fs⟩, queued, rfl⟩, rfl, rfl⟩ := taken
        exact .get found queued
  | put key value =>
      simp only at taken
      split at taken
      · rename_i found
        cases taken
        exact .refused (by simp [refusal, found])
      · rename_i absent
        split at taken
        · cases taken
        · rename_i slab fs made
          simp only [FileSlab.create, Option.map_eq_some_iff, Prod.mk.injEq] at made
          obtain ⟨⟨_, slabs, files⟩, created, rfl, rfl⟩ := made
          simp only [enqueue, FileSlab.write, Option.map_eq_some_iff, Prod.mk.injEq] at taken
          obtain ⟨_, ⟨⟨a, fs'⟩, queued, rfl⟩, rfl, rfl⟩ := taken
          exact .put absent created queued
  | update key value =>
      simp only at taken
      split at taken
      · rename_i absent
        cases taken
        exact .refused (by simp [refusal, absent])
      · rename_i slab found
        simp only [enqueue, FileSlab.write, Option.map_eq_some_iff, Prod.mk.injEq] at taken
        obtain ⟨_, ⟨⟨a, fs⟩, queued, rfl⟩, rfl, rfl⟩ := taken
        exact .update found queued
  | delete key =>
      simp only at taken
      split at taken
      · rename_i absent
        cases taken
        exact .refused (by simp [refusal, absent])
      · rename_i slab found
        simp only [enqueue, FileSlab.delete, Option.map_eq_some_iff, Prod.mk.injEq] at taken
        obtain ⟨_, deleted, rfl, rfl⟩ := taken
        split at deleted
        · cases deleted
        · rename_i slabs freed
          simp only [Option.map_eq_some_iff] at deleted
          obtain ⟨⟨a, fs⟩, queued, rfl⟩ := deleted
          exact .delete found freed queued
  | scan minKey maxKey callback tag =>
      simp only [Option.map_eq_some_iff, Prod.mk.injEq] at taken
      obtain ⟨⟨fs, last, effects⟩, scanned, rfl, rfl⟩ := taken
      exact .scan scanned

/-- A batch of one request is that request. -/
theorem Worker.processRequest_processed {w w' : Worker} {id : Nat} {req : Request}
    {effects : List Effect} (taken : w.processRequest ⟨id, [req], []⟩ = some (w', effects)) :
    Processed w id req w' effects := by
  cases processRequest_handled rfl taken with
  | refused reason => exact .refused reason
  | get found queued => exact .get found queued
  | put absent created queued => exact .put absent created queued
  | update found queued => exact .update found queued
  | delete found freed queued => exact .delete found freed queued
  | scan scanned => exact .scan scanned

/-! ## What is pending after one more request -/

namespace Worker

@[simp] theorem queue_index (w : Worker) (fs : FileSlab) (a : Aio) : (w.queue fs a).index = w.index :=
  rfl

@[simp] theorem queue_slab (w : Worker) (fs : FileSlab) (a : Aio) : (w.queue fs a).slab = fs := rfl

@[simp] theorem queue_ioQueue (w : Worker) (fs : FileSlab) (a : Aio) :
    (w.queue fs a).ioQueue = w.ioQueue ++ [a] := rfl

theorem pendIndex_queue (w : Worker) (fs : FileSlab) (a : Aio) :
    (w.queue fs a).pendIndex = a.onIndex w.pendIndex := by
  simp [pendIndex]

theorem pendDisk_queue (w : Worker) (fs : FileSlab) (same : fs.fileSet.disk = w.disk) (a : Aio) :
    (w.queue fs a).pendDisk = a.performDisk w.pendDisk := by
  simp [pendDisk, disk, same]

/-- A prepared write is pending in full. -/
theorem performDisk_toWrite (aio : Aio) (file : Nat) (data : Slice) (off : Nat) (hit : Option Nat)
    (disk : Disk) : (aio.toWrite file data off hit).performDisk disk =
      Function.update disk file ((disk file).pwrite data off) := rfl

theorem onIndex_toWrite (aio : Aio) (file : Nat) (data : Slice) (off : Nat) (hit : Option Nat)
    (index : Std.TreeMap Slice SlabT) :
    (aio.toWrite file data off hit).onIndex index = aio.onIndex index := by
  cases hit with
  | none => simp [Aio.onIndex, Aio.toWrite]
  | some ent => simp [Aio.onIndex, Aio.toWrite, Callback.onIndex]

theorem toWrite_isWrite (aio : Aio) (file : Nat) (data : Slice) (off : Nat) (hit : Option Nat) :
    (aio.toWrite file data off hit).IsWrite :=
  ⟨rfl, rfl, rfl⟩

theorem toFake_isRead (w : Worker) (id size off frame : Nat) :
    (((w.blankAio id).addCallback .fileSlabRead).toFake size off frame).IsRead :=
  ⟨rfl, rfl, Or.inl ⟨rfl, rfl⟩⟩

theorem toLoad_isRead (w : Worker) (id file size off ent frame : Nat) :
    (((w.blankAio id).addCallback .fileSlabRead).toLoad file size off ent frame).IsRead :=
  ⟨rfl, rfl, Or.inr ⟨rfl, ent, rfl⟩⟩

end Worker

end KTableFS.Kvengine
