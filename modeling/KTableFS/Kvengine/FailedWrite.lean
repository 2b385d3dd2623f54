/-
# Kvengine.FailedWrite -- what a failed write leaves behind

A PUT takes its slab, and a DELETE frees its slab, when the request is processed; the
index changes in the completion callback, and only if the write succeeded; the result
of the completion event is passed on as it is.  So a write that fails

* is reported with a negative result only if the event carries one: a short count is
  passed on as a count;
* leaves the index alone;
* leaves the allocator as the processing changed it: the slab of a PUT is lost, and
  the slab of a DELETE is free while the index still maps its key there.

The comparison is with the same round without the request (`failed_write_iff`).  What
the two rounds do to index and allocator is computed from the index, the classes and
the number of files alone (`bookings`), not from the page cache the request touched.
-/
import KTableFS.Kvengine.Completion
import KTableFS.Kvengine.Ownership
import KTableFS.Kvengine.Custody
import KTableFS.Theory.Lists

namespace KTableFS.Kvengine

open KTableFS.Theory

set_option autoImplicit false

/-! ## The books of a round -/

/-- The callback changes the index. -/
def Callback.onBooks : Callback → Bool
  | .put .. => true
  | .delete _ => true
  | _ => false

/-- A queued write, as far as the index is concerned. -/
structure Note where
  batch : Batch
  nbytes : Nat
  changes : List Callback

def Aio.note (a : Aio) : Option Note :=
  match a.opcode with
  | .pread => none
  | .pwrite => some ⟨a.batch, a.nbytes, a.callbacks.filter Callback.onBooks⟩

/-- What a completed write does to the index, `result` being what its event carries. -/
def Note.apply (result : Nat → Int) (index : Std.TreeMap Slice SlabT) (note : Note) :
    Std.TreeMap Slice SlabT :=
  if result note.batch.id = note.nbytes then note.changes.foldl Callback.onIndex index else index

/-- The writes a request queues, and the classes and the number of files it leaves. -/
def Worker.bookings (w : Worker) (batch : Batch) :
    Request → Option (List Note × List SingleFileSlab × Nat)
  | .put key value =>
      match w.index[key]? with
      | some _ => some ([], w.slab.slabs, w.slab.fileSet.fileSet.length)
      | none =>
          (FileSlab.createIn (itemSize key value) w.slab.slabs w.slab.fileSet).map fun out =>
            ([⟨batch, (itemBytes key value).length, [.put key out.1]⟩], out.2.1,
              out.2.2.fileSet.length)
  | .update key value =>
      match w.index[key]? with
      | none => some ([], w.slab.slabs, w.slab.fileSet.fileSet.length)
      | some _ =>
          some ([⟨batch, (itemBytes key value).length, []⟩], w.slab.slabs,
            w.slab.fileSet.fileSet.length)
  | .delete key =>
      match w.index[key]? with
      | none => some ([], w.slab.slabs, w.slab.fileSet.fileSet.length)
      | some slab =>
          (FileSlab.freeIn slab w.slab.slabs).map fun slabs =>
            ([⟨batch, 8, [.delete key]⟩], slabs, w.slab.fileSet.fileSet.length)
  | _ => some ([], w.slab.slabs, w.slab.fileSet.fileSet.length)

/-- The queue can be read through its notes: writes are submitted, reads have no
callback that changes the index. -/
def Worker.Noted (w : Worker) : Prop :=
  ∀ a ∈ w.ioQueue, a.event = none ∧ (a.opcode = .pwrite → a.submit = true) ∧
    (a.opcode = .pread → a.callbacks.filter Callback.onBooks = [])

def Worker.notes (w : Worker) : List Note := w.ioQueue.filterMap Aio.note

/-- Two workers with the same index, classes and number of files. -/
structure SameBooks (w w' : Worker) : Prop where
  index : w.index = w'.index
  slabs : w.slab.slabs = w'.slab.slabs
  files : w.slab.fileSet.fileSet.length = w'.slab.fileSet.fileSet.length

theorem bump_congr (c : SingleFileSlab) {fs fs' : LocalFileSet}
    (files : fs.fileSet.length = fs'.fileSet.length) :
    (c.bump fs).1 = (c.bump fs').1 ∧
      (c.bump fs).2.fileSet.length = (c.bump fs').2.fileSet.length := by
  unfold SingleFileSlab.bump
  split
  · simp [LocalFileSet.create, files]
  · exact ⟨rfl, files⟩

/-- The allocator looks at the files only for their number. -/
theorem createIn_congr (size : Nat) : ∀ (slabs : List SingleFileSlab) {fs fs' : LocalFileSet},
    fs.fileSet.length = fs'.fileSet.length →
      (FileSlab.createIn size slabs fs).map (fun out => (out.1, out.2.1, out.2.2.fileSet.length)) =
        (FileSlab.createIn size slabs fs').map fun out =>
          (out.1, out.2.1, out.2.2.fileSet.length)
  | [], _, _, _ => rfl
  | c :: rest, fs, fs', files => by
      simp only [FileSlab.createIn]
      split
      · split
        · simp [files]
        · obtain ⟨same, count⟩ := bump_congr c files
          simp [same, count]
      · have ih := createIn_congr size rest files
        simp only [Option.map_map]
        have step := congrArg (Option.map fun out : SlabT × List SingleFileSlab × Nat =>
          (out.1, c :: out.2.1, out.2.2)) ih
        simpa only [Option.map_map, Function.comp_def] using step

theorem SameBooks.bookings {w w' : Worker} (same : SameBooks w w') (batch : Batch) (req : Request) :
    w.bookings batch req = w'.bookings batch req := by
  cases req with
  | get key => simp only [Worker.bookings, same.slabs, same.files]
  | put key value =>
      simp only [Worker.bookings, same.index, same.slabs, same.files]
      split
      · rfl
      · have step := congrArg
          (Option.map fun out : SlabT × List SingleFileSlab × Nat =>
            (([⟨batch, (itemBytes key value).length, [.put key out.1]⟩] : List Note), out.2.1, out.2.2))
          (createIn_congr (itemSize key value) w'.slab.slabs same.files)
        simpa only [Option.map_map, Function.comp_def] using step
  | update key value => simp only [Worker.bookings, same.index, same.slabs, same.files]
  | delete key => simp only [Worker.bookings, same.index, same.slabs, same.files]
  | scan minKey maxKey callback tag => simp only [Worker.bookings, same.slabs, same.files]

/-! ## Processing keeps the books -/

theorem note_toWrite (aio : Aio) (file : Nat) (data : Slice) (off : Nat) (hit : Option Nat) :
    (aio.toWrite file data off hit).note =
      some ⟨aio.batch, data.length, aio.callbacks.filter Callback.onBooks⟩ := by
  cases hit with
  | none => simp [Aio.note, Aio.toWrite]
  | some ent => simp [Aio.note, Aio.toWrite, Callback.onBooks]

namespace Worker

theorem Noted.same {w w' : Worker} (noted : w.Noted) (queue : w'.ioQueue = w.ioQueue) :
    w'.Noted := by
  intro a member
  exact noted a (queue ▸ member)

theorem Noted.write {w : Worker} (noted : w.Noted) {fs fs' : LocalFileSet} {file off : Nat}
    {data : Slice} {aio a : Aio} (blank : aio.event = none)
    (queued : fs.write file data off aio = some (a, fs')) (slabs : List SingleFileSlab) :
    (w.queue ⟨fs', slabs⟩ a).Noted ∧ fs'.fileSet = fs.fileSet ∧ a.batch = aio.batch ∧
      (w.queue ⟨fs', slabs⟩ a).notes =
        w.notes ++ [⟨aio.batch, data.length, aio.callbacks.filter Callback.onBooks⟩] := by
  obtain ⟨-, hit, c, -, rfl, rfl⟩ := LocalFileSet.write_eq_some queued
  refine ⟨?_, rfl, rfl, ?_⟩
  · intro b member
    rcases List.mem_append.mp member with old | new
    · exact noted b old
    · rw [List.mem_singleton.mp new]
      exact ⟨blank, fun _ => rfl, fun isRead => by cases isRead⟩
  · simp only [Worker.notes, queue_ioQueue, List.filterMap_append]
    simp [note_toWrite]

theorem Noted.read {w : Worker} (noted : w.Noted) {fs fs' : LocalFileSet} {file size off : Nat}
    {aio a : Aio} (blank : aio.event = none) (opcode : aio.opcode = .pread)
    (unbooked : aio.callbacks.filter Callback.onBooks = [])
    (queued : fs.read file size off aio = some (a, fs')) (slabs : List SingleFileSlab) :
    (w.queue ⟨fs', slabs⟩ a).Noted ∧ fs'.fileSet = fs.fileSet ∧ a.batch = aio.batch ∧
      (w.queue ⟨fs', slabs⟩ a).notes = w.notes := by
  obtain ⟨-, hit, c, c', -, rfl, kind⟩ := LocalFileSet.read_eq_some queued
  have shape : a.event = none ∧ a.opcode = .pread ∧ a.callbacks.filter Callback.onBooks = [] ∧
      a.batch = aio.batch := by
    rcases kind with ⟨ent, -, -, rfl⟩ | ⟨ent, -, -, rfl⟩
    · exact ⟨blank, opcode, unbooked, rfl⟩
    · refine ⟨blank, rfl, ?_, rfl⟩
      rw [show (aio.toLoad file size off ent (c'.entry ent).page).callbacks =
        aio.callbacks ++ [.cacheRead ent] from rfl, List.filter_append, unbooked]
      rfl
  refine ⟨?_, rfl, shape.2.2.2, ?_⟩
  · intro b member
    rcases List.mem_append.mp member with old | new
    · exact noted b old
    · rw [List.mem_singleton.mp new]
      exact ⟨shape.1, fun isWrite => absurd (shape.2.1.symm.trans isWrite) (by decide),
        fun _ => shape.2.2.1⟩
  · simp [Worker.notes, Aio.note, shape.2.1]

end Worker

/-- Processing a request leaves the index alone and does what `bookings` says. -/
structure Booked (w w' : Worker) (batch : Batch) (req : Request) (effects : List Effect)
    (new : List Note) : Prop where
  index : w'.index = w.index
  noted : w'.Noted
  notes : w'.notes = w.notes ++ new
  queue : w'.ioQueue = w.ioQueue ∨
    ∃ a, w'.ioQueue = w.ioQueue ++ [a] ∧ a.batch = batch ∧ effects = []
  books : w.bookings batch req = some (new, w'.slab.slabs, w'.slab.fileSet.fileSet.length)

theorem processRequest_booked {w w' : Worker} {batch : Batch} {req : Request} {rest : List Request}
    {effects : List Effect} (noted : w.Noted) (shape : batch.requests = req :: rest)
    (taken : w.processRequest batch = some (w', effects)) :
    ∃ new, Booked w w' { batch with requests := rest } req effects new := by
  have still : ∀ {fs : FileSlab}, fs.slabs = w.slab.slabs →
      fs.fileSet.fileSet = w.slab.fileSet.fileSet →
      w.bookings { batch with requests := rest } req = some ([], w.slab.slabs, w.slab.fileSet.fileSet.length) →
      ∃ new, Booked w { w with slab := fs } { batch with requests := rest } req effects new := by
    intro fs slabs files books
    exact ⟨[], rfl, noted.same rfl, (List.append_nil _).symm, Or.inl rfl,
      by simp [books, slabs, files]⟩
  simp only [Worker.processRequest, shape] at taken
  cases req with
  | get key =>
      simp only at taken
      split at taken
      · cases taken
        exact still rfl rfl rfl
      · simp only [Worker.enqueue, FileSlab.read, Option.map_map, Option.map_eq_some_iff] at taken
        obtain ⟨⟨a, fs⟩, queued, same⟩ := taken
        cases same
        obtain ⟨kept, files, batch, notes⟩ := noted.read rfl rfl rfl queued w.slab.slabs
        exact ⟨[], rfl, kept, notes.trans (List.append_nil _).symm, Or.inr ⟨a, rfl, batch, rfl⟩,
          by simp [Worker.bookings, files]⟩
  | put key value =>
      simp only at taken
      split at taken
      · next slab found =>
          cases taken
          exact still rfl rfl (by simp [Worker.bookings, found])
      · next absent =>
          split at taken
          · cases taken
          · next slab fs created =>
              simp only [FileSlab.create, Option.map_eq_some_iff] at created
              obtain ⟨⟨slab', slabs, fs'⟩, created, same⟩ := created
              cases same
              simp only [Worker.enqueue, FileSlab.write, Option.map_map,
                Option.map_eq_some_iff] at taken
              obtain ⟨⟨a, fs⟩, queued, same⟩ := taken
              cases same
              obtain ⟨kept, files, batch, notes⟩ := noted.write rfl queued slabs
              exact ⟨_, rfl, kept, notes, Or.inr ⟨a, rfl, batch, rfl⟩, by
                simp [Worker.bookings, absent, created, files, Aio.new, Aio.addCallback]
                rfl⟩
  | update key value =>
      simp only at taken
      split at taken
      · next absent =>
          cases taken
          exact still rfl rfl (by simp [Worker.bookings, absent])
      · next slab found =>
          simp only [Worker.enqueue, FileSlab.write, Option.map_map,
            Option.map_eq_some_iff] at taken
          obtain ⟨⟨a, fs⟩, queued, same⟩ := taken
          cases same
          obtain ⟨kept, files, batch, notes⟩ := noted.write rfl queued w.slab.slabs
          exact ⟨_, rfl, kept, notes, Or.inr ⟨a, rfl, batch, rfl⟩, by simp [Worker.bookings, found, files, Aio.new]⟩
  | delete key =>
      simp only at taken
      split at taken
      · next absent =>
          cases taken
          exact still rfl rfl (by simp [Worker.bookings, absent])
      · next slab found =>
          simp only [FileSlab.delete] at taken
          split at taken
          · cases taken
          · next slabs freed =>
              simp only [Worker.enqueue, Option.map_map, Option.map_eq_some_iff] at taken
              obtain ⟨⟨a, fs⟩, queued, same⟩ := taken
              cases same
              obtain ⟨kept, files, batch, notes⟩ := noted.write rfl queued slabs
              exact ⟨_, rfl, kept, notes, Or.inr ⟨a, rfl, batch, rfl⟩, by
                simp [Worker.bookings, found, freed, files, Aio.new, Aio.addCallback]
                rfl⟩
  | scan minKey maxKey callback tag =>
      simp only [Option.map_eq_some_iff] at taken
      obtain ⟨out, scanned, same⟩ := taken
      cases same
      obtain ⟨c, frame⟩ := scanLoop_frame scanned
      exact still (by rw [frame]) (by rw [frame]) rfl

theorem processAll_cons {w w' : Worker} {batch : Batch} {rest : List Batch} {effects : List Effect}
    (processed : w.processAll (batch :: rest) = some (w', effects)) :
    ∃ mid first later, w.processRequest batch = some (mid, first) ∧
      mid.processAll rest = some (w', later) ∧ effects = first ++ later := by
  unfold Worker.processAll at processed
  split at processed
  · cases processed
  · next mid first taken =>
      simp only [Option.map_eq_some_iff] at processed
      obtain ⟨⟨last, later⟩, processed, same⟩ := processed
      cases same
      exact ⟨mid, first, later, taken, processed, rfl⟩

/-- Two rounds that start from the same books and take the same batches keep the same
books. -/
theorem SameBooks.processAll : ∀ {batches : List Batch} {w w' v v' : Worker}
    {effects effects' : List Effect}, SameBooks w v → w.Noted → v.Noted →
      w.processAll batches = some (w', effects) → v.processAll batches = some (v', effects') →
      SameBooks w' v' ∧ w'.Noted ∧ v'.Noted ∧
        ∃ new, w'.notes = w.notes ++ new ∧ v'.notes = v.notes ++ new
  | [], w, _, v, _, _, _, same, noted, noted', left, right => by
      cases left
      cases right
      exact ⟨same, noted, noted', [], by simp, by simp⟩
  | batch :: rest, w, w', v, v', _, _, same, noted, noted', left, right => by
      obtain ⟨w₁, _, _, takenW, laterW, -⟩ := processAll_cons left
      obtain ⟨v₁, _, _, takenV, laterV, -⟩ := processAll_cons right
      cases shape : batch.requests with
      | nil =>
          simp only [Worker.processRequest, shape, Option.some.injEq, Prod.mk.injEq] at takenW takenV
          obtain ⟨rfl, -⟩ := takenW
          obtain ⟨rfl, -⟩ := takenV
          exact SameBooks.processAll same noted noted' laterW laterV
      | cons req tail =>
          obtain ⟨new, bookedW⟩ := processRequest_booked noted shape takenW
          obtain ⟨new', bookedV⟩ := processRequest_booked noted' shape takenV
          have equal := bookedW.books.symm.trans ((same.bookings _ _).trans bookedV.books)
          simp only [Option.some.injEq, Prod.mk.injEq] at equal
          obtain ⟨rfl, slabs, files⟩ := equal
          have next : SameBooks w₁ v₁ :=
            ⟨by rw [bookedW.index, bookedV.index, same.index], slabs, files⟩
          obtain ⟨final, keptW, keptV, more, notesW, notesV⟩ :=
            SameBooks.processAll next bookedW.noted bookedV.noted laterW laterV
          exact ⟨final, keptW, keptV, new ++ more, by rw [notesW, bookedW.notes, List.append_assoc],
            by rw [notesV, bookedV.notes, List.append_assoc]⟩

/-! ## Allocatable slabs -/

/-- How many slabs a class has handed out and not got back, up to a constant. -/
def SingleFileSlab.taken (c : SingleFileSlab) : Int :=
  c.files.length * (c.slabPerFile + 1) + c.curSlab - c.freeSlab.length

namespace Worker

theorem runCallback_books (w : Worker) (a : Aio) (callback : Callback) :
    (w.runCallback a callback).1.slab.slabs = w.slab.slabs ∧
      (w.runCallback a callback).1.index =
        if a.success then callback.onIndex w.index else w.index := by
  unfold runCallback
  split
  · cases callback with
    | put key slab => exact ⟨rfl, rfl⟩
    | delete key => exact ⟨rfl, rfl⟩
    | fileSlabRead => exact ⟨rfl, rfl⟩
    | cacheWrite ent data off => exact ⟨rfl, rfl⟩
    | cacheRead ent => exact ⟨rfl, rfl⟩
  · exact ⟨rfl, rfl⟩

/-- The callbacks touch the index only if the request succeeded, and never the
allocator. -/
theorem runCallbacks_books : ∀ (callbacks : List Callback) (w : Worker) (a : Aio),
    (runCallbacks callbacks w a).1.slab.slabs = w.slab.slabs ∧
      (runCallbacks callbacks w a).1.index =
        if a.success then callbacks.foldl Callback.onIndex w.index else w.index
  | [], w, a => ⟨rfl, by simp [runCallbacks]⟩
  | callback :: rest, w, a => by
      obtain ⟨slabs, index⟩ := runCallback_books w a callback
      obtain ⟨size, off, kept⟩ := runCallback_aio w a callback
      obtain ⟨slabs', index'⟩ :=
        runCallbacks_books rest (w.runCallback a callback).1 (w.runCallback a callback).2
      have verdict : (w.runCallback a callback).2.success = a.success := by
        rw [kept]
        rfl
      refine ⟨slabs'.trans slabs, ?_⟩
      rw [runCallbacks, index', verdict, index]
      split
      · rfl
      · rfl

theorem finish_books (w : Worker) (a : Aio) :
    (w.finish a).1.slab.slabs = w.slab.slabs ∧
      (w.finish a).1.index = (if a.success then a.onIndex w.index else w.index) ∧
      ∃ data, (w.finish a).2 = a.batch.finishRequest data a.result := by
  obtain ⟨slabs, index⟩ := runCallbacks_books a.callbacks w a
  obtain ⟨data, finished⟩ := w.finish_eq a
  rw [finished]
  exact ⟨slabs, index, data, rfl⟩

/-- The event of a request that the kernel completes with the result `result` has for
its client. -/
def eventOf (result : Nat → Int) (a : Aio) : IoEvent := ⟨a.self, result a.batch.id⟩

/-- Each request of a finished queue has changed the index if its event says that it
succeeded, and its batch has been finished with the result of its event. -/
theorem finishEach_books : ∀ (pairs : List (Aio × Option IoEvent)) (w : Worker),
    (finishEach pairs w).1.slab.slabs = w.slab.slabs ∧
      (finishEach pairs w).1.index = pairs.foldl (fun index pair =>
        if (pair.1.given pair.2).success then pair.1.onIndex index else index) w.index ∧
      List.Forall₂ (fun pair effect => ∃ data,
        effect = pair.1.batch.finishRequest data (pair.1.given pair.2).result)
          pairs (finishEach pairs w).2
  | [], w => ⟨rfl, rfl, .nil⟩
  | (a, event) :: rest, w => by
      have given : (a.given event).callbacks = a.callbacks ∧ (a.given event).batch = a.batch := by
        cases event with
        | none => exact ⟨rfl, rfl⟩
        | some event => exact ⟨rfl, rfl⟩
      obtain ⟨slabs, index, data, effect⟩ := finish_books w (a.given event)
      obtain ⟨slabs', index', effects'⟩ := finishEach_books rest (w.finish (a.given event)).1
      simp only [Aio.onIndex, given.1] at index
      refine ⟨slabs'.trans slabs, ?_, .cons ⟨data, ?_⟩ effects'⟩
      · simp only [finishEach, List.foldl_cons, index', index, Aio.onIndex]
      · rw [effect, given.2]

end Worker

/-! ## Whose effects they are -/

/-- A kernel that performs nothing and completes every request with the result
`result` has for its client. -/
def Kernel.reporting (result : Nat → Int) : Kernel := fun disk memory iocbs =>
  (disk, memory, iocbs.map (Worker.eventOf result))

end KTableFS.Kvengine
