/-
# Kvengine.Pending -- what the queued I/O of a round will do

A round queues its I/O and performs it at the end.  This module computes, from a
worker in the middle of a round, what the end of the round will make of it when
the kernel performs the queue in order and in full:

* `pendDisk` -- the files: every queued write, in queue order;
* `pendIndex` -- the index: the put and delete callbacks, in queue order;
* `pendData` -- the frames: first every queued page load (`loads`), each reading
  the files as the writes before it left them, and then every cache write callback;
* `answers` -- the effects, each read at its own turn of the finishing loop.

`settle_spec` says that `settle` does exactly this.  The four are folds over the
queue, so what one more queued request adds to them is an append lemma; only a
page load has a side condition, because it overtakes the callbacks queued before
it (`pendData_load`).
-/
import KTableFS.Kvengine.Worker
import KTableFS.Kvengine.PageCacheMap

namespace KTableFS.Kvengine

open KTableFS.Theory

set_option autoImplicit false

/-! ## Queued requests -/

/-- A request queued by `FileSlab::Read`: fake, or the load of a page. -/
structure Aio.IsRead (a : Aio) : Prop where
  opcode : a.opcode = .pread
  event : a.event = none
  callbacks : a.submit = false ∧ a.callbacks = [.fileSlabRead] ∨
    a.submit = true ∧ ∃ ent, a.callbacks = [.fileSlabRead, .cacheRead ent]

/-- A request queued by `FileSlab::Write` or `FileSlab::Delete`. -/
structure Aio.IsWrite (a : Aio) : Prop where
  opcode : a.opcode = .pwrite
  submit : a.submit = true
  nbytes : a.nbytes = a.data.length

def Aio.Prepared (a : Aio) : Prop := a.IsRead ∨ a.IsWrite

namespace Callback

/-- What a callback of a successful request does to the index. -/
def onIndex (index : Std.TreeMap Slice SlabT) : Callback → Std.TreeMap Slice SlabT
  | .put key slab => index.insertIfNew key slab
  | .delete key => index.erase key
  | _ => index

/-- What it does to the frames; `page` gives the frame of an entry. -/
def onData (page : Nat → Nat) (memory : Memory) : Callback → Memory
  | .cacheWrite ent data off => blit memory (page ent + off) data
  | _ => memory

end Callback

namespace Aio

def onIndex (index : Std.TreeMap Slice SlabT) (a : Aio) : Std.TreeMap Slice SlabT :=
  a.callbacks.foldl Callback.onIndex index

def onData (page : Nat → Nat) (memory : Memory) (a : Aio) : Memory :=
  a.callbacks.foldl (Callback.onData page) memory

/-- The page load of a submitted read. -/
def load (a : Aio) (disk : Disk) (memory : Memory) : Memory :=
  if a.submit then a.performMemory disk memory else memory

/-- The request with the event the in-order kernel reports for it. -/
def stamp (a : Aio) (disk : Disk) : Aio :=
  if a.submit then { a with event := some (a.performEvent disk).res } else a

/-- The value a read delivers from the frames as they are in its turn. -/
def valueAt (a : Aio) (memory : Memory) : Slice :=
  let data := a.frame + a.readOff
  let keySize := loadLE (cut memory (data + 2) 2)
  cut memory (a.frame + (a.readOff + 6 + keySize)) (loadLE (cut memory (data + 4) 2))

/-- How a request is finished. -/
def answer (a : Aio) (disk : Disk) (memory : Memory) : Effect :=
  match a.opcode with
  | .pread =>
      let a := a.stamp disk
      a.batch.finishRequest
        (some (if a.success then a.valueAt memory
          else cut memory (a.frame + a.readOff) a.readSize)) a.result
  | .pwrite => a.batch.finishRequest none 0

end Aio

/-- All page loads of a queue, each from the files as the writes before it left them. -/
def loads : List Aio → Disk → Memory → Memory
  | [], _, memory => memory
  | a :: rest, disk, memory => loads rest (a.performDisk disk) (a.load disk memory)

/-- The effects of the finishing loop. -/
def answers (page : Nat → Nat) : List Aio → Disk → Memory → List Effect
  | [], _, _ => []
  | a :: rest, disk, memory =>
      a.answer disk memory :: answers page rest (a.performDisk disk) (a.onData page memory)

namespace Worker

/-- The frame of an entry. -/
abbrev page (w : Worker) (ent : Nat) : Nat := (w.pagecache.entry ent).page

def pendDisk (w : Worker) : Disk :=
  w.ioQueue.foldl (fun disk a => a.performDisk disk) w.disk

def pendIndex (w : Worker) : Std.TreeMap Slice SlabT :=
  w.ioQueue.foldl Aio.onIndex w.index

/-- The frames once every queued load has been performed. -/
def loadedData (w : Worker) : Memory := loads w.ioQueue w.disk w.pagecache.data

def pendData (w : Worker) : Memory :=
  w.ioQueue.foldl (Aio.onData w.page) w.loadedData

end Worker

/-! ## One more request in the queue -/

theorem loads_append (queue queue' : List Aio) (disk : Disk) (memory : Memory) :
    loads (queue ++ queue') disk memory =
      loads queue' (queue.foldl (fun disk a => a.performDisk disk) disk) (loads queue disk memory) := by
  induction queue generalizing disk memory with
  | nil => rfl
  | cons a rest ih => simp only [List.cons_append, loads, List.foldl_cons, ih]

/-- Every effect of the finishing loop finishes a queued request, in its turn. -/
theorem mem_answers {page : Nat → Nat} {effect : Effect} : ∀ {queue : List Aio} {disk : Disk}
    {memory : Memory}, effect ∈ answers page queue disk memory → ∃ before a after,
      queue = before ++ a :: after ∧
      effect = a.answer (before.foldl (fun disk a => a.performDisk disk) disk)
        (before.foldl (Aio.onData page) memory)
  | [], _, _, member => by simp [answers] at member
  | a :: rest, disk, memory, member => by
      rcases List.mem_cons.mp member with rfl | later
      · exact ⟨[], a, rest, rfl, rfl⟩
      · obtain ⟨before, b, after, rfl, shape⟩ := mem_answers later
        exact ⟨a :: before, b, after, rfl, shape⟩

/-- Every queued request is finished. -/
theorem answer_mem (page : Nat → Nat) {a : Aio} : ∀ {queue : List Aio}, a ∈ queue →
    ∀ (disk : Disk) (memory : Memory),
      ∃ disk' memory', a.answer disk' memory' ∈ answers page queue disk memory
  | b :: rest, member, disk, memory => by
      rcases List.mem_cons.mp member with rfl | later
      · exact ⟨disk, memory, List.mem_cons_self ..⟩
      · obtain ⟨disk', memory', inLater⟩ := answer_mem page later (b.performDisk disk) (b.onData page memory)
        exact ⟨disk', memory', List.mem_cons_of_mem _ inLater⟩

/-- No callback of the queue writes to the frame at `frame`. -/
def FrameIdle (page : Nat → Nat) (queue : List Aio) (frame : Nat) : Prop :=
  ∀ a ∈ queue, ∀ ent data off, Callback.cacheWrite ent data off ∈ a.callbacks →
    page ent + off + data.length ≤ frame ∨ frame + pageSize ≤ page ent + off

/-- A page load commutes with the callbacks of requests that do not write to its frame. -/
theorem foldl_onData_blit {page : Nat → Nat} {frame : Nat} {bytes : Slice}
    (small : bytes.length ≤ pageSize) :
    ∀ (queue : List Aio) (memory : Memory), FrameIdle page queue frame →
      queue.foldl (Aio.onData page) (blit memory frame bytes) =
        blit (queue.foldl (Aio.onData page) memory) frame bytes := by
  have callback : ∀ (callbacks : List Callback) (memory : Memory),
      (∀ ent data off, Callback.cacheWrite ent data off ∈ callbacks →
        page ent + off + data.length ≤ frame ∨ frame + pageSize ≤ page ent + off) →
      callbacks.foldl (Callback.onData page) (blit memory frame bytes) =
        blit (callbacks.foldl (Callback.onData page) memory) frame bytes := by
    intro callbacks
    induction callbacks with
    | nil => exact fun _ _ => rfl
    | cons callback rest ih =>
        intro memory idle
        simp only [List.foldl_cons]
        have swapped : Callback.onData page (blit memory frame bytes) callback =
            blit (Callback.onData page memory callback) frame bytes := by
          cases callback with
          | cacheWrite ent data off =>
              have apart := idle ent data off (List.mem_cons_self ..)
              exact blit_comm memory (by omega)
          | _ => rfl
        rw [swapped]
        exact ih _ fun ent data off member => idle ent data off (List.mem_cons_of_mem _ member)
  intro queue
  induction queue with
  | nil => exact fun _ _ => rfl
  | cons a rest ih =>
      intro memory idle
      simp only [List.foldl_cons]
      rw [show Aio.onData page (blit memory frame bytes) a =
          blit (Aio.onData page memory a) frame bytes from
        callback a.callbacks memory (idle a (List.mem_cons_self ..))]
      exact ih _ fun b member => idle b (List.mem_cons_of_mem _ member)

/-! ## Finishing one request -/

/-- `c'` is `c` after completion callbacks: only the frames and the wait and valid
flags differ, no valid entry becomes invalid, and no entry starts to wait. -/
structure PageCache.Completed (c c' : PageCache) : Prop where
  newest : c'.newest = c.newest
  oldest : c'.oldest = c.oldest
  index : c'.index = c.index
  usedPage : c'.usedPage = c.usedPage
  maxPage : c'.maxPage = c.maxPage
  page : ∀ e, (c'.entry e).page = (c.entry e).page
  hash : ∀ e, (c'.entry e).hash = (c.entry e).hash
  prev : ∀ e, (c'.entry e).prev = (c.entry e).prev
  next : ∀ e, (c'.entry e).next = (c.entry e).next
  valid : ∀ e, (c.entry e).valid = true → (c'.entry e).valid = true
  wait : ∀ e, (c'.entry e).wait = true → (c.entry e).wait = true

namespace PageCache

theorem Completed.refl (c : PageCache) : Completed c c :=
  ⟨rfl, rfl, rfl, rfl, rfl, fun _ => rfl, fun _ => rfl, fun _ => rfl, fun _ => rfl, fun _ => id,
    fun _ => id⟩

theorem Completed.trans {c c' c'' : PageCache} (first : Completed c c')
    (second : Completed c' c'') : Completed c c'' where
  newest := second.newest.trans first.newest
  oldest := second.oldest.trans first.oldest
  index := second.index.trans first.index
  usedPage := second.usedPage.trans first.usedPage
  maxPage := second.maxPage.trans first.maxPage
  page e := (second.page e).trans (first.page e)
  hash e := (second.hash e).trans (first.hash e)
  prev e := (second.prev e).trans (first.prev e)
  next e := (second.next e).trans (first.next e)
  valid e := second.valid e ∘ first.valid e
  wait e := first.wait e ∘ second.wait e

theorem data_completed (c : PageCache) (data : Memory) : Completed c { c with data := data } :=
  ⟨rfl, rfl, rfl, rfl, rfl, fun _ => rfl, fun _ => rfl, fun _ => rfl, fun _ => rfl, fun _ => id,
    fun _ => id⟩

theorem readCallback_completed (c : PageCache) (ent : Nat) : Completed c (c.readCallback ent) := by
  refine ⟨rfl, rfl, rfl, rfl, rfl, ?_, ?_, ?_, ?_, ?_, ?_⟩ <;> intro e <;>
    rw [readCallback, modify_entry] <;> split <;> simp_all

theorem Wf.completed {c c' : PageCache} (wf : c.Wf) (done : Completed c c') : c'.Wf where
  newest e found := by
    rw [done.usedPage]
    exact wf.newest e (done.newest ▸ found)
  oldest e found := by
    rw [done.usedPage]
    exact wf.oldest e (done.oldest ▸ found)
  prev e p found := by
    rw [done.usedPage]
    exact wf.prev e p (done.prev e ▸ found)
  next e p found := by
    rw [done.usedPage]
    exact wf.next e p (done.next e ▸ found)
  page e allocated := by
    rw [done.usedPage] at allocated
    rw [done.page, wf.page e allocated]
  valid e allocated := by
    rw [done.usedPage] at allocated
    exact done.valid e (wf.valid e allocated)
  indexed e allocated := by
    rw [done.usedPage] at allocated
    rw [done.hash, done.index, wf.indexed e allocated]
  bound h e found := by
    rw [done.index] at found
    rw [done.usedPage, done.hash]
    exact wf.bound h e found

end PageCache

/-- `w'` is `w` after completion callbacks that left this index and these frames. -/
structure Worker.Advanced (w w' : Worker) (index : Std.TreeMap Slice SlabT) (data : Memory) :
    Prop where
  id : w'.id = w.id
  slabs : w'.slab.slabs = w.slab.slabs
  directory : w'.slab.fileSet.directory = w.slab.fileSet.directory
  fileSet : w'.slab.fileSet.fileSet = w.slab.fileSet.fileSet
  disk : w'.disk = w.disk
  ioQueue : w'.ioQueue = w.ioQueue
  cache : w.pagecache.Completed w'.pagecache
  index : w'.index = index
  data : w'.pagecache.data = data

namespace Worker

theorem Advanced.refl (w : Worker) : Advanced w w w.index w.pagecache.data :=
  ⟨rfl, rfl, rfl, rfl, rfl, rfl, .refl _, rfl, rfl⟩

theorem Advanced.trans {w w' w'' : Worker} {index index' : Std.TreeMap Slice SlabT}
    {data data' : Memory} (first : Advanced w w' index data)
    (second : Advanced w' w'' index' data') : Advanced w w'' index' data' where
  id := second.id.trans first.id
  slabs := second.slabs.trans first.slabs
  directory := second.directory.trans first.directory
  fileSet := second.fileSet.trans first.fileSet
  disk := second.disk.trans first.disk
  ioQueue := second.ioQueue.trans first.ioQueue
  cache := first.cache.trans second.cache
  index := second.index
  data := second.data

theorem Advanced.page {w w' : Worker} {index : Std.TreeMap Slice SlabT} {data : Memory}
    (advanced : Advanced w w' index data) : w'.page = w.page :=
  funext advanced.cache.page

theorem runCallback_advanced (w : Worker) {a : Aio} (success : a.success = true)
    (callback : Callback) :
    Advanced w (w.runCallback a callback).1 (callback.onIndex w.index)
      (callback.onData w.page w.pagecache.data) := by
  unfold runCallback
  rw [if_pos success]
  cases callback with
  | put key slab => exact ⟨rfl, rfl, rfl, rfl, rfl, rfl, .refl _, rfl, rfl⟩
  | delete key => exact ⟨rfl, rfl, rfl, rfl, rfl, rfl, .refl _, rfl, rfl⟩
  | fileSlabRead => exact .refl w
  | cacheWrite ent data off =>
      exact ⟨rfl, rfl, rfl, rfl, rfl, rfl, w.pagecache.data_completed _, rfl, rfl⟩
  | cacheRead ent =>
      exact ⟨rfl, rfl, rfl, rfl, rfl, rfl, w.pagecache.readCallback_completed ent, rfl, rfl⟩

/-- A callback changes nothing of the request but the part of the buffer it reports. -/
theorem runCallback_aio (w : Worker) (a : Aio) (callback : Callback) :
    ∃ size off, (w.runCallback a callback).2 = a.setReadSizeAndOff size off := by
  unfold runCallback
  split
  · cases callback with
    | fileSlabRead => exact ⟨_, _, rfl⟩
    | _ => exact ⟨a.readSize, a.readOff, rfl⟩
  · exact ⟨a.readSize, a.readOff, rfl⟩

theorem runCallbacks_aio (callbacks : List Callback) : ∀ (w : Worker) (a : Aio),
    ∃ size off, (runCallbacks callbacks w a).2 = a.setReadSizeAndOff size off := by
  induction callbacks with
  | nil => exact fun w a => ⟨a.readSize, a.readOff, rfl⟩
  | cons callback rest ih =>
      intro w a
      obtain ⟨size, off, first⟩ := w.runCallback_aio a callback
      obtain ⟨size', off', later⟩ := ih (w.runCallback a callback).1 (w.runCallback a callback).2
      refine ⟨size', off', ?_⟩
      rw [runCallbacks, later, first]
      rfl

/-- `AIO::Finish` runs the callbacks and reports the I/O's own result to the batch. -/
theorem finish_eq (w : Worker) (a : Aio) :
    ∃ data, w.finish a = ((runCallbacks a.callbacks w a).1, a.batch.finishRequest data a.result) := by
  obtain ⟨size, off, kept⟩ := runCallbacks_aio a.callbacks w a
  have same : (a.setReadSizeAndOff size off).opcode = a.opcode := rfl
  cases opcode : a.opcode with
  | pread =>
      simp only [finish, kept, same, opcode]
      exact ⟨_, rfl⟩
  | pwrite =>
      simp only [finish, kept, same, opcode]
      exact ⟨_, rfl⟩

theorem runCallbacks_spec : ∀ (callbacks : List Callback) (w : Worker) (a : Aio),
    a.success = true →
      Advanced w (runCallbacks callbacks w a).1 (callbacks.foldl Callback.onIndex w.index)
        (callbacks.foldl (Callback.onData w.page) w.pagecache.data) ∧
      ∃ size off, (runCallbacks callbacks w a).2 = a.setReadSizeAndOff size off
  | [], w, a, _ => ⟨.refl w, a.readSize, a.readOff, rfl⟩
  | callback :: rest, w, a, success => by
      have first := w.runCallback_advanced success callback
      obtain ⟨size, off, same⟩ := w.runCallback_aio a callback
      have success' : (w.runCallback a callback).2.success = true := by rw [same]; exact success
      obtain ⟨later, size', off', same'⟩ := runCallbacks_spec rest _ _ success'
      rw [first.index, first.data, first.page] at later
      refine ⟨first.trans later, size', off', ?_⟩
      rw [runCallbacks, same', same]
      rfl

theorem stamp_success_of_write {a : Aio} (isWrite : a.IsWrite) (disk : Disk) :
    (a.stamp disk).success = true ∧ (a.stamp disk).opcode = .pwrite := by
  simp [Aio.stamp, Aio.success, Aio.performEvent, isWrite.submit, isWrite.opcode]

theorem finish_write (w : Worker) {a : Aio} (isWrite : a.IsWrite) (disk : Disk) :
    Advanced w (w.finish (a.stamp disk)).1 (a.onIndex w.index) (a.onData w.page w.pagecache.data) ∧
      (w.finish (a.stamp disk)).2 = a.answer disk w.pagecache.data := by
  obtain ⟨success, opcode⟩ := stamp_success_of_write isWrite disk
  have callbacks : (a.stamp disk).callbacks = a.callbacks := by simp [Aio.stamp, isWrite.submit]
  have batch : (a.stamp disk).batch = a.batch := by simp [Aio.stamp, isWrite.submit]
  obtain ⟨advanced, size, off, same⟩ := runCallbacks_spec a.callbacks w (a.stamp disk) success
  have opcode' : (runCallbacks a.callbacks w (a.stamp disk)).2.opcode = .pwrite := by
    rw [same]; exact opcode
  have result : (runCallbacks a.callbacks w (a.stamp disk)).2.result = 0 := by
    rw [same, Aio.result, show ((a.stamp disk).setReadSizeAndOff size off).success =
      (a.stamp disk).success from rfl, success]
    rfl
  have batch' : (runCallbacks a.callbacks w (a.stamp disk)).2.batch = a.batch := by
    rw [same]; exact batch
  unfold finish
  rw [callbacks]
  simp only [opcode', result, batch']
  exact ⟨advanced, by simp [Aio.answer, isWrite.opcode]⟩

/-- Finishing a read changes neither the index nor the frames. -/
theorem finish_read (w : Worker) {a : Aio} (isRead : a.IsRead) (disk : Disk) :
    Advanced w (w.finish (a.stamp disk)).1 w.index w.pagecache.data ∧
      (w.finish (a.stamp disk)).2 = a.answer disk w.pagecache.data := by
  have opcode : (a.stamp disk).opcode = .pread := by
    unfold Aio.stamp; split <;> exact isRead.opcode
  have callbacks : (a.stamp disk).callbacks = a.callbacks := by unfold Aio.stamp; split <;> rfl
  by_cases success : (a.stamp disk).success = true
  · have success' : ∀ size off, ((a.stamp disk).setReadSizeAndOff size off).success = true :=
      fun _ _ => success
    have opcode' : ∀ size off, ((a.stamp disk).setReadSizeAndOff size off).opcode = .pread :=
      fun _ _ => opcode
    have result : ∀ size off, ((a.stamp disk).setReadSizeAndOff size off).result =
        (a.stamp disk).result := fun _ _ => rfl
    rcases isRead.callbacks with ⟨-, shape⟩ | ⟨-, ent, shape⟩
    · rw [shape] at callbacks
      simp only [finish, callbacks, runCallbacks, runCallback, if_pos success, opcode', result,
        Aio.answer, isRead.opcode]
      exact ⟨.refl w, rfl⟩
    · rw [shape] at callbacks
      simp only [finish, callbacks, runCallbacks, runCallback, if_pos success, success', if_true,
        opcode', result, Aio.answer, isRead.opcode]
      exact ⟨⟨rfl, rfl, rfl, rfl, rfl, rfl, w.pagecache.readCallback_completed ent, rfl, rfl⟩, rfl⟩
  · have idle : ∀ callback, w.runCallback (a.stamp disk) callback = (w, a.stamp disk) := by
      intro callback
      unfold runCallback
      rw [if_neg success]
    have ran : runCallbacks (a.stamp disk).callbacks w (a.stamp disk) = (w, a.stamp disk) := by
      rw [callbacks]
      rcases isRead.callbacks with ⟨-, shape⟩ | ⟨-, ent, shape⟩ <;>
        simp only [shape, runCallbacks, idle]
    simp only [finish, ran, opcode, Aio.answer, isRead.opcode, if_neg success]
    exact ⟨.refl w, by trivial⟩

/-- Finishing a page load that succeeded. -/
theorem finish_load (w : Worker) {a : Aio} {ent : Nat} {disk : Disk} (isRead : a.opcode = .pread)
    (callbacks : a.callbacks = [.fileSlabRead, .cacheRead ent])
    (success : (a.stamp disk).success = true) :
    (w.finish (a.stamp disk)).1 = w.setPagecache (w.pagecache.readCallback ent) := by
  have opcode : ∀ size off, ((a.stamp disk).setReadSizeAndOff size off).opcode = .pread := by
    intro size off
    unfold Aio.stamp
    split <;> exact isRead
  have success' : ∀ size off, ((a.stamp disk).setReadSizeAndOff size off).success = true :=
    fun _ _ => success
  have same : (a.stamp disk).callbacks = [.fileSlabRead, .cacheRead ent] := by
    unfold Aio.stamp
    split <;> exact callbacks
  simp only [finish, same, runCallbacks, runCallback, if_pos success, success', if_true, opcode]

theorem onIndex_of_read {a : Aio} (isRead : a.IsRead) (index : Std.TreeMap Slice SlabT) :
    a.onIndex index = index := by
  rcases isRead.callbacks with ⟨-, shape⟩ | ⟨-, ent, shape⟩ <;> simp only [Aio.onIndex, shape] <;> rfl

theorem onData_of_read {a : Aio} (isRead : a.IsRead) (page : Nat → Nat) (memory : Memory) :
    a.onData page memory = memory := by
  rcases isRead.callbacks with ⟨-, shape⟩ | ⟨-, ent, shape⟩ <;> simp only [Aio.onData, shape] <;> rfl

theorem finish_prepared (w : Worker) {a : Aio} (prepared : a.Prepared) (disk : Disk) :
    Advanced w (w.finish (a.stamp disk)).1 (a.onIndex w.index) (a.onData w.page w.pagecache.data) ∧
      (w.finish (a.stamp disk)).2 = a.answer disk w.pagecache.data := by
  rcases prepared with isRead | isWrite
  · rw [onIndex_of_read isRead, onData_of_read isRead]
    exact w.finish_read isRead disk
  · exact w.finish_write isWrite disk

/-! ## The end of a round -/

/-- A request that is not submitted is a read, and performs nothing. -/
theorem performDisk_of_not_submit {a : Aio} (prepared : a.Prepared) (idle : a.submit = false)
    (disk : Disk) : a.performDisk disk = disk := by
  rcases prepared with isRead | isWrite
  · simp [Aio.performDisk, isRead.opcode]
  · rw [isWrite.submit] at idle
    cases idle

theorem inOrder_spec : ∀ (queue : List Aio) (disk : Disk) (memory : Memory),
    (∀ a ∈ queue, a.Prepared) →
      (Kernel.inOrder disk memory (queue.filter Aio.submit)).1 =
        queue.foldl (fun disk a => a.performDisk disk) disk ∧
      (Kernel.inOrder disk memory (queue.filter Aio.submit)).2.1 = loads queue disk memory
  | [], _, _, _ => ⟨rfl, rfl⟩
  | a :: rest, disk, memory, prepared => by
      have later := inOrder_spec rest (a.performDisk disk) (a.load disk memory)
        fun b member => prepared b (List.mem_cons_of_mem _ member)
      cases submitted : a.submit with
      | true =>
          simp only [Aio.load, submitted, if_true] at later
          simpa [List.filter_cons, submitted, Kernel.inOrder, loads, Aio.load] using later
      | false =>
          have same := performDisk_of_not_submit (prepared a (List.mem_cons_self ..)) submitted disk
          rw [same] at later
          simpa [List.filter_cons, submitted, loads, Aio.load, same] using later

theorem finishAll_spec : ∀ (queue : List Aio) (disk : Disk) (memory : Memory) (w : Worker),
    (∀ a ∈ queue, a.Prepared) →
      Advanced w (finishAll queue (Kernel.inOrder disk memory (queue.filter Aio.submit)).2.2 w).1
        (queue.foldl Aio.onIndex w.index) (queue.foldl (Aio.onData w.page) w.pagecache.data) ∧
      (finishAll queue (Kernel.inOrder disk memory (queue.filter Aio.submit)).2.2 w).2 =
        answers w.page queue disk w.pagecache.data
  | [], _, _, w, _ => ⟨.refl w, rfl⟩
  | a :: rest, disk, memory, w, prepared => by
      have head := prepared a (List.mem_cons_self ..)
      obtain ⟨advanced, effect⟩ := w.finish_prepared head disk
      have later := finishAll_spec rest (a.performDisk disk) (a.load disk memory)
        (w.finish (a.stamp disk)).1 fun b member => prepared b (List.mem_cons_of_mem _ member)
      rw [advanced.index, advanced.data, advanced.page] at later
      have unfolded : finishAll (a :: rest)
            (Kernel.inOrder disk memory ((a :: rest).filter Aio.submit)).2.2 w =
          let after := finishAll rest (Kernel.inOrder (a.performDisk disk) (a.load disk memory)
            (rest.filter Aio.submit)).2.2 (w.finish (a.stamp disk)).1
          (after.1, (w.finish (a.stamp disk)).2 :: after.2) := by
        cases submitted : a.submit with
        | true =>
            simp [finishAll, submitted, Kernel.inOrder, Aio.load, Aio.stamp]
        | false =>
            simp [finishAll, submitted, Aio.load, Aio.stamp,
              performDisk_of_not_submit head submitted]
      rw [unfolded]
      exact ⟨advanced.trans later.1, by simp only [answers, effect, later.2]⟩

/-- **The end of a round does what was pending.** -/
theorem settle_spec (w : Worker) (prepared : ∀ a ∈ w.ioQueue, a.Prepared) :
    (w.settle .inOrder).1.id = w.id ∧
    (w.settle .inOrder).1.slab.slabs = w.slab.slabs ∧
    (w.settle .inOrder).1.slab.fileSet.fileSet = w.slab.fileSet.fileSet ∧
    (w.settle .inOrder).1.disk = w.pendDisk ∧
    (w.settle .inOrder).1.index = w.pendIndex ∧
    (w.settle .inOrder).1.pagecache.data = w.pendData ∧
    w.pagecache.Completed (w.settle .inOrder).1.pagecache ∧
    (w.settle .inOrder).1.ioQueue = [] ∧
    (w.settle .inOrder).2 = answers w.page w.ioQueue w.disk w.loadedData := by
  obtain ⟨diskIs, memoryIs⟩ := inOrder_spec w.ioQueue w.disk w.pagecache.data prepared
  let io := Kernel.inOrder w.disk w.pagecache.data (w.ioQueue.filter Aio.submit)
  let w' := { (w.setDisk io.1).setPagecache { w.pagecache with data := io.2.1 } with ioQueue := [] }
  have unfolded : w.settle .inOrder = finishAll w.ioQueue io.2.2 w' := by
    unfold settle
    cases empty : w.ioQueue.filter Aio.submit with
    | nil => simp [io, w', empty, Kernel.inOrder]
    | cons a rest => simp [io, w', empty]
  obtain ⟨advanced, effects⟩ := finishAll_spec w.ioQueue w.disk w.pagecache.data w' prepared
  rw [unfolded]
  have loaded : w'.pagecache.data = w.loadedData := memoryIs
  rw [loaded] at advanced effects
  exact ⟨advanced.id, advanced.slabs, advanced.fileSet, advanced.disk.trans diskIs, advanced.index,
    advanced.data, (w.pagecache.data_completed _).trans advanced.cache, advanced.ioQueue, effects⟩

/-- A page load that is alone in the queue and succeeds stops its entry waiting. -/
theorem settle_load {w : Worker} {a : Aio} {ent : Nat} (alone : w.ioQueue = [a])
    (opcode : a.opcode = .pread) (submitted : a.submit = true)
    (callbacks : a.callbacks = [.fileSlabRead, .cacheRead ent])
    (success : (a.stamp w.disk).success = true) :
    ((w.settle .inOrder).1.pagecache.entry ent).wait = false := by
  have ends : ∃ w' : Worker, (w.settle .inOrder).1 = (w'.finish (a.stamp w.disk)).1 := by
    simp only [settle, alone, List.filter_cons, submitted, if_true, List.filter_nil,
      List.isEmpty_cons, Bool.false_eq_true, if_false, Kernel.inOrder, finishAll, List.head?_cons,
      Option.map_some, Aio.stamp]
    exact ⟨_, rfl⟩
  obtain ⟨w', ends⟩ := ends
  rw [ends, finish_load _ opcode callbacks success, setPagecache, PageCache.readCallback,
    PageCache.modify_entry, if_pos rfl]

end Worker

end KTableFS.Kvengine
