/-
# Kvengine.Worker -- one worker: its index, its slabs, its rounds of I/O

A `Worker` is `kvengine::Worker` between two statements of `Main_`: the ordered
index, the slab allocator with the files and the page cache behind it, and the
I/O queue of the round in progress.

A round of `Main_` takes batches off the queue one after another
(`processRequest`; at most `maxEvent` of them), submits the requests this queued,
and then finishes them in queue order (`settle`).  The index changes only in the
completion callbacks, the slab allocator and the recency list already when a
request is processed.

`none` is a round the program does not survive: an exception no handler catches
(`FileSlab::Create` of an oversized item), an access outside `file_set_`, or a page
cache operation through a null pointer.
-/
import KTableFS.Kvengine.FileSlab

namespace KTableFS.Kvengine

open KTableFS.Theory

set_option autoImplicit false

/-- `AIO::MAX_EVENT`, from `AIO_MAX_EVENTS`. -/
def maxEvent : Nat := 64

structure Worker where
  id : Nat
  index : Std.TreeMap Slice SlabT
  slab : FileSlab
  ioQueue : List Aio

namespace Worker

/-- `Worker::Worker(id, work_dir)`; `pages` is `PAGECACHE_NR_PAGE`. -/
def new (id : Nat) (workDir : String) (pages : Nat) (junk : Memory) : Worker where
  id := id
  index := ∅
  slab := .new (.new (workDir ++ "/" ++ toString id) (.new pages junk)) (2 ^ 16)
    [64, 128, 256, 512, 1024]
  ioQueue := []

abbrev pagecache (w : Worker) : PageCache := w.slab.fileSet.pagecache

abbrev disk (w : Worker) : Disk := w.slab.fileSet.disk

def setPagecache (w : Worker) (c : PageCache) : Worker :=
  { w with slab := { w.slab with fileSet := { w.slab.fileSet with pagecache := c } } }

def setDisk (w : Worker) (disk : Disk) : Worker :=
  { w with slab := { w.slab with fileSet := { w.slab.fileSet with disk := disk } } }

/-! ## Processing one request -/

/-- The entries a scan visits: from `lower_bound(min_key)` while the key is below
`max_key`. -/
def scanRange (index : Std.TreeMap Slice SlabT) (minKey maxKey : Slice) : List (Slice × SlabT) :=
  (index.toList.dropWhile fun entry => entry.1.lt minKey).takeWhile fun entry => entry.1.lt maxKey

/-- One call of the scan callback.  An answer of `false` clears the batch and
finishes it; the loop of the source goes on all the same. -/
def deliver (callback : ScanCallback) (batch : Batch) (pair : Slice × Slice) :
    Batch × List Effect :=
  let batch := { batch with delivered := batch.delivered ++ [pair] }
  if callback batch.delivered then (batch, [.scanned batch.id pair.1 pair.2 true])
  else
    let batch := { batch with requests := [] }
    (batch, [.scanned batch.id pair.1 pair.2 false, batch.finishRequest none (-1)])

/-- The loop of the SCAN case. -/
def scanLoop (callback : ScanCallback) : List (Slice × SlabT) → FileSlab → Batch →
    Option (FileSlab × Batch × List Effect)
  | [], fs, batch => some (fs, batch, [])
  | entry :: rest, fs, batch =>
      match fs.readSync entry.2 with
      | none => none
      | some (pair, fs) =>
          let called := deliver callback batch pair
          (scanLoop callback rest fs called.1).map fun out =>
            (out.1, out.2.1, called.2 ++ out.2.2)

/-- Queue a prepared request: `AIO::Submit` and `AIO::FakeSubmit`. -/
def enqueue (w : Worker) (prepared : Option (Aio × FileSlab)) : Option (Worker × List Effect) :=
  prepared.map fun out => ({ w with slab := out.2, ioQueue := w.ioQueue ++ [out.1] }, [])

/-- `Worker::ProcessRequest_`. -/
def processRequest (w : Worker) (batch : Batch) : Option (Worker × List Effect) :=
  match batch.requests with
  | [] => some (w, [])
  | req :: rest =>
      let batch := { batch with requests := rest }
      let aio := Aio.new w.ioQueue.length batch
      match req with
      | .get key =>
          match w.index[key]? with
          | none => some (w, [batch.finishRequest none enoent])
          | some slab => w.enqueue (w.slab.read slab aio)
      | .put key value =>
          match w.index[key]? with
          | some _ => some (w, [batch.finishRequest none eexist])
          | none =>
              match w.slab.create key value with
              | none => none
              | some (slab, fs) =>
                  w.enqueue (fs.write slab key value (aio.addCallback (.put key slab)))
      | .update key value =>
          match w.index[key]? with
          | none => some (w, [batch.finishRequest none enoent])
          | some slab => w.enqueue (w.slab.write slab key value aio)
      | .delete key =>
          match w.index[key]? with
          | none => some (w, [batch.finishRequest none enoent])
          | some slab => w.enqueue (w.slab.delete slab (aio.addCallback (.delete key)))
      | .scan minKey maxKey callback _ =>
          (scanLoop callback (scanRange w.index minKey maxKey) w.slab batch).map fun out =>
            ({ w with slab := out.1 }, out.2.2 ++ [out.2.1.finishRequest none 0])

/-! ## Completing a round -/

/-- One completion callback of a finished request. -/
def runCallback (w : Worker) (aio : Aio) (callback : Callback) : Worker × Aio :=
  if aio.success then
    match callback with
    | .put key slab => ({ w with index := w.index.insertIfNew key slab }, aio)
    | .delete key => ({ w with index := w.index.erase key }, aio)
    | .fileSlabRead =>
        let data := aio.frame + aio.readOff
        let keySize := loadLE (cut w.pagecache.data (data + 2) 2)
        let valueSize := loadLE (cut w.pagecache.data (data + 4) 2)
        (w, aio.setReadSizeAndOff valueSize (aio.readOff + 6 + keySize))
    | .cacheWrite ent data off => (w.setPagecache (w.pagecache.writeCallback ent data off), aio)
    | .cacheRead ent => (w.setPagecache (w.pagecache.readCallback ent), aio)
  else (w, aio)

/-- The callbacks of a finished request, in the order they were added. -/
def runCallbacks : List Callback → Worker → Aio → Worker × Aio
  | [], w, aio => (w, aio)
  | callback :: rest, w, aio =>
      let ran := w.runCallback aio callback
      runCallbacks rest ran.1 ran.2

/-- `AIO::Finish`. -/
def finish (w : Worker) (aio : Aio) : Worker × Effect :=
  let ran := runCallbacks aio.callbacks w aio
  match ran.2.opcode with
  | .pread =>
      let data := cut ran.1.pagecache.data (ran.2.frame + ran.2.readOff) ran.2.readSize
      (ran.1, ran.2.batch.finishRequest (some data) ran.2.result)
  | .pwrite => (ran.1, ran.2.batch.finishRequest none ran.2.result)

/-- The finishing loop: the events are handed out by position. -/
def finishAll : List Aio → List IoEvent → Worker → Worker × List Effect
  | [], _, w => (w, [])
  | aio :: rest, events, w =>
      let aio' := if aio.submit then { aio with event := events.head?.map IoEvent.res } else aio
      let finished := w.finish aio'
      let after := finishAll rest (if aio.submit then events.tail else events) finished.1
      (after.1, finished.2 :: after.2)

/-- The second half of a round: submit what was queued, wait for it, finish it. -/
def settle (kernel : Kernel) (w : Worker) : Worker × List Effect :=
  let iocbs := w.ioQueue.filter Aio.submit
  let io := if iocbs.isEmpty then (w.disk, w.pagecache.data, []) else
    kernel w.disk w.pagecache.data iocbs
  let w' := (w.setDisk io.1).setPagecache { w.pagecache with data := io.2.1 }
  finishAll w.ioQueue io.2.2 { w' with ioQueue := [] }

/-- The first half: the popped batches, one after another. -/
def processAll (w : Worker) : List Batch → Option (Worker × List Effect)
  | [] => some (w, [])
  | batch :: rest =>
      match w.processRequest batch with
      | none => none
      | some (w, effects) =>
          (processAll w rest).map fun out => (out.1, effects ++ out.2)

/-- One iteration of `Worker::Main_` over the batches it pops. -/
def round (kernel : Kernel) (w : Worker) (batches : List Batch) : Option (Worker × List Effect) :=
  (w.processAll batches).map fun mid =>
    let done := mid.1.settle kernel
    (done.1, mid.2 ++ done.2)

end Worker

end KTableFS.Kvengine
