/-
# Kvengine.Db -- the workers' threads and the batches that hop between them

`Db n` is `kvengine::DB` with `n` workers.  Each worker has a thread, and a thread
is always in one of two places of `Worker::Main_` (`Phase`): taking batches off its
queue, or finishing the I/O of the round.  The threads share nothing but the batch
queues, so the steps of the system are the pieces of `Main_` between two accesses
to a queue: pop a batch and process its first request, submit the round's I/O and
wait for it, finish one request.  Any interleaving of these steps is a run.

A batch moves on by itself: whoever finishes its current request either calls its
callback or hands it to `DB::Submit` again, which pushes it on the queue of the
worker its next request belongs to.

A `Journal` is a database with what has happened to it: the batches submitted, and
every execution of a request and every effect, in order.
-/
import KTableFS.Kvengine.Worker

namespace KTableFS.Kvengine

open KTableFS.Theory

set_option autoImplicit false

/-- Where a worker's thread stands in `Worker::Main_`. -/
inductive Phase where
  /-- In the popping loop, `cnt` batches into the round. -/
  | popping (cnt : Nat)
  /-- In the finishing loop: the requests left, and the events for them. -/
  | finishing (left : List Aio) (events : List IoEvent)

/-- A worker with its `batch_queue_` and its thread. -/
structure Node where
  worker : Worker
  batchQueue : List Batch
  phase : Phase

structure Db (n : Nat) where
  nodes : Fin n → Node

/-! ## Routing -/

section Routing

variable (split : Slice → Nat → Nat) (n : Nat)

/-- The worker a request is sent to: `split_func_` of its key, or a scan's tag. -/
def route : Request → Nat
  | .get key => split key n
  | .put key _ => split key n
  | .update key _ => split key n
  | .delete key => split key n
  | .scan _ _ _ worker => worker

/-- The requests `DB::Submit` appends for a scan that has no tag yet. -/
def scanCopies : Request → List Request
  | .scan minKey maxKey callback 0 =>
      (List.range (n - 1)).map fun i => .scan minKey maxKey callback (i + 1)
  | _ => []

end Routing

/-- `DefaultSplitFunc`. -/
def defaultSplitFunc (key : Slice) (threadNum : Nat) : Nat := key.hash.toNat % threadNum

namespace Db

variable {n : Nat}

def set (db : Db n) (i : Fin n) (node : Node) : Db n := ⟨Function.update db.nodes i node⟩

@[simp] theorem set_same (db : Db n) (i : Fin n) (node : Node) : (db.set i node).nodes i = node :=
  Function.update_self ..

theorem set_other (db : Db n) {i j : Fin n} (node : Node) (differ : j ≠ i) :
    (db.set i node).nodes j = db.nodes j :=
  Function.update_of_ne differ ..

/-- `Worker::Submit`. -/
def push (db : Db n) (i : Fin n) (batch : Batch) : Db n :=
  db.set i { db.nodes i with batchQueue := (db.nodes i).batchQueue ++ [batch] }

/-- `DB::Submit(batch, false)`. -/
def submit (split : Slice → Nat → Nat) (db : Db n) (batch : Batch) : Option (Db n) :=
  match batch.requests with
  | [] => none
  | req :: _ =>
      if inRange : route split n req < n then
        some (db.push ⟨route split n req, inRange⟩
          { batch with requests := batch.requests ++ scanCopies n req })
      else none

/-- The effects of a worker on the others: batches submitted again. -/
def perform (split : Slice → Nat → Nat) : Db n → List Effect → Option (Db n)
  | db, [] => some db
  | db, .submit batch :: rest => (db.submit split batch).bind fun db => perform split db rest
  | db, _ :: rest => perform split db rest

end Db

/-! ## The steps of a thread -/

/-- What has happened, in order. -/
inductive Event where
  /-- `ProcessRequest_` took this request of the batch, on this worker. -/
  | executed (worker batch : Nat) (req : Request)
  | effect (effect : Effect)

/-- The I/O of a round: what was queued is submitted and has completed. -/
def Worker.performIo (kernel : Kernel) (w : Worker) : Worker × List IoEvent :=
  let iocbs := w.ioQueue.filter Aio.submit
  let io := if iocbs.isEmpty then (w.disk, w.pagecache.data, []) else
    kernel w.disk w.pagecache.data iocbs
  ({ (w.setDisk io.1).setPagecache { w.pagecache with data := io.2.1 } with ioQueue := [] }, io.2.2)

/-- A round ends by performing its I/O and finishing all of it. -/
theorem Worker.settle_eq (kernel : Kernel) (w : Worker) :
    w.settle kernel = finishAll w.ioQueue (w.performIo kernel).2 (w.performIo kernel).1 := rfl

namespace Db

variable {n : Nat}

/-- `TryPop` and `ProcessRequest_`. -/
def pop (split : Slice → Nat → Nat) (db : Db n) (i : Fin n) : Option (Db n × List Event) :=
  match (db.nodes i).phase, (db.nodes i).batchQueue with
  | .popping cnt, batch :: rest =>
      match batch.requests with
      | [] => none
      | req :: _ =>
          if cnt < maxEvent then
            match (db.nodes i).worker.processRequest batch with
            | none => none
            | some (w, effects) =>
                (perform split (db.set i ⟨w, rest, .popping (cnt + 1)⟩) effects).map fun db =>
                  (db, .executed i batch.id req :: effects.map .effect)
          else none
  | _, _ => none

/-- The popping loop has ended: the round's I/O is submitted and waited for. -/
def flush (kernel : Kernel) (db : Db n) (i : Fin n) : Option (Db n × List Event) :=
  let node := db.nodes i
  match node.phase with
  | .popping cnt =>
      if 0 < cnt ∧ (node.batchQueue.isEmpty ∨ cnt = maxEvent) then
        let io := node.worker.performIo kernel
        some (db.set i ⟨io.1, node.batchQueue, .finishing node.worker.ioQueue io.2⟩, [])
      else none
  | .finishing .. => none

/-- One turn of the finishing loop, or its end. -/
def finish (split : Slice → Nat → Nat) (db : Db n) (i : Fin n) : Option (Db n × List Event) :=
  let node := db.nodes i
  match node.phase with
  | .popping _ => none
  | .finishing [] _ => some (db.set i { node with phase := .popping 0 }, [])
  | .finishing (aio :: rest) events =>
      let aio' := if aio.submit then { aio with event := events.head?.map IoEvent.res } else aio
      let finished := node.worker.finish aio'
      let events' := if aio.submit then events.tail else events
      (perform split (db.set i ⟨finished.1, node.batchQueue, .finishing rest events'⟩)
        [finished.2]).map fun db => (db, [.effect finished.2])

/-- What popping did: a request of a queued batch was processed, and its effects
performed. -/
theorem pop_eq_some {split : Slice → Nat → Nat} {db : Db n} {i : Fin n} {out : Db n × List Event}
    (popped : db.pop split i = some out) :
    ∃ cnt batch tail req rest w effects db', (db.nodes i).phase = .popping cnt ∧
      (db.nodes i).batchQueue = batch :: tail ∧ batch.requests = req :: rest ∧ cnt < maxEvent ∧
      (db.nodes i).worker.processRequest batch = some (w, effects) ∧
      perform split (db.set i ⟨w, tail, .popping (cnt + 1)⟩) effects = some db' ∧
      out = (db', .executed i batch.id req :: effects.map .effect) := by
  unfold pop at popped
  split at popped
  · rename_i cnt batch tail phase queue
    split at popped
    · cases popped
    · rename_i req rest shape
      split at popped
      · rename_i room
        split at popped
        · cases popped
        · rename_i w effects processed
          obtain ⟨db', performed, rfl⟩ := Option.map_eq_some_iff.mp popped
          exact ⟨cnt, batch, tail, req, rest, w, effects, db', phase, queue, shape, room, processed,
            performed, rfl⟩
      · cases popped
  · cases popped

theorem flush_eq_some {kernel : Kernel} {db : Db n} {i : Fin n} {out : Db n × List Event}
    (flushed : db.flush kernel i = some out) :
    ∃ cnt, (db.nodes i).phase = .popping cnt ∧
      out = (db.set i ⟨((db.nodes i).worker.performIo kernel).1, (db.nodes i).batchQueue,
        .finishing (db.nodes i).worker.ioQueue ((db.nodes i).worker.performIo kernel).2⟩, []) := by
  unfold flush at flushed
  simp only at flushed
  split at flushed
  · rename_i cnt phase
    split at flushed
    · cases flushed
      exact ⟨cnt, phase, rfl⟩
    · cases flushed
  · cases flushed

/-- What a turn of the finishing loop did: it ended, or finished the first request left. -/
theorem finish_eq_some {split : Slice → Nat → Nat} {db : Db n} {i : Fin n} {out : Db n × List Event}
    (finished : db.finish split i = some out) :
    (∃ events, (db.nodes i).phase = .finishing [] events ∧
      out = (db.set i { db.nodes i with phase := .popping 0 }, [])) ∨
    ∃ aio rest events aio' events' db', (db.nodes i).phase = .finishing (aio :: rest) events ∧
      aio' = (if aio.submit then { aio with event := events.head?.map IoEvent.res } else aio) ∧
      perform split (db.set i ⟨((db.nodes i).worker.finish aio').1, (db.nodes i).batchQueue,
        .finishing rest events'⟩) [((db.nodes i).worker.finish aio').2] = some db' ∧
      out = (db', [.effect ((db.nodes i).worker.finish aio').2]) := by
  unfold finish at finished
  simp only at finished
  split at finished
  · cases finished
  · rename_i events phase
    cases finished
    exact Or.inl ⟨events, phase, rfl⟩
  · rename_i aio rest events phase
    obtain ⟨db', performed, rfl⟩ := Option.map_eq_some_iff.mp finished
    exact Or.inr ⟨aio, rest, events, _, _, db', phase, rfl, performed, rfl⟩

end Db

/-! ## Runs -/

/-- A step of the system: a client's `DB::Submit`, or a step of a worker's thread. -/
inductive Act (n : Nat) where
  | submit (requests : List Request)
  | pop (i : Fin n)
  | flush (i : Fin n)
  | finish (i : Fin n)

structure Journal (n : Nat) where
  db : Db n
  /-- The submitted batches; a batch is named by its position. -/
  submitted : List (List Request)
  log : List Event

namespace Journal

variable {n : Nat}

/-- `n` new workers, idle. -/
def new (n : Nat) (workDir : String) (pages : Nat) (junk : Memory) : Journal n where
  db := ⟨fun i => ⟨.new i workDir pages junk, [], .popping 0⟩⟩
  submitted := []
  log := []

def record (j : Journal n) (out : Db n × List Event) : Journal n :=
  { j with db := out.1, log := j.log ++ out.2 }

def next (split : Slice → Nat → Nat) (kernel : Kernel) (j : Journal n) :
    Act n → Option (Journal n × Unit)
  | .submit requests =>
      (j.db.submit split ⟨j.submitted.length, requests, []⟩).map fun db =>
        ({ j with db := db, submitted := j.submitted ++ [requests] }, ())
  | .pop i => (j.db.pop split i).map fun out => (j.record out, ())
  | .flush i => (j.db.flush kernel i).map fun out => (j.record out, ())
  | .finish i => (j.db.finish split i).map fun out => (j.record out, ())

end Journal

end KTableFS.Kvengine
