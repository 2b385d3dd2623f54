/-
# Kvengine.Solo -- one batch, alone in the system

A batch is at one place at a time: on a worker's queue, behind one I/O of a worker, or
answered.  With no other batch in the system every worker but that one is idle, and
whatever the threads do in whatever order, the requests are served one by one.

* `Aio.carry`: the batch is a passenger of its I/O; what a worker does for a request
  depends on the request alone (`Served.taken`);
* `Solo`: the state of the system while the batch is in it; `Solo.next` says that every
  step of every thread keeps it, and `Solo.completes` that some run answers the batch;
* `schedule`: the order in which the workers take the requests.  `DB::Submit` appends
  the copies of a scan behind the requests the batch already has.
-/
import KTableFS.Kvengine.Custody
import KTableFS.Kvengine.Shares

namespace KTableFS.Kvengine

open KTableFS.Theory

set_option autoImplicit false

/-! ## The batch is a passenger of its I/O -/

/-- The same I/O for another batch. -/
def Aio.carry (a : Aio) (batch : Batch) : Aio := { a with batch := batch }

namespace LocalFileSet

variable (fs : LocalFileSet) (aio : Aio) (batch : Batch)

theorem read_carry (file size off : Nat) :
    fs.read file size off (aio.carry batch) =
      (fs.read file size off aio).map fun out => (out.1.carry batch, out.2) := by
  unfold read
  split
  · simp only
    split
    · rfl
    · rfl
    · split <;> rfl
  · rfl

theorem write_carry (file : Nat) (data : Slice) (off : Nat) :
    fs.write file data off (aio.carry batch) =
      (fs.write file data off aio).map fun out => (out.1.carry batch, out.2) := by
  unfold write
  split
  · simp only
    split <;> rfl
  · rfl

end LocalFileSet

theorem runCallback_carry (w : Worker) (a : Aio) (batch : Batch) (callback : Callback) :
    w.runCallback (a.carry batch) callback =
      ((w.runCallback a callback).1, (w.runCallback a callback).2.carry batch) := by
  unfold Worker.runCallback
  rw [show (a.carry batch).success = a.success from rfl]
  split
  · cases callback <;> rfl
  · rfl

theorem runCallbacks_carry (callbacks : List Callback) : ∀ (w : Worker) (a : Aio) (batch : Batch),
    Worker.runCallbacks callbacks w (a.carry batch) =
      ((Worker.runCallbacks callbacks w a).1, (Worker.runCallbacks callbacks w a).2.carry batch) := by
  induction callbacks with
  | nil => exact fun _ _ _ => rfl
  | cons callback rest ih =>
      intro w a batch
      simp only [Worker.runCallbacks, runCallback_carry]
      exact ih _ _ _

/-- Which batch an I/O is for changes nothing in the worker. -/
theorem finish_carry (w : Worker) (a : Aio) (batch : Batch) :
    (w.finish (a.carry batch)).1 = (w.finish a).1 := by
  unfold Worker.finish
  rw [show (a.carry batch).callbacks = a.callbacks from rfl]
  simp only [runCallbacks_carry]
  rw [show ((Worker.runCallbacks a.callbacks w a).2.carry batch).opcode =
    (Worker.runCallbacks a.callbacks w a).2.opcode from rfl]
  split <;> rfl

namespace Worker

variable {w : Worker} (between : w.ioQueue = [])

include between

theorem performIo_carry (fs : FileSlab) (a : Aio) (batch : Batch) :
    (w.queue fs (a.carry batch)).performIo .inOrder = (w.queue fs a).performIo .inOrder := by
  unfold performIo
  simp only [queue_ioQueue, between, List.nil_append]
  by_cases submitted : a.submit = true
  · rw [List.filter_cons_of_pos submitted, List.filter_cons_of_pos (show (a.carry batch).submit = true from
      submitted)]
    rfl
  · rw [List.filter_cons_of_neg submitted, List.filter_cons_of_neg (show ¬(a.carry batch).submit = true from
      submitted)]
    rfl

/-- A round of one I/O ends alike for every batch. -/
theorem settle_carry (fs : FileSlab) (a : Aio) (batch : Batch) :
    ((w.queue fs (a.carry batch)).settle .inOrder).1 = ((w.queue fs a).settle .inOrder).1 := by
  rw [settle_eq, settle_eq, performIo_carry between]
  simp only [queue_ioQueue, between, List.nil_append, finishAll]
  rw [show (a.carry batch).submit = a.submit from rfl]
  split
  · exact finish_carry _ { a with
      event := ((w.queue fs a).performIo .inOrder).2.head?.map IoEvent.res } batch
  · exact finish_carry _ a batch

/-- A round without I/O. -/
theorem performIo_between (kernel : Kernel) : w.performIo kernel = (w, []) := by
  obtain ⟨id, index, slab, ioQueue⟩ := w
  cases between
  rfl

theorem settle_between : w.settle .inOrder = (w, []) := by
  rw [settle_eq, performIo_between between .inOrder, between]
  rfl

end Worker

theorem finishAll_queue (queue : List Aio) : ∀ (events : List IoEvent) (w : Worker),
    (Worker.finishAll queue events w).1.ioQueue = w.ioQueue := by
  induction queue with
  | nil => exact fun _ _ => rfl
  | cons a rest ih =>
      intro events w
      simp only [Worker.finishAll]
      rw [ih, (finish_hands ..).1]

/-- A round of one I/O finishes its batch. -/
theorem settle_one {w : Worker} {a : Aio} (queue : w.ioQueue = [a]) :
    ∃ data res, (w.settle .inOrder).2 = [a.batch.finishRequest data res] := by
  rw [Worker.settle_eq, queue]
  simp only [Worker.finishAll]
  by_cases submitted : a.submit = true
  · rw [if_pos submitted]
    obtain ⟨-, data, hands⟩ := finish_hands (w.performIo .inOrder).1
      { a with event := (w.performIo .inOrder).2.head?.map IoEvent.res }
    exact ⟨data, _, congrArg (fun effect => [effect]) hands⟩
  · rw [if_neg submitted]
    obtain ⟨-, data, hands⟩ := finish_hands (w.performIo .inOrder).1 a
    exact ⟨data, _, congrArg (fun effect => [effect]) hands⟩

/-- A request served alone leaves no I/O behind. -/
theorem serveOne_between {w w' : Worker} {req : Request} {effects : List Effect}
    (served : w.serveOne req = some (w', effects)) : w'.ioQueue = [] := by
  obtain ⟨mid, early, -, rfl, -⟩ := serveOne_eq_some served
  rw [Worker.settle_eq, finishAll_queue]
  rfl

/-! ## One request of a batch -/

/-- What `ProcessRequest_` does for a request of a batch, by what the request does when
it is served alone: `w'` and `effects`. -/
inductive Taken (w w' : Worker) (batch : Batch) (rest : List Request) (effects : List Effect) :
    Prop where
  /-- It is finished on the spot. -/
  | finished (last : Batch) (data : Option Slice) (res : Int) (named : last.id = batch.id)
      (left : last.requests = rest)
      (processed : w.processRequest batch = some (w', (pairsIn effects).map
        (fun pair => .scanned batch.id pair.1 pair.2 true) ++ [last.finishRequest data res]))
  /-- The batch goes with an I/O, which delivers nothing. -/
  | queued (mid : Worker) (a : Aio) (named : a.batch.id = batch.id) (left : a.batch.requests = rest)
      (queue : mid.ioQueue = [a]) (silent : pairsIn effects = [])
      (processed : w.processRequest batch = some (mid, []))
      (settles : (mid.settle .inOrder).1 = w')

/-- The branches of a point request, for any batch. -/
theorem Processed.carried {w mid : Worker} {req : Request} {effects : List Effect} {batch : Batch}
    {rest : List Request} (processed : Processed w 0 req mid effects) (point : req.isPoint = true)
    (shape : batch.requests = req :: rest) :
    (∃ res, mid = w ∧ effects = [.respond 0 none res] ∧ w.processRequest batch =
      some (w, [Batch.finishRequest { batch with requests := rest } none res])) ∨
    ∃ fs a, mid = w.queue fs a ∧ effects = [] ∧ w.processRequest batch =
      some (w.queue fs (a.carry { batch with requests := rest }), []) := by
  have blank : Aio.new w.ioQueue.length { batch with requests := rest } =
      (w.blankAio 0).carry { batch with requests := rest } := rfl
  cases processed with
  | @refused req res reason =>
      refine Or.inl ⟨res, rfl, rfl, ?_⟩
      unfold Worker.processRequest
      rw [shape]
      cases req with
      | scan minKey maxKey callback tag => cases point
      | get key =>
          simp only [Worker.refusal] at reason ⊢
          cases found : w.index[key]? <;> simp_all
      | put key value =>
          simp only [Worker.refusal] at reason ⊢
          cases found : w.index[key]? <;> simp_all
      | update key value =>
          simp only [Worker.refusal] at reason ⊢
          cases found : w.index[key]? <;> simp_all
      | delete key =>
          simp only [Worker.refusal] at reason ⊢
          cases found : w.index[key]? <;> simp_all
  | @get key slab a fs found queued =>
      refine Or.inr ⟨_, a, rfl, rfl, ?_⟩
      unfold Worker.processRequest
      rw [shape]
      simp only [found, FileSlab.read, Worker.enqueue, blank]
      rw [show ((w.blankAio 0).carry { batch with requests := rest }).addCallback .fileSlabRead =
        ((w.blankAio 0).addCallback .fileSlabRead).carry { batch with requests := rest } from rfl,
        LocalFileSet.read_carry, queued]
      rfl
  | @put key value slab slabs fs fs' a absent created queued =>
      refine Or.inr ⟨_, a, rfl, rfl, ?_⟩
      unfold Worker.processRequest
      rw [shape]
      simp only [absent, FileSlab.create, created, Option.map_some, FileSlab.write, Worker.enqueue, blank]
      rw [show ((w.blankAio 0).carry { batch with requests := rest }).addCallback (.put key slab) =
        ((w.blankAio 0).addCallback (.put key slab)).carry { batch with requests := rest } from rfl,
        LocalFileSet.write_carry, queued]
      rfl
  | @update key value slab a fs found queued =>
      refine Or.inr ⟨_, a, rfl, rfl, ?_⟩
      unfold Worker.processRequest
      rw [shape]
      simp only [found, FileSlab.write, Worker.enqueue, blank]
      rw [LocalFileSet.write_carry, queued]
      rfl
  | @delete key slab slabs a fs found freed queued =>
      refine Or.inr ⟨_, a, rfl, rfl, ?_⟩
      unfold Worker.processRequest
      rw [shape]
      simp only [found, FileSlab.delete, freed, Worker.enqueue, blank]
      rw [show ((w.blankAio 0).carry { batch with requests := rest }).addCallback (.delete key) =
        ((w.blankAio 0).addCallback (.delete key)).carry { batch with requests := rest } from rfl,
        LocalFileSet.write_carry, queued]
      rfl
  | scan scanned => cases point

theorem scanShare_of_unstopped {callback : ScanCallback}
    (unstopped : ∀ delivered, callback delivered = true) (pairs : List (Slice × Slice)) (batch : Batch) :
    scanShare callback pairs batch = ({ batch with delivered := batch.delivered ++ pairs },
      pairs.map fun pair => .scanned batch.id pair.1 pair.2 true) :=
  scanShare_of_goesOn fun seen _ _ => unstopped (batch.delivered ++ seen)

/-- **A request of a batch is served as the request alone is.** -/
theorem serveOne_taken {w w' : Worker} {req : Request} {effects : List Effect} {batch : Batch}
    {rest : List Request} (between : w.ioQueue = []) (unstopped : req.Unstopped)
    (shape : batch.requests = req :: rest) (served : w.serveOne req = some (w', effects)) :
    Taken w w' batch rest effects := by
  obtain ⟨mid, early, processed, rfl, rfl⟩ := serveOne_eq_some served
  by_cases point : req.isPoint = true
  · rcases processed.carried point shape with ⟨res, rfl, rfl, here⟩ | ⟨fs, a, rfl, rfl, here⟩
    · rw [Worker.settle_between between]
      exact .finished { batch with requests := rest } none res rfl rfl here
    · have queue : (w.queue fs a).ioQueue = [a] := by
        rw [Worker.queue_ioQueue, between, List.nil_append]
      obtain ⟨data, res, answer⟩ := settle_one queue
      refine .queued _ (a.carry { batch with requests := rest }) rfl rfl ?_ ?_ here
        (Worker.settle_carry between fs a _)
      · rw [Worker.queue_ioQueue, between, List.nil_append]
      · rw [List.nil_append, answer, pairsIn_finishRequest]
  · cases processed with
    | refused reason =>
        cases req with
        | scan minKey maxKey callback tag => cases reason
        | _ => exact absurd rfl point
    | @scan minKey maxKey callback tag fs last calls scanned =>
        rw [scanLoop_eq_scanShare, Option.map_eq_some_iff] at scanned
        obtain ⟨⟨fs', pairs⟩, reads, same⟩ := scanned
        rw [scanShare_of_unstopped unstopped] at same
        cases same
        have between' : Worker.ioQueue { w with slab := fs' } = [] := between
        have here := processRequest_scan shape reads
        simp only [scanShare_of_unstopped unstopped] at here
        refine .finished ⟨batch.id, rest, batch.delivered ++ pairs⟩ none 0 rfl rfl ?_
        dsimp only
        rw [Worker.settle_between between', here, List.append_nil, pairsIn_append, pairsIn_scanned,
          pairsIn_finishRequest, List.append_nil]
    | _ => exact absurd rfl point

/-! ## The order of the requests -/

/-- The requests of a batch in the order the workers take them: the copies of its scans
wait behind all of them. -/
def schedule (n : Nat) (reqs : List Request) : List Request := reqs ++ reqs.flatMap (scanCopies n)

/-- A copy is not copied again. -/
theorem flatMap_scanCopies (n : Nat) (req : Request) :
    (scanCopies n req).flatMap (scanCopies n) = [] := by
  rw [List.flatMap_eq_nil_iff]
  intro copy member
  unfold scanCopies at member
  split at member
  · obtain ⟨i, -, rfl⟩ := List.mem_map.mp member
    rfl
  · cases member

/-- What `DB::Submit` queues is taken in this order. -/
theorem schedule_cons (n : Nat) (req : Request) (rest : List Request) :
    schedule n (req :: rest) = req :: schedule n (rest ++ scanCopies n req) := by
  simp only [schedule, List.flatMap_cons, List.flatMap_append, flatMap_scanCopies, List.cons_append,
    List.append_assoc, List.append_nil]

/-! ## Executions -/

/-- A request that a worker took, with the pairs it delivered. -/
structure Execution where
  worker : Nat
  request : Request
  pairs : List (Slice × Slice)

/-- The executions in a log, and the pairs delivered before the first of them. -/
def deliveries : List Event → List (Slice × Slice) × List Execution
  | [] => ([], [])
  | .executed worker _ req :: log => ([], ⟨worker, req, (deliveries log).1⟩ :: (deliveries log).2)
  | .effect (.scanned _ key value _) :: log => ((key, value) :: (deliveries log).1, (deliveries log).2)
  | .effect (.respond ..) :: log => deliveries log
  | .effect (.submit _) :: log => deliveries log

def executions (log : List Event) : List Execution := (deliveries log).2

theorem deliveries_append {new : List Event} (clean : (deliveries new).1 = []) : ∀ log : List Event,
    deliveries (log ++ new) = ((deliveries log).1, (deliveries log).2 ++ (deliveries new).2) := by
  intro log
  induction log with
  | nil => exact Prod.ext clean rfl
  | cons event log ih =>
      cases event with
      | executed worker id req => simp only [List.cons_append, deliveries, ih]
      | effect effect =>
          cases effect with
          | scanned id key value answer => simp only [List.cons_append, deliveries, ih]
          | respond id data res => simp only [List.cons_append, deliveries, ih]
          | submit batch => simp only [List.cons_append, deliveries, ih]

theorem deliveries_effects (effects : List Effect) :
    deliveries (effects.map .effect) = (pairsIn effects, []) := by
  induction effects with
  | nil => rfl
  | cons effect effects ih =>
      cases effect with
      | scanned id key value answer => simp only [List.map_cons, deliveries, ih]; rfl
      | respond id data res => simp only [List.map_cons, deliveries, ih]; rfl
      | submit batch => simp only [List.map_cons, deliveries, ih]; rfl

theorem deliveries_executed (worker id : Nat) (req : Request) (effects : List Effect) :
    deliveries (.executed worker id req :: effects.map .effect) =
      ([], [⟨worker, req, pairsIn effects⟩]) := by
  simp only [deliveries, deliveries_effects]

/-! ## Where the batch is -/

/-- The thread has no I/O to finish. -/
def Phase.Free : Phase → Prop
  | .popping cnt => cnt ≤ maxEvent
  | .finishing left _ => left = []

/-- A worker at rest, with batches waiting. -/
structure Node.Idle (node : Node) (w : Worker) (queue : List Batch) : Prop where
  worker : node.worker = w
  between : w.ioQueue = []
  queue : node.batchQueue = queue
  free : node.phase.Free

/-- A worker with one I/O, for this batch, which will leave it as `w`. -/
inductive Node.Busy (node : Node) (w : Worker) (batch : Batch) : Prop where
  | queued (a : Aio) (cnt : Nat) (carries : a.batch = batch) (phase : node.phase = .popping (cnt + 1))
      (queue : node.worker.ioQueue = [a]) (settles : (node.worker.settle .inOrder).1 = w)
  | performed (a : Aio) (events : List IoEvent) (carries : a.batch = batch)
      (phase : node.phase = .finishing [a] events)
      (ends : (Worker.finishAll [a] events node.worker).1 = w)

variable {n : Nat}

inductive Stage where
  | queued
  | working
  | answered
  deriving DecidableEq

/-- Where a batch is once its current request is finished. -/
def Stage.after (left : List Request) : Stage := if left.isEmpty then .answered else .queued

/-- Where the batch `id` is; the workers are, or will be when its I/O has ended, `ws`.
The list is what the batch has left to do. -/
inductive Stands (split : Slice → Nat → Nat) (id : Nat) (db : Db n) (ws : Workers n) :
    List Request → Stage → Prop where
  | queued (i : Fin n) (batch : Batch) (req : Request) (rest : List Request) (named : batch.id = id)
      (shape : batch.requests = req :: rest) (routed : route split n req = i)
      (idle : ∀ k, (db.nodes k).Idle (ws k) (if k = i then [batch] else [])) :
      Stands split id db ws (req :: schedule n rest) .queued
  | working (i : Fin n) (batch : Batch) (named : batch.id = id) (queue : (db.nodes i).batchQueue = [])
      (between : (ws i).ioQueue = []) (others : ∀ k, k ≠ i → (db.nodes k).Idle (ws k) [])
      (works : (db.nodes i).Busy (ws i) batch) :
      Stands split id db ws (schedule n batch.requests) .working
  | answered (idle : ∀ k, (db.nodes k).Idle (ws k) []) : Stands split id db ws [] .answered

theorem Stands.idle_of_answered {split : Slice → Nat → Nat} {id : Nat} {db : Db n} {ws : Workers n}
    {todo : List Request} (stands : Stands split id db ws todo .answered) :
    todo = [] ∧ ∀ k, (db.nodes k).Idle (ws k) [] := by
  cases stands with
  | answered idle => exact ⟨rfl, idle⟩

/-! ## The steps of the threads -/

/-- One worker changes; what it becomes is idle, and so were the others. -/
theorem idle_set {db : Db n} {ws : Workers n} {queue : Fin n → List Batch} {i : Fin n} {node : Node}
    {w : Worker} (others : ∀ k, k ≠ i → (db.nodes k).Idle (ws k) (queue k)) (here : node.Idle w (queue i))
    (k : Fin n) : ((db.set i node).nodes k).Idle (Function.update ws i w k) (queue k) := by
  by_cases same : k = i
  · subst same
    rw [Db.set_same, Function.update_self]
    exact here
  · rw [Db.set_other _ _ same, Function.update_of_ne same]
    exact others k same

theorem perform_scans {split : Slice → Nat → Nat} (id : Nat) (pairs : List (Slice × Slice))
    (db : Db n) (rest : List Effect) :
    Db.perform split db (pairs.map (fun pair => .scanned id pair.1 pair.2 true) ++ rest) =
      Db.perform split db rest := by
  induction pairs with
  | nil => rfl
  | cons pair pairs ih => exact ih

section Steps

variable {split : Slice → Nat → Nat} {id : Nat} {db : Db n} {ws : Workers n}

theorem answeredIn_finishRequest (last : Batch) (data : Option Slice) (res : Int) :
    answeredIn [.effect (last.finishRequest data res)] =
      if Stage.after last.requests = .answered then [last.id] else [] := by
  unfold Batch.finishRequest Stage.after
  split
  · rfl
  · rfl

/-- The batch is handed on: it goes to its next worker, or is answered. -/
theorem Stands.handed {last : Batch} (data : Option Slice) (res : Int)
    (idle : ∀ k, (db.nodes k).Idle (ws k) []) (named : last.id = id)
    (inRange : ∀ req ∈ last.requests, route split n req < n) :
    ∃ db', Db.perform split db [last.finishRequest data res] = some db' ∧
      Stands split id db' ws (schedule n last.requests)
        (.after last.requests) := by
  cases shape : last.requests with
  | nil =>
      simp only [Batch.finishRequest, shape, List.isEmpty_nil, if_true, Db.perform]
      exact ⟨db, rfl, .answered idle⟩
  | cons req rest =>
      have here := inRange req (shape ▸ List.mem_cons_self ..)
      let i : Fin n := ⟨route split n req, here⟩
      let batch : Batch := { last with requests := req :: (rest ++ scanCopies n req) }
      have submitted : db.submit split last = some (db.push i batch) := by
        unfold Db.submit
        rw [shape]
        simp only [dif_pos here]
        rfl
      refine ⟨db.push i batch, ?_, ?_⟩
      · simp only [Batch.finishRequest, shape, List.isEmpty_cons, Bool.false_eq_true, if_false, Db.perform,
          submitted, Option.bind_some]
      · rw [schedule_cons]
        refine .queued i batch req _ named rfl rfl fun k => ?_
        by_cases same : k = i
        · subst same
          rw [Db.push, Db.set_same, if_pos rfl]
          obtain ⟨worker, between, queue, free⟩ := idle i
          exact ⟨worker, between, by rw [queue]; rfl, free⟩
        · rw [Db.push, Db.set_other _ _ same, if_neg same]
          exact idle k

/-- The worker takes the request at the front of the batch. -/
theorem Stands.popped {i : Fin n} {batch : Batch} {req : Request} {rest : List Request} {cnt : Nat}
    {w : Worker} {effects : List Effect} (named : batch.id = id) (shape : batch.requests = req :: rest)
    (idle : ∀ k, (db.nodes k).Idle (ws k) (if k = i then [batch] else []))
    (phase : (db.nodes i).phase = .popping cnt) (room : cnt < maxEvent)
    (unstopped : req.Unstopped) (inRange : ∀ req ∈ rest, route split n req < n)
    (served : (ws i).serveOne req = some (w, effects)) :
    ∃ db' new stage, db.pop split i = some (db', new) ∧
      Stands split id db' (Function.update ws i w) (schedule n rest) stage ∧
      deliveries new = ([], [⟨i, req, pairsIn effects⟩]) ∧
      answeredIn new = if stage = .answered then [id] else [] := by
  have here := idle i
  rw [if_pos rfl] at here
  have between := serveOne_between served
  have others : ∀ k, k ≠ i → (db.nodes k).Idle (ws k) [] := by
    intro k differ
    have there := idle k
    rwa [if_neg differ] at there
  have pops : ∀ {mid : Worker} {list : List Effect}, (ws i).processRequest batch = some (mid, list) →
      db.pop split i = (Db.perform split (db.set i ⟨mid, [], .popping (cnt + 1)⟩) list).map fun db =>
        (db, .executed i batch.id req :: list.map .effect) := by
    intro mid list processed
    unfold Db.pop
    rw [phase, here.queue]
    simp only [shape, if_pos room, here.worker, processed]
  cases serveOne_taken here.between unstopped shape served with
  | finished last data res sameName left processed =>
      have idle' : ∀ k, ((db.set i ⟨w, [], .popping (cnt + 1)⟩).nodes k).Idle
          (Function.update ws i w k) [] := idle_set others ⟨rfl, between, rfl, room⟩
      obtain ⟨db', performed, stands⟩ := Stands.handed data res idle' (sameName.trans named)
        (left ▸ inRange)
      rw [left] at stands
      have popped := pops processed
      rw [perform_scans, performed, Option.map_some] at popped
      refine ⟨db', _, _, popped, stands, ?_, ?_⟩
      · rw [deliveries_executed, pairsIn_append, pairsIn_scanned, pairsIn_finishRequest, List.append_nil]
      · rw [List.map_append, ← List.cons_append, answeredIn_append]
        have silent : answeredIn (.executed i batch.id req ::
            ((pairsIn effects).map fun pair => Effect.scanned batch.id pair.1 pair.2 true).map .effect) =
              [] := by
          simp [answeredIn, List.filterMap_map]
        rw [silent, List.nil_append, List.map_singleton, answeredIn_finishRequest, left, sameName, named]
  | queued mid a sameName left queue silent processed settles =>
      refine ⟨_, _, .working, pops processed, ?_, ?_, rfl⟩
      · rw [← left]
        refine .working i a.batch (sameName.trans named) ?_ ?_ ?_ ?_
        · rw [Db.set_same]
        · rwa [Function.update_self]
        · intro k differ
          rw [Db.set_other _ _ differ, Function.update_of_ne differ]
          exact others k differ
        · rw [Db.set_same, Function.update_self]
          exact .queued a cnt rfl rfl queue settles
      · rw [deliveries_executed, silent]
        rfl

/-- A thread at rest that goes round its loop stays at rest. -/
theorem Node.Idle.flushed {k : Fin n} {w : Worker} {queue : List Batch} {kernel : Kernel}
    {out : Db n × List Event} (idle : (db.nodes k).Idle w queue)
    (flushed : db.flush kernel k = some out) :
    ∃ node, out = (db.set k node, []) ∧ node.Idle w queue := by
  obtain ⟨cnt, -, rfl⟩ := Db.flush_eq_some flushed
  refine ⟨_, rfl, ?_⟩
  rw [idle.worker, Worker.performIo_between idle.between kernel]
  exact ⟨rfl, idle.between, idle.queue, idle.between⟩

theorem Node.Idle.finished {k : Fin n} {w : Worker} {queue : List Batch} {out : Db n × List Event}
    (idle : (db.nodes k).Idle w queue) (finished : db.finish split k = some out) :
    ∃ node, out = (db.set k node, []) ∧ node.Idle w queue := by
  rcases Db.finish_eq_some finished with ⟨events, -, rfl⟩ | ⟨a, rest, events, -, -, -, phase, -⟩
  · exact ⟨_, rfl, idle.worker, idle.between, idle.queue, Nat.zero_le _⟩
  · have free := idle.free
    rw [phase] at free
    cases free

/-- The I/O of the batch is performed. -/
theorem Node.Busy.flushed {i : Fin n} {w : Worker} {batch : Batch} {out : Db n × List Event}
    (works : (db.nodes i).Busy w batch) (flushed : db.flush .inOrder i = some out) :
    ∃ node, out = (db.set i node, []) ∧ node.Busy w batch ∧
      node.batchQueue = (db.nodes i).batchQueue := by
  obtain ⟨cnt, popping, rfl⟩ := Db.flush_eq_some flushed
  cases works with
  | queued a cnt' carries phase queue settles =>
      refine ⟨_, rfl, .performed a _ carries (by rw [queue]) ?_, rfl⟩
      rw [Worker.settle_eq, queue] at settles
      exact settles
  | performed a events carries phase ends =>
      rw [popping] at phase
      cases phase

/-- It is finished, and the batch handed on. -/
theorem Stands.finished {i : Fin n} {a : Aio} {events : List IoEvent} (named : a.batch.id = id)
    (phase : (db.nodes i).phase = .finishing [a] events) (queue : (db.nodes i).batchQueue = [])
    (between : (ws i).ioQueue = []) (others : ∀ k, k ≠ i → (db.nodes k).Idle (ws k) [])
    (ends : (Worker.finishAll [a] events (db.nodes i).worker).1 = ws i)
    (inRange : ∀ req ∈ a.batch.requests, route split n req < n) :
    ∃ db' new, db.finish split i = some (db', new) ∧
      Stands split id db' ws (schedule n a.batch.requests) (.after a.batch.requests) ∧
      deliveries new = ([], []) ∧
      answeredIn new = if Stage.after a.batch.requests = .answered then [id] else [] := by
  let a' : Aio := if a.submit then { a with event := events.head?.map IoEvent.res } else a
  obtain ⟨-, data, hands⟩ := finish_hands (db.nodes i).worker a'
  have passenger : a'.batch = a.batch := by
    simp only [a']
    split <;> rfl
  rw [passenger] at hands
  let node : Node := ⟨((db.nodes i).worker.finish a').1, (db.nodes i).batchQueue,
    .finishing [] (if a.submit then events.tail else events)⟩
  have idle' : ∀ k, ((db.set i node).nodes k).Idle (ws k) [] := by
    have set := idle_set others (show node.Idle (ws i) [] from ⟨ends, between, queue, rfl⟩)
    rwa [Function.update_eq_self] at set
  obtain ⟨db', performed, stands⟩ := Stands.handed data a'.result idle' named inRange
  refine ⟨db', [.effect (a.batch.finishRequest data a'.result)], ?_, stands, ?_, ?_⟩
  · unfold Db.finish
    simp only [phase]
    rw [show (if a.submit then { a with event := events.head?.map IoEvent.res } else a) = a' from rfl,
      hands]
    exact congrArg _ performed
  · exact (deliveries_effects [a.batch.finishRequest data a'.result]).trans
      (by rw [pairsIn_finishRequest])
  · rw [answeredIn_finishRequest, named]

/-- A worker at rest goes on doing nothing. -/
theorem Stands.turned {todo : List Request} {stage : Stage} (stands : Stands split id db ws todo stage)
    {k : Fin n} {node : Node} (free : (db.nodes k).phase.Free) (none' : (db.nodes k).worker.ioQueue = [])
    (idle : ∀ {w queue}, (db.nodes k).Idle w queue → node.Idle w queue) :
    Stands split id (db.set k node) ws todo stage := by
  cases stands with
  | queued i batch req rest named shape routed idles =>
      have set := idle_set (fun k' _ => idles k') (idle (idles k))
      rw [Function.update_eq_self] at set
      exact .queued i batch req rest named shape routed set
  | working i batch named queue between others works =>
      have differ : k ≠ i := by
        rintro rfl
        cases works with
        | queued a cnt carries phase busy settles =>
            rw [none'] at busy
            cases busy
        | performed a events carries phase ends =>
            rw [phase] at free
            cases free
      refine .working i batch named ?_ between ?_ ?_
      · rw [Db.set_other _ _ differ.symm]
        exact queue
      · intro k' apart
        by_cases same : k' = k
        · subst same
          rw [Db.set_same]
          exact idle (others k' apart)
        · rw [Db.set_other _ _ same]
          exact others k' apart
      · rw [Db.set_other _ _ differ.symm]
        exact works
  | answered idles =>
      have set := idle_set (i := k) (fun k' _ => idles k') (idle (idles k))
      rw [Function.update_eq_self] at set
      exact .answered set

end Steps

/-! ## Runs of the threads -/

/-- The workers of a database. -/
def Db.workers (db : Db n) : Workers n := fun k => (db.nodes k).worker

/-- Requests served one after another, as executions. -/
def record (split : Slice → Nat → Nat) (n : Nat) (reqs : List Request) (outs : List (List Effect)) :
    List Execution :=
  List.zipWith (fun req out => ⟨route split n req, req, pairsIn out⟩) reqs outs

/-- A batch that the workers can serve in the order of the schedule. -/
structure Servable (split : Slice → Nat → Nat) (ws : Workers n) (reqs : List Request) : Prop where
  unstopped : ∀ req ∈ schedule n reqs, req.Unstopped
  inRange : ∀ req ∈ schedule n reqs, route split n req < n
  total : ∃ out, Run.run (Workers.serveOne split) ws (schedule n reqs) = some out

/-- From `j₀` on a batch of the requests `reqs` has been alone in the system, and the
requests `served` of its schedule are behind it. -/
structure Solo (split : Slice → Nat → Nat) (j₀ : Journal n) (reqs : List Request) (j : Journal n)
    (served todo : List Request) (ws : Workers n) (outs : List (List Effect)) (stage : Stage) : Prop where
  order : schedule n reqs = served ++ todo
  ran : Run.run (Workers.serveOne split) j₀.db.workers served = some (ws, outs)
  log : ∃ new, j.log = j₀.log ++ new ∧ deliveries new = ([], record split n served outs) ∧
    answeredIn new = if stage = .answered then [j₀.submitted.length] else []
  stands : Stands split j₀.submitted.length j.db ws todo stage

section Runs

variable {split : Slice → Nat → Nat} {j₀ j : Journal n} {reqs served todo : List Request}
  {ws : Workers n} {outs : List (List Effect)} {stage : Stage}

theorem mem_schedule_of_append {n : Nat} {reqs served rest : List Request} {req : Request}
    (order : schedule n reqs = served ++ req :: rest) : req ∈ schedule n reqs := by
  rw [order]
  exact List.mem_append_right _ (List.mem_cons_self ..)

/-- The next request of the schedule can be served. -/
theorem Servable.next (servable : Servable split j₀.db.workers reqs) {req : Request}
    {rest : List Request} {i : Fin n} (routed : route split n req = i)
    (order : schedule n reqs = served ++ req :: rest)
    (ran : Run.run (Workers.serveOne split) j₀.db.workers served = some (ws, outs)) :
    ∃ w effects, (ws i).serveOne req = some (w, effects) ∧
      Run.run (Workers.serveOne split) j₀.db.workers (served ++ [req]) =
        some (Function.update ws i w, outs ++ [effects]) := by
  obtain ⟨⟨final, all⟩, total⟩ := servable.total
  rw [order, Run.run_append_eq_some] at total
  obtain ⟨mid, outs₁, outs₂, first, second, -⟩ := total
  rw [ran] at first
  cases first
  obtain ⟨ws', effects, later, taken, -, -⟩ := Run.run_cons_eq_some.mp second
  have step := taken
  unfold Workers.serveOne at taken
  have inRange : route split n req < n := routed ▸ i.isLt
  rw [dif_pos inRange, Option.map_eq_some_iff] at taken
  obtain ⟨⟨w, effects'⟩, served', same⟩ := taken
  have here : (⟨route split n req, inRange⟩ : Fin n) = i := Fin.ext routed
  rw [here] at served' same
  cases same
  exact ⟨w, effects', served', Run.run_append_eq_some.mpr
    ⟨ws, outs, [effects'], ran, Run.run_cons_eq_some.mpr ⟨_, _, [], step, rfl, rfl⟩, rfl⟩⟩

theorem record_append (split : Slice → Nat → Nat) {n : Nat} {served : List Request}
    {outs : List (List Effect)} (same : served.length = outs.length) (req : Request)
    (effects : List Effect) :
    record split n (served ++ [req]) (outs ++ [effects]) =
      record split n served outs ++ [⟨route split n req, req, pairsIn effects⟩] :=
  List.zipWith_append same

/-- Nothing happened to the batch. -/
theorem Solo.kept (solo : Solo split j₀ reqs j served todo ws outs stage) {db : Db n}
    (stands : Stands split j₀.submitted.length db ws todo stage) :
    Solo split j₀ reqs (j.record (db, [])) served todo ws outs stage := by
  refine ⟨solo.order, solo.ran, ?_, stands⟩
  rw [show (j.record (db, [])).log = j.log from List.append_nil _]
  exact solo.log

/-- The next request of the schedule is taken. -/
theorem Solo.pop (servable : Servable split j₀.db.workers reqs) {i : Fin n} {batch : Batch}
    {req : Request} {rest : List Request} {cnt : Nat}
    (solo : Solo split j₀ reqs j served (req :: schedule n rest) ws outs .queued)
    (named : batch.id = j₀.submitted.length) (shape : batch.requests = req :: rest)
    (routed : route split n req = i)
    (idle : ∀ k, (j.db.nodes k).Idle (ws k) (if k = i then [batch] else []))
    (phase : (j.db.nodes i).phase = .popping cnt) (room : cnt < maxEvent) :
    ∃ out ws' outs' stage', j.db.pop split i = some out ∧
      Solo split j₀ reqs (j.record out) (served ++ [req]) (schedule n rest) ws' outs' stage' := by
  obtain ⟨w, effects, servedHere, ran⟩ := servable.next routed solo.order solo.ran
  have inRange : ∀ later ∈ rest, route split n later < n := by
    intro later member
    refine servable.inRange later ?_
    rw [solo.order]
    exact List.mem_append_right _ (List.mem_cons_of_mem _ (List.mem_append_left _ member))
  obtain ⟨db, new, stage', popped, stands, delivered, answered⟩ := Stands.popped named shape idle phase
    room (servable.unstopped req (mem_schedule_of_append solo.order)) inRange servedHere
  refine ⟨(db, new), _, _, stage', popped, ?_, ran, ?_, stands⟩
  · rw [solo.order, List.append_assoc]
    rfl
  · obtain ⟨old, log, before, unanswered⟩ := solo.log
    refine ⟨old ++ new, ?_, ?_, ?_⟩
    · rw [← List.append_assoc, ← log]
      rfl
    · rw [deliveries_append (by rw [delivered]), before, delivered,
        record_append split (Run.length_run solo.ran).symm, routed]
    · rw [answeredIn_append, unanswered, answered]
      rfl

/-- The I/O of the batch is finished. -/
theorem Solo.finish (servable : Servable split j₀.db.workers reqs) {i : Fin n} {a : Aio}
    {events : List IoEvent} (solo : Solo split j₀ reqs j served (schedule n a.batch.requests) ws outs .working)
    (named : a.batch.id = j₀.submitted.length)
    (phase : (j.db.nodes i).phase = .finishing [a] events) (queue : (j.db.nodes i).batchQueue = [])
    (between : (ws i).ioQueue = []) (others : ∀ k, k ≠ i → (j.db.nodes k).Idle (ws k) [])
    (ends : (Worker.finishAll [a] events (j.db.nodes i).worker).1 = ws i) :
    ∃ out, j.db.finish split i = some out ∧
      Solo split j₀ reqs (j.record out) served (schedule n a.batch.requests) ws outs
        (.after a.batch.requests) := by
  have inRange : ∀ later ∈ a.batch.requests, route split n later < n := by
    intro later member
    refine servable.inRange later ?_
    rw [solo.order]
    exact List.mem_append_right _ (List.mem_append_left _ member)
  obtain ⟨db, new, finished, stands, delivered, answered⟩ := Stands.finished named phase queue
    between others ends inRange
  refine ⟨(db, new), finished, solo.order, solo.ran, ?_, stands⟩
  obtain ⟨old, log, before, unanswered⟩ := solo.log
  refine ⟨old ++ new, ?_, ?_, ?_⟩
  · rw [← List.append_assoc, ← log]
    rfl
  · rw [deliveries_append (by rw [delivered]), before, delivered, List.append_nil]
  · rw [answeredIn_append, unanswered, answered]
    rfl

/-- A thread at rest takes a step. -/
theorem Solo.turned (solo : Solo split j₀ reqs j served todo ws outs stage) {k : Fin n} {w : Worker}
    {queue : List Batch} (idle : (j.db.nodes k).Idle w queue) {out : Db n × List Event}
    (taken : j.db.flush .inOrder k = some out ∨ j.db.finish split k = some out) :
    Solo split j₀ reqs (j.record out) served todo ws outs stage := by
  have node : ∃ node, out = (j.db.set k node, []) ∧ node.Idle w queue := by
    rcases taken with flushed | finished
    · exact idle.flushed flushed
    · exact idle.finished finished
  obtain ⟨node, rfl, idle'⟩ := node
  refine solo.kept (solo.stands.turned idle.free (by rw [idle.worker]; exact idle.between) ?_)
  intro w' queue' other
  rw [← other.worker, idle.worker, ← other.queue, idle.queue]
  exact idle'

/-- The steps of the threads; a client's `DB::Submit` is none. -/
def Act.IsThread : Act n → Prop
  | .submit _ => False
  | _ => True

/-- **Every step of every thread** leaves the batch alone in the system, its requests
served one by one. -/
theorem Solo.next (servable : Servable split j₀.db.workers reqs) {act : Act n} {j' : Journal n}
    {u : Unit} (solo : Solo split j₀ reqs j served todo ws outs stage) (thread : act.IsThread)
    (taken : j.next split .inOrder act = some (j', u)) :
    ∃ served' todo' ws' outs' stage', Solo split j₀ reqs j' served' todo' ws' outs' stage' := by
  cases act with
  | submit requests => cases thread
  | pop k =>
      simp only [Journal.next, Option.map_eq_some_iff, Prod.mk.injEq] at taken
      obtain ⟨out, popped, rfl, -⟩ := taken
      obtain ⟨cnt, batch', tail, -, -, -, -, -, phase, waiting, -, room, -⟩ := Db.pop_eq_some popped
      cases solo.stands with
      | queued i batch req rest named shape routed idle =>
          by_cases here : k = i
          · subst here
            obtain ⟨out', ws', outs', stage', popped', solo'⟩ :=
              solo.pop servable named shape routed idle phase room
            rw [popped] at popped'
            cases popped'
            exact ⟨_, _, _, _, _, solo'⟩
          · have empty := (idle k).queue
            rw [waiting, if_neg here] at empty
            cases empty
      | working i batch named queue between others works =>
          by_cases here : k = i
          · rw [here, queue] at waiting
            cases waiting
          · rw [(others k here).queue] at waiting
            cases waiting
      | answered idle =>
          rw [(idle k).queue] at waiting
          cases waiting
  | flush k =>
      simp only [Journal.next, Option.map_eq_some_iff, Prod.mk.injEq] at taken
      obtain ⟨out, flushed, rfl, -⟩ := taken
      cases solo.stands with
      | queued i batch req rest named shape routed idle =>
          exact ⟨_, _, _, _, _, solo.turned (idle k) (Or.inl flushed)⟩
      | working i batch named queue between others works =>
          by_cases here : k = i
          · subst here
            obtain ⟨node, rfl, works', same⟩ := works.flushed flushed
            refine ⟨_, _, _, _, _, solo.kept (.working k batch named ?_ between ?_ ?_)⟩
            · rw [Db.set_same, same, queue]
            · intro k' differ
              rw [Db.set_other _ _ differ]
              exact others k' differ
            · rw [Db.set_same]
              exact works'
          · exact ⟨_, _, _, _, _, solo.turned (others k here) (Or.inl flushed)⟩
      | answered idle => exact ⟨_, _, _, _, _, solo.turned (idle k) (Or.inl flushed)⟩
  | finish k =>
      simp only [Journal.next, Option.map_eq_some_iff, Prod.mk.injEq] at taken
      obtain ⟨out, finished, rfl, -⟩ := taken
      cases solo.stands with
      | queued i batch req rest named shape routed idle =>
          exact ⟨_, _, _, _, _, solo.turned (idle k) (Or.inr finished)⟩
      | working i batch named queue between others works =>
          by_cases here : k = i
          · subst here
            cases works with
            | queued a cnt carries phase busy settles =>
                rcases Db.finish_eq_some finished with ⟨_, phase', -⟩ | ⟨_, _, _, _, _, _, phase', -⟩ <;>
                  rw [phase] at phase' <;> cases phase'
            | performed a events carries phase ends =>
                subst carries
                obtain ⟨out', finished', solo'⟩ :=
                  solo.finish servable named phase queue between others ends
                rw [finished] at finished'
                cases finished'
                exact ⟨_, _, _, _, _, solo'⟩
          · exact ⟨_, _, _, _, _, solo.turned (others k here) (Or.inr finished)⟩
      | answered idle => exact ⟨_, _, _, _, _, solo.turned (idle k) (Or.inr finished)⟩

/-- What holds along every run of the threads. -/
theorem Solo.run (servable : Servable split j₀.db.workers reqs) {acts : List (Act n)} {j' : Journal n}
    {us : List Unit} (solo : Solo split j₀ reqs j served todo ws outs stage)
    (threads : ∀ act ∈ acts, act.IsThread)
    (ran : Run.run (Journal.next split .inOrder) j acts = some (j', us)) :
    ∃ served' todo' ws' outs' stage', Solo split j₀ reqs j' served' todo' ws' outs' stage' := by
  have preserved : ∀ (j : Journal n) (act : Act n) (j' : Journal n) (u : Unit),
      (∃ served todo ws outs stage, Solo split j₀ reqs j served todo ws outs stage) → act.IsThread →
      j.next split .inOrder act = some (j', u) →
      ∃ served todo ws outs stage, Solo split j₀ reqs j' served todo ws outs stage := by
    rintro j act j' u ⟨_, _, _, _, _, solo⟩ thread taken
    exact solo.next servable thread taken
  exact Run.invariant preserved ⟨_, _, _, _, _, solo⟩ (Run.Along.of_forall threads) ran

/-- The batch is submitted. -/
theorem Solo.start (servable : Servable split j₀.db.workers reqs) (some' : reqs ≠ [])
    (rests : ∀ k, (j₀.db.nodes k).Idle (j₀.db.workers k) []) :
    ∃ j, j₀.next split .inOrder (.submit reqs) = some (j, ()) ∧
      Solo split j₀ reqs j [] (schedule n reqs) j₀.db.workers [] .queued := by
  let batch : Batch := ⟨j₀.submitted.length, reqs, []⟩
  have inRange : ∀ req ∈ batch.requests, route split n req < n := fun req member =>
    servable.inRange req (List.mem_append_left _ member)
  have more : reqs.isEmpty = false := List.isEmpty_eq_false_iff.mpr some'
  obtain ⟨db, performed, stands⟩ := Stands.handed none 0 rests (show batch.id = batch.id from rfl) inRange
  simp only [batch, Batch.finishRequest, more, Bool.false_eq_true, if_false, Db.perform,
    Option.bind_eq_some_iff, Option.some.injEq, exists_eq_right] at performed
  rw [show Stage.after batch.requests = .queued by simp [Stage.after, batch, more]] at stands
  refine ⟨{ j₀ with db := db, submitted := j₀.submitted ++ [reqs] }, ?_, rfl, rfl, ?_, stands⟩
  · simp only [Journal.next, performed, Option.map_some]
  · exact ⟨[], (List.append_nil _).symm, rfl, rfl⟩

/-- The thread that has the batch gets ready to take it. -/
theorem Solo.room {i : Fin n} {batch : Batch} {req : Request} {rest : List Request}
    (solo : Solo split j₀ reqs j served (req :: schedule n rest) ws outs .queued)
    (named : batch.id = j₀.submitted.length) (shape : batch.requests = req :: rest)
    (routed : route split n req = i)
    (idle : ∀ k, (j.db.nodes k).Idle (ws k) (if k = i then [batch] else [])) :
    ∃ acts j' us cnt, (∀ act ∈ acts, Act.IsThread act) ∧
      Run.run (Journal.next split .inOrder) j acts = some (j', us) ∧
      Solo split j₀ reqs j' served (req :: schedule n rest) ws outs .queued ∧
      (∀ k, (j'.db.nodes k).Idle (ws k) (if k = i then [batch] else [])) ∧
      (j'.db.nodes i).phase = .popping cnt ∧ cnt < maxEvent := by
  have free := (idle i).free
  -- the end of a round without requests
  have finishes : ∀ {j : Journal n} {events : List IoEvent},
      Solo split j₀ reqs j served (req :: schedule n rest) ws outs .queued →
      (∀ k, (j.db.nodes k).Idle (ws k) (if k = i then [batch] else [])) →
      (j.db.nodes i).phase = .finishing [] events →
      ∃ j', j.next split .inOrder (.finish i) = some (j', ()) ∧
        Solo split j₀ reqs j' served (req :: schedule n rest) ws outs .queued ∧
        (∀ k, (j'.db.nodes k).Idle (ws k) (if k = i then [batch] else [])) ∧
        (j'.db.nodes i).phase = .popping 0 := by
    intro j events solo idle phase
    have here := idle i
    have set := idle_set (fun k _ => idle k) (show Node.Idle { j.db.nodes i with phase := .popping 0 }
      (ws i) (if i = i then [batch] else []) from
      ⟨here.worker, here.between, here.queue, Nat.zero_le _⟩)
    rw [Function.update_eq_self] at set
    refine ⟨j.record (j.db.set i { j.db.nodes i with phase := .popping 0 }, []), ?_,
      solo.kept (.queued i batch req rest named shape routed set), set, ?_⟩
    · simp only [Journal.next, Db.finish, phase, Option.map_some]
    · simp only [Journal.record, Db.set_same]
  cases phase : (j.db.nodes i).phase with
  | finishing left events =>
      rw [phase] at free
      cases free
      obtain ⟨j', taken, solo', idle', phase'⟩ := finishes solo idle phase
      exact ⟨[.finish i], j', [()], 0, by simp [Act.IsThread],
        Run.run_cons_eq_some.mpr ⟨j', (), [], taken, rfl, rfl⟩, solo', idle', phase', by decide⟩
  | popping cnt =>
      rw [phase] at free
      rcases Nat.lt_or_eq_of_le free with room | full
      · exact ⟨[], j, [], cnt, by simp, rfl, solo, idle, phase, room⟩
      · -- the round is full
        have flushed : ∃ out, j.db.flush .inOrder i = some out := by
          have enabled : 0 < cnt ∧ ((j.db.nodes i).batchQueue.isEmpty ∨ cnt = maxEvent) :=
            ⟨by rw [full]; decide, Or.inr full⟩
          simp only [Db.flush, phase, if_pos enabled]
          exact ⟨_, rfl⟩
        obtain ⟨out, flushed⟩ := flushed
        obtain ⟨node, rfl, idleNode⟩ := (idle i).flushed flushed
        have set := idle_set (fun k _ => idle k) idleNode
        rw [Function.update_eq_self] at set
        have solo' := solo.kept (.queued i batch req rest named shape routed set)
        obtain ⟨cnt', -, shape'⟩ := Db.flush_eq_some flushed
        have ended : ∃ events, node.phase = .finishing [] events := by
          have same := congrFun (congrArg (fun out => out.1.nodes) shape') i
          simp only [Db.set_same] at same
          exact ⟨_, by rw [same, (idle i).worker, (idle i).between]⟩
        obtain ⟨events, ended⟩ := ended
        obtain ⟨j', taken, solo'', idle'', phase''⟩ := finishes solo' set
          (show ((j.record (j.db.set i node, [])).db.nodes i).phase = .finishing [] events by
            simp only [Journal.record, Db.set_same, ended])
        refine ⟨[.flush i, .finish i], j', [(), ()], 0, by simp [Act.IsThread],
          Run.run_cons_eq_some.mpr ⟨_, (), [()], ?_,
            Run.run_cons_eq_some.mpr ⟨j', (), [], taken, rfl, rfl⟩, rfl⟩, solo'', idle'', phase'',
          by decide⟩
        rw [Journal.next, flushed]
        rfl

/-- The I/O of the batch is performed and finished. -/
theorem Solo.works (servable : Servable split j₀.db.workers reqs)
    (solo : Solo split j₀ reqs j served todo ws outs .working) :
    ∃ acts j' us stage', (∀ act ∈ acts, Act.IsThread act) ∧
      Run.run (Journal.next split .inOrder) j acts = some (j', us) ∧
      Solo split j₀ reqs j' served todo ws outs stage' ∧ stage' ≠ .working := by
  cases standing : solo.stands with
  | working i batch named queue between others works =>
      have ends : ∀ {j : Journal n} {a : Aio} {events : List IoEvent}, a.batch = batch →
          Solo split j₀ reqs j served (schedule n batch.requests) ws outs .working →
          (j.db.nodes i).phase = .finishing [a] events → (j.db.nodes i).batchQueue = [] →
          (∀ k, k ≠ i → (j.db.nodes k).Idle (ws k) []) →
          (Worker.finishAll [a] events (j.db.nodes i).worker).1 = ws i →
          ∃ j', j.next split .inOrder (.finish i) = some (j', ()) ∧
            Solo split j₀ reqs j' served (schedule n batch.requests) ws outs (.after batch.requests) := by
        rintro j a events rfl solo phase queue others ends
        obtain ⟨out, finished, solo'⟩ := solo.finish servable named phase queue between others ends
        exact ⟨_, by rw [Journal.next, finished]; rfl, solo'⟩
      have moved : Stage.after batch.requests ≠ .working := by
        unfold Stage.after
        split <;> simp
      cases works with
      | performed a events carries phase finishes =>
          obtain ⟨j', taken, solo'⟩ := ends carries solo phase queue others finishes
          exact ⟨[.finish i], j', [()], _, by simp [Act.IsThread],
            Run.run_cons_eq_some.mpr ⟨j', (), [], taken, rfl, rfl⟩, solo', moved⟩
      | queued a cnt carries phase busy settles =>
          let node : Node := ⟨((j.db.nodes i).worker.performIo .inOrder).1, [],
            .finishing [a] ((j.db.nodes i).worker.performIo .inOrder).2⟩
          have flushed : j.db.flush .inOrder i = some (j.db.set i node, []) := by
            simp only [Db.flush, phase, queue, busy]
            rfl
          have others' : ∀ k, k ≠ i → ((j.db.set i node).nodes k).Idle (ws k) [] := by
            intro k differ
            rw [Db.set_other _ _ differ]
            exact others k differ
          have finishes : (Worker.finishAll [a] ((j.db.nodes i).worker.performIo .inOrder).2
              ((j.db.set i node).nodes i).worker).1 = ws i := by
            rw [Db.set_same]
            rw [Worker.settle_eq, busy] at settles
            exact settles
          have phase' : ((j.db.set i node).nodes i).phase =
              .finishing [a] ((j.db.nodes i).worker.performIo .inOrder).2 := by
            rw [Db.set_same]
          have queue' : ((j.db.set i node).nodes i).batchQueue = [] := by
            rw [Db.set_same]
          have solo' := solo.kept (.working i batch named queue' between others'
            (.performed a _ carries phase' finishes))
          obtain ⟨j', taken, solo''⟩ := ends carries solo' phase' queue' others' finishes
          refine ⟨[.flush i, .finish i], j', [(), ()], _, by simp [Act.IsThread],
            Run.run_cons_eq_some.mpr ⟨_, (), [()], ?_,
              Run.run_cons_eq_some.mpr ⟨j', (), [], taken, rfl, rfl⟩, rfl⟩, solo'', moved⟩
          rw [Journal.next, flushed]
          rfl

/-- **The batch is answered**: from every state the threads can get there. -/
theorem Solo.completes (servable : Servable split j₀.db.workers reqs) : ∀ {m : Nat} {j : Journal n}
    {served todo : List Request} {ws : Workers n} {outs : List (List Effect)} {stage : Stage},
    2 * todo.length + (if stage = .working then 1 else 0) ≤ m →
      Solo split j₀ reqs j served todo ws outs stage →
      ∃ acts j' us served' ws' outs', (∀ act ∈ acts, Act.IsThread act) ∧
        Run.run (Journal.next split .inOrder) j acts = some (j', us) ∧
        Solo split j₀ reqs j' served' [] ws' outs' .answered := by
  intro m
  induction m with
  | zero =>
      intro j served todo ws outs stage bound solo
      cases standing : solo.stands with
      | queued => simp at bound
      | working => simp at bound
      | answered => exact ⟨[], j, [], served, ws, outs, by simp, rfl, solo⟩
  | succ m ih =>
      intro j served todo ws outs stage bound solo
      cases standing : solo.stands with
      | answered => exact ⟨[], j, [], served, ws, outs, by simp, rfl, solo⟩
      | working i batch named queue between others works =>
          obtain ⟨acts, j₁, us, stage', threads, ran, solo₁, moved⟩ := solo.works servable
          rw [if_pos rfl] at bound
          obtain ⟨acts', j', us', served', ws', outs', threads', ran', solo'⟩ :=
            ih (by rw [if_neg moved]; omega) solo₁
          refine ⟨acts ++ acts', j', us ++ us', served', ws', outs', ?_,
            Run.run_append_eq_some.mpr ⟨j₁, us, us', ran, ran', rfl⟩, solo'⟩
          intro act member
          rcases List.mem_append.mp member with early | late
          · exact threads act early
          · exact threads' act late
      | queued i batch req rest named shape routed idle =>
          obtain ⟨acts, j₁, us, cnt, threads, ran, solo₁, idle₁, phase, room⟩ :=
            solo.room named shape routed idle
          obtain ⟨out, ws₂, outs₂, stage₂, popped, solo₂⟩ :=
            solo₁.pop servable named shape routed idle₁ phase room
          have smaller : 2 * (schedule n rest).length + (if stage₂ = .working then 1 else 0) ≤ m := by
            rw [List.length_cons] at bound
            split <;> omega
          obtain ⟨acts', j', us', served', ws', outs', threads', ran', solo'⟩ := ih smaller solo₂
          refine ⟨acts ++ .pop i :: acts', j', us ++ () :: us', served', ws', outs', ?_,
            Run.run_append_eq_some.mpr ⟨j₁, us, () :: us', ran, Run.run_cons_eq_some.mpr
              ⟨j₁.record out, (), us', by rw [Journal.next, popped]; rfl, ran', rfl⟩, rfl⟩, solo'⟩
          intro act member
          rcases List.mem_append.mp member with early | late
          · exact threads act early
          · rcases List.mem_cons.mp late with rfl | later
            · trivial
            · exact threads' act later

end Runs

end KTableFS.Kvengine
