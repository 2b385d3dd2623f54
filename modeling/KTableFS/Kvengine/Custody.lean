/-
# Kvengine.Custody -- every batch is in one pair of hands, every request runs once

`Db.held` lists where the unfinished batches are: in a worker's queue, or with an
I/O a worker has queued.  `work` spells out what a list of requests stands for: one
execution on the worker a key routes to, or one on every worker for a scan.
`remaining` is the work a held batch still stands for.

`Account` is the invariant: the held batches and the answered ones are together
exactly the submitted ones, and what has been executed for a batch, together with
what remains, is its work.  One step moves at most one batch, from one place to the
next or to its callback (`Moved`); that is all the invariant needs to know of it.
-/
import KTableFS.Theory.Run
import KTableFS.Kvengine.Db
import KTableFS.Kvengine.Process

namespace KTableFS.Kvengine

open KTableFS.Theory

set_option autoImplicit false

/-! ## Work -/

section Work

variable (split : Slice → Nat → Nat) (n : Nat)

/-- The executions a request stands for. -/
def expand : Request → List (Nat × Request)
  | .scan minKey maxKey callback 0 =>
      (List.range n).map fun i => (i, .scan minKey maxKey callback i)
  | req => [(route split n req, req)]

def work (reqs : List Request) : List (Nat × Request) := reqs.flatMap (expand split n)

/-- A place that holds a batch. -/
inductive Place (n : Nat) where
  | queue (i : Fin n)
  | aio (i : Fin n)

/-- The work a held batch still stands for.  In a queue the first request is bound
for that worker, and the copies of a scan have been appended already. -/
def remaining : Place n × Batch → List (Nat × Request)
  | (.queue _, batch) =>
      match batch.requests with
      | [] => []
      | req :: rest => (route split n req, req) :: work split n rest
  | (.aio _, batch) => work split n batch.requests

end Work

/-- Appending a scan's copies keeps the work. -/
theorem work_scanCopies (split : Slice → Nat → Nat) {n : Nat} {req : Request}
    (inRange : route split n req < n) (rest : List Request) :
    ((route split n req, req) :: work split n (rest ++ scanCopies n req)).Perm
      (work split n (req :: rest)) := by
  have single : expand split n req = [(route split n req, req)] → scanCopies n req = [] →
      ((route split n req, req) :: work split n (rest ++ scanCopies n req)).Perm
        (work split n (req :: rest)) := by
    intro one none'
    simp [work, one, none']
  cases req with
  | get key => exact single rfl rfl
  | put key value => exact single rfl rfl
  | update key value => exact single rfl rfl
  | delete key => exact single rfl rfl
  | scan minKey maxKey callback tag =>
      cases tag with
      | succ i => exact single rfl rfl
      | zero =>
          have positive : n = (n - 1) + 1 := by
            have : 0 < n := inRange
            omega
          have copies : work split n (scanCopies n (.scan minKey maxKey callback 0)) =
              (List.range (n - 1)).map fun i => (i + 1, Request.scan minKey maxKey callback (i + 1)) := by
            simp only [work, scanCopies, List.flatMap_map, expand, route]
            exact (List.map_eq_flatMap ..).symm
          have all : expand split n (.scan minKey maxKey callback 0) =
              (0, .scan minKey maxKey callback 0) ::
                (List.range (n - 1)).map fun i => (i + 1, Request.scan minKey maxKey callback (i + 1)) := by
            rw [expand, positive, List.range_succ_eq_map]
            simp
          simp only [work, List.flatMap_append, List.flatMap_cons] at copies ⊢
          rw [copies, all]
          exact (List.perm_append_comm).cons _

/-! ## Where the batches are -/

/-- The queued I/O of a worker, submitted or not. -/
def Node.aios (node : Node) : List Aio :=
  node.worker.ioQueue ++
    match node.phase with
    | .popping _ => []
    | .finishing left _ => left

def Node.held {n : Nat} (i : Fin n) (node : Node) : List (Place n × Batch) :=
  node.batchQueue.map (Prod.mk (.queue i)) ++ node.aios.map fun a => (.aio i, a.batch)

namespace Db

variable {n : Nat}

/-- Every unfinished batch, with its place. -/
def held (db : Db n) : List (Place n × Batch) := (List.finRange n).flatMap fun i => (db.nodes i).held i

/-- The places that hold the batch `id`. -/
def places (db : Db n) (id : Nat) : List (Place n) :=
  (db.held.filter fun entry => entry.2.id == id).map Prod.fst

/-- A step of one worker changes what that worker holds. -/
theorem held_set (db : Db n) (i : Fin n) :
    ∃ rest, db.held.Perm ((db.nodes i).held i ++ rest) ∧
      ∀ node, (db.set i node).held.Perm (node.held i ++ rest) := by
  have cut := List.perm_cons_erase (List.mem_finRange i)
  refine ⟨((List.finRange n).erase i).flatMap fun j => (db.nodes j).held j, ?_, fun node => ?_⟩
  · exact cut.flatMap_right _
  · refine (cut.flatMap_right _).trans ?_
    have others : ((List.finRange n).erase i).flatMap (fun j => ((db.set i node).nodes j).held j) =
        ((List.finRange n).erase i).flatMap fun j => (db.nodes j).held j := by
      apply List.flatMap_congr
      intro j member
      have differ : j ≠ i := ((List.nodup_finRange n).mem_erase_iff.mp member).1
      rw [set_other db node differ]
    rw [List.flatMap_cons, others, set_same]

theorem held_push (db : Db n) (i : Fin n) (batch : Batch) :
    (db.push i batch).held.Perm ((.queue i, batch) :: db.held) := by
  obtain ⟨rest, before, after⟩ := db.held_set i
  refine (after _).trans (List.Perm.trans ?_ (before.symm.cons _))
  simp only [Node.held, Node.aios, List.map_append, List.map_cons, List.map_nil, List.append_assoc,
    List.cons_append, List.nil_append]
  exact List.perm_middle

/-- Submitting a batch puts it in the queue its first request routes to, with the
same work. -/
theorem submit_spec {split : Slice → Nat → Nat} {db db' : Db n} {batch : Batch}
    (submitted : db.submit split batch = some db') :
    ∃ i batch', db'.held.Perm ((.queue i, batch') :: db.held) ∧ batch'.id = batch.id ∧
      (remaining split n (.queue i, batch')).Perm (work split n batch.requests) ∧
      (∃ req rest, batch'.requests = req :: rest ∧ route split n req = i) ∧
      ((∀ req ∈ batch.requests, req.Unstopped) → ∀ req ∈ batch'.requests, req.Unstopped) := by
  unfold submit at submitted
  split at submitted
  · cases submitted
  · rename_i req rest shape
    split at submitted
    · rename_i inRange
      cases submitted
      refine ⟨⟨route split n req, inRange⟩, { batch with requests := batch.requests ++ scanCopies n req },
        db.held_push .., rfl, ?_, ⟨req, rest ++ scanCopies n req, by simp [shape], rfl⟩, ?_⟩
      · simp only [remaining, shape, List.cons_append]
        exact work_scanCopies split inRange rest
      · intro unstopped r member
        rcases List.mem_append.mp member with old | copy
        · exact unstopped r old
        · have first := unstopped req (by simp [shape])
          cases req with
          | scan minKey maxKey callback tag =>
              cases tag with
              | succ i => simp [scanCopies] at copy
              | zero =>
                  simp only [scanCopies, List.mem_map] at copy
                  obtain ⟨i, -, rfl⟩ := copy
                  exact first
          | get key => simp [scanCopies] at copy
          | put key value => simp [scanCopies] at copy
          | update key value => simp [scanCopies] at copy
          | delete key => simp [scanCopies] at copy
    · cases submitted

/-- After calls of scan callbacks, the batch is answered or submitted again. -/
theorem perform_finish {split : Slice → Nat → Nat} {db db' : Db n} {batch : Batch}
    {data : Option Slice} {res : Int} : ∀ {early : List Effect},
    (∀ effect ∈ early, ∃ id key value answer, effect = .scanned id key value answer) →
    perform split db (early ++ [batch.finishRequest data res]) = some db' →
      batch.requests = [] ∧ db' = db ∨ batch.requests ≠ [] ∧ db.submit split batch = some db'
  | [], _, performed => by
      unfold Batch.finishRequest at performed
      split at performed
      · rename_i empty
        simp only [List.nil_append, perform, Option.some.injEq] at performed
        exact Or.inl ⟨List.isEmpty_iff.mp empty, performed.symm⟩
      · rename_i more
        simp only [List.nil_append, perform, Option.bind_fun_some] at performed
        exact Or.inr ⟨fun empty => more (List.isEmpty_iff.mpr empty), performed⟩
  | effect :: rest, scans, performed => by
      obtain ⟨id, key, value, answer, rfl⟩ := scans effect (List.mem_cons_self ..)
      exact perform_finish (fun other member => scans other (List.mem_cons_of_mem _ member)) performed

end Db

/-! ## What a worker does with a batch -/

theorem runCallback_queue (w : Worker) (a : Aio) (callback : Callback) :
    (w.runCallback a callback).1.ioQueue = w.ioQueue := by
  unfold Worker.runCallback
  split
  · cases callback <;> rfl
  · rfl

/-- The callbacks of a request do not touch the queue. -/
theorem runCallbacks_queue (callbacks : List Callback) : ∀ (w : Worker) (a : Aio),
    (Worker.runCallbacks callbacks w a).1.ioQueue = w.ioQueue := by
  induction callbacks with
  | nil => exact fun _ _ => rfl
  | cons callback rest ih =>
      intro w a
      exact (ih _ _).trans (runCallback_queue w a callback)

/-- Finishing a request finishes its batch. -/
theorem finish_hands (w : Worker) (a : Aio) :
    (w.finish a).1.ioQueue = w.ioQueue ∧
      ∃ data, (w.finish a).2 = a.batch.finishRequest data a.result := by
  obtain ⟨data, finished⟩ := w.finish_eq a
  rw [finished]
  exact ⟨runCallbacks_queue a.callbacks w a, data, rfl⟩

/-- A scan that nothing stops calls its callback and keeps its batch. -/
theorem scanLoop_unstopped {callback : ScanCallback}
    (unstopped : ∀ delivered, callback delivered = true) :
    ∀ {entries : List (Slice × SlabT)} {fs fs' : FileSlab} {batch batch' : Batch}
      {effects : List Effect},
      Worker.scanLoop callback entries fs batch = some (fs', batch', effects) →
        batch'.id = batch.id ∧ batch'.requests = batch.requests ∧
          ∀ effect ∈ effects, ∃ key value, effect = .scanned batch.id key value true
  | [], _, _, _, _, _, scanned => by
      simp only [Worker.scanLoop, Option.some.injEq, Prod.mk.injEq] at scanned
      obtain ⟨-, rfl, rfl⟩ := scanned
      exact ⟨rfl, rfl, by simp⟩
  | entry :: rest, fs, fs', batch, batch', effects, scanned => by
      unfold Worker.scanLoop at scanned
      split at scanned
      · cases scanned
      · rename_i pair mid read
        simp only [Worker.deliver, unstopped, if_true, Option.map_eq_some_iff, Prod.mk.injEq] at scanned
        obtain ⟨⟨_, _, later⟩, looped, rfl, rfl, rfl⟩ := scanned
        obtain ⟨id, requests, calls⟩ := scanLoop_unstopped unstopped looped
        refine ⟨id, requests, ?_⟩
        intro effect member
        rcases List.mem_append.mp member with first | other
        · exact ⟨_, _, List.mem_singleton.mp first⟩
        · exact calls effect other

namespace FileSlab

/-- The file operations hand on the I/O they were given, with its batch. -/
theorem read_batch {fs fs' : FileSlab} {slab : SlabT} {aio a : Aio}
    (queued : fs.read slab aio = some (a, fs')) : a.batch = aio.batch := by
  simp only [FileSlab.read, Option.map_eq_some_iff, Prod.mk.injEq] at queued
  obtain ⟨⟨_, _⟩, read, rfl, -⟩ := queued
  obtain ⟨-, hit, c, c', -, -, ⟨ent, -, -, rfl⟩ | ⟨ent, -, -, rfl⟩⟩ := LocalFileSet.read_eq_some read <;> rfl

theorem write_batch {fs fs' : FileSlab} {slab : SlabT} {key value : Slice} {aio a : Aio}
    (queued : fs.write slab key value aio = some (a, fs')) : a.batch = aio.batch := by
  simp only [FileSlab.write, Option.map_eq_some_iff, Prod.mk.injEq] at queued
  obtain ⟨⟨_, _⟩, wrote, rfl, -⟩ := queued
  obtain ⟨-, hit, c, -, rfl, -⟩ := LocalFileSet.write_eq_some wrote
  rfl

theorem delete_batch {fs fs' : FileSlab} {slab : SlabT} {aio a : Aio}
    (queued : fs.delete slab aio = some (a, fs')) : a.batch = aio.batch := by
  unfold FileSlab.delete at queued
  split at queued
  · cases queued
  · simp only [Option.map_eq_some_iff, Prod.mk.injEq] at queued
    obtain ⟨⟨_, _⟩, wrote, rfl, -⟩ := queued
    obtain ⟨-, hit, c, -, rfl, -⟩ := LocalFileSet.write_eq_some wrote
    rfl

end FileSlab

/-- Where a processed request leaves its batch. -/
inductive Hands (w w' : Worker) (id : Nat) (rest : List Request) (effects : List Effect) : Prop where
  /-- With a queued I/O. -/
  | queued (a : Aio) (silent : effects = []) (queue : w'.ioQueue = w.ioQueue ++ [a])
      (named : a.batch.id = id) (left : a.batch.requests = rest)
  /-- Finished, after calls of a scan callback. -/
  | finished (early : List Effect) (batch : Batch) (data : Option Slice) (res : Int)
      (shape : effects = early ++ [batch.finishRequest data res]) (queue : w'.ioQueue = w.ioQueue)
      (named : batch.id = id) (left : batch.requests = rest)
      (calls : ∀ effect ∈ early, ∃ key value, effect = .scanned id key value true)

theorem enqueue_hands {w w' : Worker} {batch : Batch} {effects : List Effect}
    {prepared : Option (Aio × FileSlab)} (kept : ∀ a fs, prepared = some (a, fs) → a.batch = batch)
    (enqueued : w.enqueue prepared = some (w', effects)) :
    Hands w w' batch.id batch.requests effects := by
  simp only [Worker.enqueue, Option.map_eq_some_iff, Prod.mk.injEq] at enqueued
  obtain ⟨⟨a, fs⟩, prepared, rfl, rfl⟩ := enqueued
  have same := kept a fs prepared
  exact .queued a rfl rfl (by rw [same]) (by rw [same])

/-- **Processing a request hands its batch on.** -/
theorem processRequest_hands {w w' : Worker} {batch : Batch} {req : Request} {rest : List Request}
    {effects : List Effect} (shape : batch.requests = req :: rest) (unstopped : req.Unstopped)
    (processed : w.processRequest batch = some (w', effects)) :
    Hands w w' batch.id rest effects := by
  have refused : ∀ res : Int,
      some (w, [{ batch with requests := rest }.finishRequest none res]) = some (w', effects) →
        Hands w w' batch.id rest effects := by
    rintro res ⟨⟩
    exact .finished [] { batch with requests := rest } none res rfl rfl rfl rfl (by simp)
  unfold Worker.processRequest at processed
  rw [shape] at processed
  cases req with
  | get key =>
      simp only at processed
      split at processed
      · exact refused _ processed
      · exact enqueue_hands (fun a fs read => FileSlab.read_batch read) processed
  | put key value =>
      simp only at processed
      split at processed
      · exact refused _ processed
      · split at processed
        · cases processed
        · exact enqueue_hands (fun a fs wrote => FileSlab.write_batch wrote) processed
  | update key value =>
      simp only at processed
      split at processed
      · exact refused _ processed
      · exact enqueue_hands (fun a fs wrote => FileSlab.write_batch wrote) processed
  | delete key =>
      simp only at processed
      split at processed
      · exact refused _ processed
      · exact enqueue_hands (fun a fs freed => FileSlab.delete_batch freed) processed
  | scan minKey maxKey callback tag =>
      simp only [Option.map_eq_some_iff, Prod.mk.injEq] at processed
      obtain ⟨⟨fs, batch', early⟩, looped, rfl, rfl⟩ := processed
      obtain ⟨id, requests, calls⟩ := scanLoop_unstopped unstopped looped
      exact .finished early batch' none 0 rfl rfl id requests calls

/-! ## What has happened -/

/-- The executions for the batch `id`, with the workers they were on. -/
def executedIn (log : List Event) (id : Nat) : List (Nat × Request) :=
  log.filterMap fun
    | .executed worker batch req => if batch = id then some (worker, req) else none
    | .effect _ => none

/-- The batches answered, once for each call of a callback. -/
def answeredIn (log : List Event) : List Nat :=
  log.filterMap fun
    | .effect (.respond batch _ _) => some batch
    | _ => none

@[simp] theorem executedIn_append (log new : List Event) (id : Nat) :
    executedIn (log ++ new) id = executedIn log id ++ executedIn new id :=
  List.filterMap_append

@[simp] theorem answeredIn_append (log new : List Event) :
    answeredIn (log ++ new) = answeredIn log ++ answeredIn new :=
  List.filterMap_append

/-- Effects execute nothing. -/
theorem executedIn_effects (effects : List Effect) (id : Nat) :
    executedIn (effects.map .effect) id = [] := by
  simp [executedIn, List.filterMap_map]

theorem executedIn_pop (worker batch : Nat) (req : Request) (effects : List Effect) (id : Nat) :
    executedIn (.executed worker batch req :: effects.map .effect) id =
      if id = batch then [(worker, req)] else [] := by
  have none' := executedIn_effects effects id
  simp only [executedIn] at none' ⊢
  rw [List.filterMap_cons, none']
  by_cases same : batch = id
  · simp [same]
  · simp [same, Ne.symm same]

theorem answeredIn_scans {effects : List Effect}
    (scans : ∀ effect ∈ effects, ∃ id key value answer, effect = .scanned id key value answer) :
    answeredIn (effects.map .effect) = [] := by
  rw [answeredIn, List.filterMap_map, List.filterMap_eq_nil_iff]
  intro effect member
  obtain ⟨id, key, value, answer, rfl⟩ := scans effect member
  rfl

/-! ## The invariant -/

variable {n : Nat}

/-- A held batch is in order: no scan stops it, and a queued one is where its first
request routes to. -/
structure InHand (split : Slice → Nat → Nat) (entry : Place n × Batch) : Prop where
  unstopped : ∀ req ∈ entry.2.requests, req.Unstopped
  routed : ∀ i, entry.1 = .queue i → ∃ req rest, entry.2.requests = req :: rest ∧ route split n req = i

structure Account (split : Slice → Nat → Nat) (j : Journal n) : Prop where
  /-- Every submitted batch is held once or answered once. -/
  ids : (j.db.held.map (fun entry => entry.2.id) ++ answeredIn j.log).Perm
    (List.range j.submitted.length)
  inHand : ∀ entry ∈ j.db.held, InHand split entry
  held : ∀ entry ∈ j.db.held, ∀ reqs, j.submitted[entry.2.id]? = some reqs →
    (executedIn j.log entry.2.id ++ remaining split n entry).Perm (work split n reqs)
  answered : ∀ id ∈ answeredIn j.log, ∀ reqs, j.submitted[id]? = some reqs →
    (executedIn j.log id).Perm (work split n reqs)
  unborn : ∀ id, j.submitted.length ≤ id → executedIn j.log id = []

/-- A worker's step moves at most one batch: from `source` to `target`, or to its
callback. -/
inductive Moved (split : Slice → Nat → Nat) (j j' : Journal n) : Prop where
  | kept (held : j'.db.held.Perm j.db.held) (submitted : j'.submitted = j.submitted)
      (log : j'.log = j.log)
  | moved (source : Place n × Batch) (target : Option (Place n × Batch))
      (rest : List (Place n × Batch)) (new : List Event) (ran : List (Nat × Request))
      (before : j.db.held.Perm (source :: rest)) (after : j'.db.held.Perm (target.toList ++ rest))
      (submitted : j'.submitted = j.submitted) (log : j'.log = j.log ++ new)
      (named : ∀ entry ∈ target, entry.2.id = source.2.id)
      (inHand : ∀ entry ∈ target, InHand split entry)
      (executed : ∀ id, executedIn new id = if id = source.2.id then ran else [])
      (answers : answeredIn new = if target.isSome then [] else [source.2.id])
      (work : (ran ++ target.toList.flatMap (remaining split n)).Perm (remaining split n source))

theorem Account.nodup {split : Slice → Nat → Nat} {j : Journal n} (account : Account split j) :
    (j.db.held.map (fun entry => entry.2.id) ++ answeredIn j.log).Nodup :=
  account.ids.nodup_iff.mpr List.nodup_range

/-- **One step of a worker keeps the account.** -/
theorem Account.moved {split : Slice → Nat → Nat} {j j' : Journal n} (account : Account split j)
    (step : Moved split j j') : Account split j' := by
  cases step with
  | kept held submitted log =>
      refine ⟨?_, fun entry member => account.inHand entry (held.mem_iff.mp member),
        fun entry member => ?_, ?_, ?_⟩
      · rw [log, submitted]
        exact ((held.map _).append_right _).trans account.ids
      · rw [log, submitted]
        exact account.held entry (held.mem_iff.mp member)
      · rw [log, submitted]
        exact account.answered
      · rw [log, submitted]
        exact account.unborn
  | moved source target rest new ran before after submitted log named inHand executed answers work =>
      have inHeld : source ∈ j.db.held := before.mem_iff.mpr (List.mem_cons_self ..)
      have nodup : (source.2.id :: (rest.map (fun entry => entry.2.id) ++ answeredIn j.log)).Nodup := by
        have same := (before.map fun entry => entry.2.id).append_right (answeredIn j.log)
        exact same.nodup_iff.mp account.nodup
      obtain ⟨alone, -⟩ := List.nodup_cons.mp nodup
      have others : ∀ id, id ≠ source.2.id → executedIn j'.log id = executedIn j.log id := by
        intro id differ
        rw [log, executedIn_append, executed, if_neg differ, List.append_nil]
      have own : ∀ reqs, j.submitted[source.2.id]? = some reqs →
          (executedIn j'.log source.2.id ++ target.toList.flatMap (remaining split n)).Perm
            (KTableFS.Kvengine.work split n reqs) := by
        intro reqs found
        rw [log, executedIn_append, executed, if_pos rfl, List.append_assoc]
        exact (work.append_left _).trans (account.held source inHeld reqs found)
      refine ⟨?_, ?_, ?_, ?_, ?_⟩
      · rw [log, submitted, answeredIn_append, answers]
        refine List.Perm.trans ?_ account.ids
        refine ((after.map _).append_right _).trans (List.Perm.trans ?_
          ((before.map _).append_right _).symm)
        cases target with
        | none =>
            simp only [Option.toList_none, List.nil_append, Option.isSome_none, Bool.false_eq_true,
              if_false, List.map_cons, List.cons_append, ← List.append_assoc]
            exact List.perm_append_singleton ..
        | some entry =>
            simp [named entry rfl]
      · intro entry member
        rcases List.mem_append.mp (after.mem_iff.mp member) with new | old
        · exact inHand entry (by simpa using new)
        · exact account.inHand entry (before.mem_iff.mpr (List.mem_cons_of_mem _ old))
      · intro entry member reqs found
        rw [submitted] at found
        rcases List.mem_append.mp (after.mem_iff.mp member) with new | old
        · have isTarget : target = some entry := by simpa using new
          rw [named entry isTarget] at found ⊢
          have mine := own reqs found
          rw [isTarget] at mine
          simpa using mine
        · have differ : entry.2.id ≠ source.2.id := by
            intro same
            apply alone
            rw [← same]
            exact List.mem_append_left _ (List.mem_map_of_mem old)
          rw [others _ differ]
          exact account.held entry (before.mem_iff.mpr (List.mem_cons_of_mem _ old)) reqs found
      · intro id member reqs found
        rw [submitted] at found
        rw [log, answeredIn_append, answers] at member
        rcases List.mem_append.mp member with old | late
        · have differ : id ≠ source.2.id := by
            rintro rfl
            exact alone (List.mem_append_right _ old)
          rw [others _ differ]
          exact account.answered id old reqs found
        · cases target with
          | some entry => simp at late
          | none =>
              have same : id = source.2.id := by simpa using late
              subst same
              simpa using own reqs found
      · intro id past
        rw [submitted] at past
        have differ : id ≠ source.2.id := by
          rintro rfl
          have inRange : source.2.id ∈ List.range j.submitted.length :=
            account.ids.mem_iff.mp (List.mem_append_left _ (List.mem_map_of_mem inHeld))
          have := List.mem_range.mp inRange
          omega
        rw [others _ differ]
        exact account.unborn id past

/-- **A client's submission keeps it**: the new batch is in one queue. -/
theorem Account.submit {split : Slice → Nat → Nat} {j : Journal n} (account : Account split j)
    {requests : List Request} {db : Db n} (unstopped : ∀ req ∈ requests, req.Unstopped)
    (submitted : j.db.submit split ⟨j.submitted.length, requests, []⟩ = some db) :
    Account split { j with db := db, submitted := j.submitted ++ [requests] } := by
  obtain ⟨i, batch, held, named, work', routed, kept⟩ := Db.submit_spec submitted
  have inRange : ∀ id ∈ j.db.held.map (fun entry => entry.2.id) ++ answeredIn j.log,
      id < j.submitted.length := fun id member => List.mem_range.mp (account.ids.mem_iff.mp member)
  have older : ∀ id reqs, id < j.submitted.length →
      (j.submitted ++ [requests])[id]? = some reqs → j.submitted[id]? = some reqs := by
    intro id reqs old found
    rwa [List.getElem?_append_left old] at found
  refine ⟨?_, ?_, ?_, ?_, ?_⟩
  · simp only [List.length_append, List.length_singleton, List.range_succ]
    refine ((held.map _).append_right _).trans ?_
    simp only [List.map_cons, named, List.cons_append]
    exact (account.ids.cons _).trans (List.perm_append_singleton ..).symm
  · intro entry member
    rcases List.mem_cons.mp (held.mem_iff.mp member) with rfl | old
    · refine ⟨kept unstopped, ?_⟩
      rintro _ ⟨⟩
      exact routed
    · exact account.inHand entry old
  · intro entry member reqs found
    rcases List.mem_cons.mp (held.mem_iff.mp member) with rfl | old
    · simp only [named, List.getElem?_concat_length, Option.some.injEq] at found
      simp only [named, account.unborn _ le_rfl, List.nil_append]
      exact found ▸ work'
    · have bound := inRange _ (List.mem_append_left _ (List.mem_map_of_mem old))
      exact account.held entry old reqs (older _ _ bound found)
  · intro id member reqs found
    exact account.answered id member reqs (older _ _ (inRange _ (List.mem_append_right _ member)) found)
  · intro id past
    simp only [List.length_append, List.length_singleton] at past
    exact account.unborn id (by omega)

/-! ## The steps move one batch -/

/-- A finished batch goes to its callback or to the next queue. -/
theorem Moved.finished {split : Slice → Nat → Nat} {j : Journal n} {db db' : Db n}
    {source : Place n × Batch} {rest : List (Place n × Batch)} {batch : Batch}
    {data : Option Slice} {res : Int} {new : List Event} (early : List Effect)
    (ran : List (Nat × Request)) (before : j.db.held.Perm (source :: rest))
    (taken : db.held.Perm rest) (named : batch.id = source.2.id)
    (unstopped : ∀ req ∈ batch.requests, req.Unstopped)
    (calls : ∀ effect ∈ early, ∃ id key value answer, effect = .scanned id key value answer)
    (performed : Db.perform split db (early ++ [batch.finishRequest data res]) = some db')
    (executed : ∀ id, executedIn new id = if id = source.2.id then ran else [])
    (answers : answeredIn new = answeredIn [.effect (batch.finishRequest data res)])
    (work' : (ran ++ work split n batch.requests).Perm (remaining split n source)) :
    Moved split j (j.record (db', new)) := by
  rcases Db.perform_finish calls performed with ⟨empty, rfl⟩ | ⟨more, submitted⟩
  · refine .moved source none rest new ran before taken rfl rfl (by simp) (by simp) executed ?_ ?_
    · rw [answers]
      simp [Batch.finishRequest, empty, answeredIn, named]
    · rw [empty] at work'
      simpa [work] using work'
  · obtain ⟨i, batch', held, named', sameWork, routed, kept⟩ := Db.submit_spec submitted
    refine .moved source (some (.queue i, batch')) rest new ran before
      (held.trans (taken.cons _)) rfl rfl ?_ ?_ executed ?_ ?_
    · rintro _ ⟨⟩
      exact named'.trans named
    · rintro _ ⟨⟩
      refine ⟨kept unstopped, ?_⟩
      rintro _ ⟨⟩
      exact routed
    · rw [answers]
      simp [Batch.finishRequest, more, answeredIn]
    · simp only [Option.toList_some, List.flatMap_cons, List.flatMap_nil, List.append_nil]
      exact (sameWork.append_left _).trans work'

theorem moved_pop {split : Slice → Nat → Nat} {j : Journal n} (account : Account split j) {i : Fin n}
    {out : Db n × List Event} (popped : j.db.pop split i = some out) :
    Moved split j (j.record out) := by
  obtain ⟨cnt, batch, tail, req, rest, w, effects, db, phase, queue, shape, -, processed, performed, rfl⟩ :=
    Db.pop_eq_some popped
  obtain ⟨others, before, after⟩ := j.db.held_set i
  have aios : (j.db.nodes i).aios = (j.db.nodes i).worker.ioQueue := by
    rw [Node.aios, phase, List.append_nil]
  have heldBefore : j.db.held.Perm ((.queue i, batch) ::
      (tail.map (Prod.mk (.queue i)) ++
        (j.db.nodes i).worker.ioQueue.map (fun a => (.aio i, a.batch)) ++ others)) := by
    simpa [Node.held, queue, aios] using before
  have inHeld : (.queue i, batch) ∈ j.db.held := heldBefore.mem_iff.mpr (List.mem_cons_self ..)
  obtain ⟨unstopped, routed⟩ := account.inHand _ inHeld
  obtain ⟨_, _, shape', isHere⟩ := routed i rfl
  simp only [shape, List.cons.injEq] at shape' unstopped
  obtain ⟨rfl, rfl⟩ := shape'
  have executed := executedIn_pop i batch.id req effects
  have workLeft : ([((i : Nat), req)] ++ work split n rest).Perm
      (remaining split n (.queue i, batch)) := by
    simp [remaining, shape, isHere]
  rcases processRequest_hands shape (unstopped req (List.mem_cons_self ..)) processed with
    ⟨a, rfl, ioQueue, named, left⟩ | ⟨early, last, data, res, rfl, ioQueue, named, left, calls⟩
  · simp only [Db.perform, Option.some.injEq] at performed
    subst performed
    refine .moved (.queue i, batch) (some (.aio i, a.batch)) _ _ [((i : Nat), req)] heldBefore ?_ rfl rfl
      ?_ ?_ executed rfl ?_
    · refine (after _).trans ?_
      simp only [Node.held, Node.aios, ioQueue, List.append_nil, List.map_append, List.map_cons,
        List.map_nil, Option.toList_some, List.append_assoc, List.cons_append, List.nil_append]
      exact (List.perm_middle.append_left _).trans List.perm_middle
    · rintro _ ⟨⟩
      exact named
    · rintro _ ⟨⟩
      refine ⟨fun r member => unstopped r ?_, by rintro _ ⟨⟩⟩
      exact List.mem_cons_of_mem _ (left ▸ member)
    · simpa [remaining, left] using workLeft
  · have calls' : ∀ effect ∈ early, ∃ id key value answer, effect = .scanned id key value answer := by
      intro effect member
      obtain ⟨key, value, shape⟩ := calls effect member
      exact ⟨_, key, value, true, shape⟩
    refine .finished early [((i : Nat), req)] heldBefore ?_ named ?_ calls' performed executed ?_ ?_
    · refine (after _).trans ?_
      simp [Node.held, Node.aios, ioQueue]
    · intro r member
      exact unstopped r (List.mem_cons_of_mem _ (left ▸ member))
    · have scans := answeredIn_scans calls'
      simp only [answeredIn, List.map_append, List.map_cons, List.map_nil] at scans ⊢
      rw [List.filterMap_cons, List.filterMap_append, scans]
      rfl
    · rw [left]
      exact workLeft

theorem moved_flush {split : Slice → Nat → Nat} {kernel : Kernel} {j : Journal n} {i : Fin n}
    {out : Db n × List Event} (flushed : j.db.flush kernel i = some out) :
    Moved split j (j.record out) := by
  obtain ⟨cnt, phase, rfl⟩ := Db.flush_eq_some flushed
  obtain ⟨others, before, after⟩ := j.db.held_set i
  refine .kept ((after _).trans (List.Perm.trans ?_ before.symm)) rfl (List.append_nil _)
  simp [Node.held, Node.aios, phase, Worker.performIo]

theorem moved_finish {split : Slice → Nat → Nat} {j : Journal n} (account : Account split j)
    {i : Fin n} {out : Db n × List Event} (finished : j.db.finish split i = some out) :
    Moved split j (j.record out) := by
  obtain ⟨others, before, after⟩ := j.db.held_set i
  rcases Db.finish_eq_some finished with ⟨events, phase, rfl⟩ |
    ⟨aio, rest, events, aio', events', db, phase, handed, performed, rfl⟩
  · refine .kept ((after _).trans (List.Perm.trans ?_ before.symm)) rfl (List.append_nil _)
    simp [Node.held, Node.aios, phase]
  · have sameBatch : aio'.batch = aio.batch := by
      rw [handed]
      split <;> rfl
    obtain ⟨ioQueue, data, effect⟩ := finish_hands (j.db.nodes i).worker aio'
    rw [sameBatch] at effect
    have heldBefore : j.db.held.Perm ((.aio i, aio.batch) ::
        ((j.db.nodes i).batchQueue.map (Prod.mk (.queue i)) ++
          ((j.db.nodes i).worker.ioQueue ++ rest).map (fun a => (.aio i, a.batch)) ++ others)) := by
      refine before.trans ?_
      simp only [Node.held, Node.aios, phase, List.map_append, List.map_cons, List.append_assoc,
        List.cons_append]
      exact (List.perm_middle.append_left _).trans List.perm_middle
    have inHeld : (.aio i, aio.batch) ∈ j.db.held := heldBefore.mem_iff.mpr (List.mem_cons_self ..)
    rw [effect] at performed ⊢
    refine .finished [] [] heldBefore ?_ rfl (account.inHand _ inHeld).unstopped
      (by simp) performed ?_ rfl (.refl _)
    · refine (after _).trans ?_
      simp [Node.held, Node.aios, ioQueue]
    · intro id
      rw [ite_self]
      exact executedIn_effects [aio.batch.finishRequest data aio'.result] id

/-! ## Runs -/

/-- Every batch is in one place or has been answered once, nothing of it has been
executed twice or by a wrong worker, and an answered one has been executed in full. -/
structure Journal.ExactlyOnce (split : Slice → Nat → Nat) (j : Journal n) : Prop where
  one : ∀ id < j.submitted.length,
    (j.db.places id).length + (answeredIn j.log).count id = 1
  unfinished : ∀ entry ∈ j.db.held, ∀ reqs, j.submitted[entry.2.id]? = some reqs →
    (executedIn j.log entry.2.id ++ remaining split n entry).Perm (work split n reqs)
  finished : ∀ id ∈ answeredIn j.log, ∀ reqs, j.submitted[id]? = some reqs →
    (executedIn j.log id).Perm (work split n reqs)

/-- A client's batch: requests as `Batch`'s methods make them, none of which stops
its scan. -/
def Act.WellFormed : Act n → Prop
  | .submit requests => ∀ req ∈ requests, req.Unstopped
  | _ => True

theorem Account.exactlyOnce {split : Slice → Nat → Nat} {j : Journal n} (account : Account split j) :
    j.ExactlyOnce split := by
  refine ⟨fun id inRange => ?_, account.held, account.answered⟩
  have counted := account.ids.count_eq id
  rw [List.count_append, List.count_range, if_pos inRange, List.count, List.countP_map] at counted
  rw [Db.places, List.length_map, ← List.countP_eq_length_filter]
  exact counted

theorem Account.new (split : Slice → Nat → Nat) (n : Nat) (workDir : String) (pages : Nat)
    (junk : Memory) : Account split (Journal.new n workDir pages junk) := by
  have none' : (Journal.new n workDir pages junk).db.held = [] := by
    simp [Db.held, Journal.new, Node.held, Node.aios, Worker.new]
  exact ⟨by rw [none']; rfl, by simp [none'], by simp [none'], by simp [Journal.new, answeredIn],
    fun _ _ => rfl⟩

/-- Every step of the system keeps the account. -/
theorem Account.next {split : Slice → Nat → Nat} {kernel : Kernel} {j j' : Journal n} {act : Act n}
    {u : Unit} (account : Account split j) (wellFormed : act.WellFormed)
    (taken : j.next split kernel act = some (j', u)) : Account split j' := by
  cases act with
  | submit requests =>
      simp only [Journal.next, Option.map_eq_some_iff, Prod.mk.injEq] at taken
      obtain ⟨db, submitted, rfl, -⟩ := taken
      exact account.submit wellFormed submitted
  | pop i =>
      simp only [Journal.next, Option.map_eq_some_iff, Prod.mk.injEq] at taken
      obtain ⟨out, popped, rfl, -⟩ := taken
      exact account.moved (moved_pop account popped)
  | flush i =>
      simp only [Journal.next, Option.map_eq_some_iff, Prod.mk.injEq] at taken
      obtain ⟨out, flushed, rfl, -⟩ := taken
      exact account.moved (moved_flush flushed)
  | finish i =>
      simp only [Journal.next, Option.map_eq_some_iff, Prod.mk.injEq] at taken
      obtain ⟨out, finished, rfl, -⟩ := taken
      exact account.moved (moved_finish account finished)

/-- **Exactly-once batch execution**, over every interleaving of the clients and the
workers' threads. -/
theorem exactlyOnce_of_run (split : Slice → Nat → Nat) (kernel : Kernel) (n : Nat) (workDir : String)
    (pages : Nat) (junk : Memory) {acts : List (Act n)} {j : Journal n} {outs : List Unit}
    (wellFormed : ∀ act ∈ acts, act.WellFormed)
    (ran : Run.run (Journal.next split kernel) (.new n workDir pages junk) acts = some (j, outs)) :
    j.ExactlyOnce split := by
  have account : Account split j := Run.invariant
    (fun _ _ _ _ account wellFormed taken => account.next wellFormed taken)
    (.new split n workDir pages junk) (.of_forall wellFormed) ran
  exact account.exactlyOnce

/-- Two workers, two clients, a scan among the requests of the first one's batch. -/
theorem exactlyOnce_of_run_example :
    ∃ (j : Journal 2) (outs : List Unit),
      Run.run (Journal.next (fun key n => key.length % n) .inOrder) (.new 2 "db" 4 fun _ => 0)
        [.submit [.put [1] [2], .scan [] [9] (fun _ => true) 0, .get [1]], .submit [.put [3, 4] [5]],
          .pop 1, .pop 0, .flush 0, .flush 1, .finish 1, .finish 0, .finish 0, .pop 0, .finish 1, .pop 1,
          .flush 1, .finish 1, .finish 1, .pop 1] = some (j, outs) ∧
      j.ExactlyOnce (fun key n => key.length % n) ∧ answeredIn j.log = [1, 0] := by
  let acts : List (Act 2) :=
    [.submit [.put [1] [2], .scan [] [9] (fun _ => true) 0, .get [1]], .submit [.put [3, 4] [5]],
      .pop 1, .pop 0, .flush 0, .flush 1, .finish 1, .finish 0, .finish 0, .pop 0, .finish 1, .pop 1,
      .flush 1, .finish 1, .finish 1, .pop 1]
  have ends : (Run.run (Journal.next (fun key n => key.length % n) .inOrder) (.new 2 "db" 4 fun _ => 0)
      acts).map (fun out => answeredIn out.1.log) = some [1, 0] := by
    decide +kernel
  obtain ⟨⟨j, outs⟩, ran, answered⟩ := Option.map_eq_some_iff.mp ends
  refine ⟨j, outs, ran, exactlyOnce_of_run _ .inOrder 2 "db" 4 (fun _ => 0) ?_ ran, answered⟩
  simp [acts, Act.WellFormed, Request.Unstopped]

end KTableFS.Kvengine
