/-
# Kvengine.Progress -- every batch gets its answer

The threads' steps cannot go on without the clients', and do not end early.

* What a batch makes the threads do is bounded by its work: an execution costs a step for the
  request, one for its I/O, and a share in the two steps that end a round (`Db.rank`).
* While a batch is unanswered, some thread can take its next step, unless it stands before a
  request that the code has no outcome for on this worker (`Db.Crashing`).

So `answered_of_run`: however the threads are scheduled, every batch is answered, its requests
executed in full.
-/
import KTableFS.Kvengine.Partition
import KTableFS.Theory.Potential
import Mathlib.Algebra.BigOperators.Group.Finset.Basic
import Mathlib.Data.Fintype.BigOperators

namespace KTableFS.Kvengine

open KTableFS.Theory

set_option autoImplicit false

variable {n : Nat}

/-- A step of a worker's thread. -/
def Act.ofThread : Act n → Bool
  | .submit _ => false
  | .pop _ | .flush _ | .finish _ => true

/-- What a submitted batch makes the threads do, at most. -/
def Act.gain (split : Slice → Nat → Nat) : Act n → Nat
  | .submit requests => 4 * (work split n requests).length
  | .pop _ | .flush _ | .finish _ => 0

/-- The steps that end the round. -/
def Phase.rank : Phase → Nat
  | .popping 0 => 0
  | .popping (_ + 1) => 2
  | .finishing .. => 1

def Node.rank (node : Node) : Nat := node.aios.length + node.phase.rank

theorem Node.rank_popping {node : Node} {cnt : Nat} (phase : node.phase = .popping cnt) :
    node.rank = node.worker.ioQueue.length + (Phase.popping cnt).rank := by
  rw [rank, aios, phase, List.append_nil]

theorem Node.rank_finishing {node : Node} {left : List Aio} {events : List IoEvent}
    (phase : node.phase = .finishing left events) :
    node.rank = node.worker.ioQueue.length + left.length + 1 := by
  rw [rank, aios, phase, List.length_append, Phase.rank]

namespace Db

/-- How many executions are left. -/
def left (split : Slice → Nat → Nat) (db : Db n) : Nat := (db.held.flatMap (remaining split n)).length

def rank (split : Slice → Nat → Nat) (db : Db n) : Nat := 4 * db.left split + ∑ i, (db.nodes i).rank

/-- The thread stands before a request that has no outcome. -/
def Crashing (db : Db n) (i : Fin n) : Prop :=
  ∃ batch rest, (db.nodes i).batchQueue = batch :: rest ∧ (db.nodes i).worker.processRequest batch = none

variable {split : Slice → Nat → Nat} {db db' : Db n}

/-! ## Submitting a batch touches queues only -/

theorem submit_node {batch : Batch} (submitted : db.submit split batch = some db') (k : Fin n) :
    (db'.nodes k).worker = (db.nodes k).worker ∧ (db'.nodes k).phase = (db.nodes k).phase := by
  unfold submit at submitted
  split at submitted
  · cases submitted
  · next req rest shape =>
      split at submitted
      · next inRange =>
          cases submitted
          by_cases same : k = ⟨route split n req, inRange⟩
          · subst same
            rw [push, set_same]
            exact ⟨rfl, rfl⟩
          · rw [push, set_other _ _ same]
            exact ⟨rfl, rfl⟩
      · cases submitted

theorem perform_node {effects : List Effect} : ∀ {db : Db n}, perform split db effects = some db' → ∀ k,
    (db'.nodes k).worker = (db.nodes k).worker ∧ (db'.nodes k).phase = (db.nodes k).phase := by
  induction effects with
  | nil =>
      rintro db ⟨⟩ k
      exact ⟨rfl, rfl⟩
  | cons effect rest ih =>
      intro db performed k
      cases effect with
      | submit batch =>
          obtain ⟨mid, submitted, later⟩ := Option.bind_eq_some_iff.mp performed
          obtain ⟨worker, phase⟩ := submit_node submitted k
          obtain ⟨worker', phase'⟩ := ih later k
          exact ⟨worker'.trans worker, phase'.trans phase⟩
      | respond => exact ih performed k
      | scanned => exact ih performed k


/-- A thread's step: what is executed, and what becomes of the thread's own I/O. -/
theorem rank_paid {i : Fin n} {node : Node} {cost ran : Nat} (left : db'.left split + ran = db.left split)
    (others : ∀ k, (db'.nodes k).worker = ((db.set i node).nodes k).worker ∧
      (db'.nodes k).phase = ((db.set i node).nodes k).phase)
    (paid : node.rank + cost ≤ (db.nodes i).rank + 4 * ran) :
    db'.rank split + cost ≤ db.rank split := by
  have same : ∀ k, (db'.nodes k).rank = ((db.set i node).nodes k).rank := fun k => by
    rw [Node.rank, Node.rank, Node.aios, Node.aios, (others k).1, (others k).2]
  have rest : ∀ k ∈ Finset.univ.erase i, (db'.nodes k).rank = (db.nodes k).rank := fun k member => by
    rw [same, set_other _ _ (Finset.ne_of_mem_erase member)]
  rw [rank, rank, ← Finset.add_sum_erase _ _ (Finset.mem_univ i), Finset.sum_congr rfl rest, same, set_same,
    ← Finset.add_sum_erase _ (fun k => (db.nodes k).rank) (Finset.mem_univ i)]
  omega

end Db

/-! ## A step pays for itself -/

variable {split : Slice → Nat → Nat} {kernel : Kernel} {j j' : Journal n} {act : Act n} {u : Unit}

/-- What a step executes is left no more. -/
theorem Moved.left (moved : Moved split j j') {new : List Event} (log : j'.log = j.log ++ new) :
    new = [] ∧ j'.db.left split = j.db.left split ∨
      ∃ id, j'.db.left split + (executedIn new id).length = j.db.left split ∧
        ∀ other ≠ id, executedIn new other = [] := by
  cases moved with
  | kept held submitted log' =>
      refine .inl ⟨List.self_eq_append_right.mp (log'.symm.trans log), ?_⟩
      exact (held.flatMap_right _).length_eq
  | moved source target rest new' ran before after submitted log' named inHand executed answers work' =>
      obtain rfl := List.append_cancel_left (log.symm.trans log')
      have spent := work'.length_eq
      refine .inr ⟨source.2.id, ?_, fun other differ => by rw [executed, if_neg differ]⟩
      rw [executed, if_pos rfl, Db.left, Db.left, (after.flatMap_right _).length_eq,
        (before.flatMap_right _).length_eq, List.flatMap_append, List.flatMap_cons, List.length_append,
        List.length_append, ← spent, List.length_append]
      omega

/-- Finishing executes nothing. -/
theorem Moved.left_of_effects (moved : Moved split j j') (effects : List Effect)
    (log : j'.log = j.log ++ effects.map .effect) : j'.db.left split + 0 = j.db.left split := by
  obtain ⟨-, same⟩ | ⟨id, same, -⟩ := moved.left log
  · exact same
  · rw [executedIn_effects] at same
    exact same

theorem rank_pop (account : Account split j) {i : Fin n} {out : Db n × List Event}
    (popped : j.db.pop split i = some out) : (j.record out).db.rank split + 1 ≤ j.db.rank split := by
  have moved := moved_pop account popped
  obtain ⟨cnt, batch, tail, req, rest, w, effects, db, phase, queue, shape, -, processed, performed, rfl⟩ :=
    Db.pop_eq_some popped
  have inHeld : (.queue i, batch) ∈ j.db.held := by
    refine List.mem_flatMap.mpr ⟨i, List.mem_finRange i, List.mem_append_left _ ?_⟩
    exact List.mem_map_of_mem (queue ▸ List.mem_cons_self ..)
  have unstopped := (account.inHand _ inHeld).unstopped req (shape ▸ List.mem_cons_self ..)
  -- the request that is executed
  have left : db.left split + 1 = j.db.left split := by
    obtain ⟨nothing, -⟩ | ⟨id, less, others⟩ := moved.left rfl
    · cases nothing
    · have once := executedIn_pop i batch.id req effects id
      by_cases same : id = batch.id
      · rw [once, if_pos same] at less
        exact less
      · have here := executedIn_pop i batch.id req effects batch.id
        rw [others batch.id (Ne.symm same), if_pos rfl] at here
        cases here
  -- its I/O, and the end of the round
  have aios : w.ioQueue.length ≤ (j.db.nodes i).worker.ioQueue.length + 1 := by
    rcases processRequest_hands shape unstopped processed with
      ⟨a, -, ioQueue, -, -⟩ | ⟨-, -, -, -, -, ioQueue, -⟩
    · rw [ioQueue, List.length_append, List.length_singleton]
    · rw [ioQueue]
      exact Nat.le_succ _
  refine Db.rank_paid left (Db.perform_node performed) ?_
  have after : Node.rank ⟨w, tail, .popping (cnt + 1)⟩ = w.ioQueue.length + (Phase.popping (cnt + 1)).rank :=
    Node.rank_popping rfl
  have before := Node.rank_popping phase
  rw [Phase.rank] at after
  omega

theorem rank_flush {i : Fin n} {out : Db n × List Event} (flushed : j.db.flush kernel i = some out) :
    (j.record out).db.rank split + 1 ≤ j.db.rank split := by
  have moved : Moved split j (j.record out) := moved_flush flushed
  have started : ∀ cnt, (j.db.nodes i).phase = .popping cnt → 0 < cnt := by
    intro cnt phase
    unfold Db.flush at flushed
    simp only [phase] at flushed
    split at flushed
    · next ready => exact ready.1
    · cases flushed
  obtain ⟨cnt, phase, rfl⟩ := Db.flush_eq_some flushed
  have left := moved.left_of_effects [] rfl
  refine Db.rank_paid left (fun k => ⟨rfl, rfl⟩) ?_
  have after : Node.rank ⟨((j.db.nodes i).worker.performIo kernel).1, (j.db.nodes i).batchQueue,
      .finishing (j.db.nodes i).worker.ioQueue ((j.db.nodes i).worker.performIo kernel).2⟩ =
      0 + (j.db.nodes i).worker.ioQueue.length + 1 := Node.rank_finishing rfl
  have before := Node.rank_popping phase
  obtain ⟨more, rfl⟩ := Nat.exists_eq_succ_of_ne_zero (Nat.pos_iff_ne_zero.mp (started cnt phase))
  rw [Phase.rank] at before
  omega

theorem rank_finish (account : Account split j) {i : Fin n} {out : Db n × List Event}
    (finished : j.db.finish split i = some out) : (j.record out).db.rank split + 1 ≤ j.db.rank split := by
  have moved := moved_finish account finished
  rcases Db.finish_eq_some finished with ⟨events, phase, rfl⟩ |
    ⟨aio, rest, events, aio', events', db, phase, handed, performed, rfl⟩
  · have left := moved.left_of_effects [] rfl
    refine Db.rank_paid left (fun k => ⟨rfl, rfl⟩) ?_
    have after : Node.rank { j.db.nodes i with phase := .popping 0 } =
        (j.db.nodes i).worker.ioQueue.length + (Phase.popping 0).rank := Node.rank_popping rfl
    have before := Node.rank_finishing phase
    rw [Phase.rank] at after
    omega
  · have left := moved.left_of_effects [_] rfl
    refine Db.rank_paid left (Db.perform_node performed) ?_
    have after : Node.rank ⟨((j.db.nodes i).worker.finish aio').1, (j.db.nodes i).batchQueue,
        .finishing rest events'⟩ = ((j.db.nodes i).worker.finish aio').1.ioQueue.length + rest.length + 1 :=
      Node.rank_finishing rfl
    have before := Node.rank_finishing phase
    rw [(finish_hands _ _).1] at after
    rw [List.length_cons] at before
    omega

/-- **A thread's step is paid for by the batches that were submitted.** -/
theorem rank_step (account : Account split j) (wellFormed : act.WellFormed)
    (taken : j.next split kernel act = some (j', u)) :
    j'.db.rank split + act.ofThread.toNat ≤ j.db.rank split + act.gain split := by
  cases act with
  | submit requests =>
      obtain ⟨db, submitted, same⟩ := Option.map_eq_some_iff.mp taken
      cases same
      obtain ⟨k, batch', held, -, sameWork, -⟩ := Db.submit_spec submitted
      have left : db.left split = (work split n requests).length + j.db.left split := by
        rw [Db.left, (held.flatMap_right _).length_eq, List.flatMap_cons, List.length_append,
          sameWork.length_eq, Db.left]
      have nodes : ∑ k, (db.nodes k).rank = ∑ k, (j.db.nodes k).rank := Finset.sum_congr rfl fun k _ => by
        obtain ⟨worker, phase⟩ := Db.submit_node submitted k
        rw [Node.rank, Node.rank, Node.aios, Node.aios, worker, phase]
      change db.rank split + 0 ≤ j.db.rank split + 4 * (work split n requests).length
      rw [Db.rank, Db.rank, left, nodes]
      omega
  | pop i =>
      obtain ⟨out, popped, same⟩ := Option.map_eq_some_iff.mp taken
      cases same
      exact rank_pop account popped
  | flush i =>
      obtain ⟨out, flushed, same⟩ := Option.map_eq_some_iff.mp taken
      cases same
      exact rank_flush flushed
  | finish i =>
      obtain ⟨out, finished, same⟩ := Option.map_eq_some_iff.mp taken
      cases same
      exact rank_finish account finished

/-! ## Somebody can go on -/

/-- The I/O of a round is queued by the requests of the round. -/
def Db.Paced (db : Db n) : Prop := ∀ k, (db.nodes k).phase.rank < 2 → (db.nodes k).worker.ioQueue = []

theorem Db.Paced.step {db db' : Db n} (paced : db.Paced) {i : Fin n} {node : Node}
    (others : ∀ k, (db'.nodes k).worker = ((db.set i node).nodes k).worker ∧
      (db'.nodes k).phase = ((db.set i node).nodes k).phase)
    (here : node.phase.rank < 2 → node.worker.ioQueue = []) : db'.Paced := by
  intro k
  rw [(others k).1, (others k).2]
  by_cases same : k = i
  · subst same
    rw [Db.set_same]
    exact here
  · rw [Db.set_other _ _ same]
    exact paced k

theorem Db.Paced.next (paced : j.db.Paced) (taken : j.next split kernel act = some (j', u)) :
    j'.db.Paced := by
  cases act with
  | submit requests =>
      obtain ⟨db, submitted, same⟩ := Option.map_eq_some_iff.mp taken
      cases same
      intro k
      obtain ⟨worker, phase⟩ := Db.submit_node submitted k
      rw [worker, phase]
      exact paced k
  | pop i =>
      obtain ⟨out, popped, same⟩ := Option.map_eq_some_iff.mp taken
      cases same
      obtain ⟨cnt, batch, tail, req, rest, w, effects, db, -, -, -, -, -, performed, rfl⟩ := Db.pop_eq_some popped
      exact paced.step (Db.perform_node performed) fun low => absurd low (Nat.lt_irrefl 2)
  | flush i =>
      obtain ⟨out, flushed, same⟩ := Option.map_eq_some_iff.mp taken
      cases same
      obtain ⟨cnt, phase, rfl⟩ := Db.flush_eq_some flushed
      exact paced.step (fun k => ⟨rfl, rfl⟩) fun _ => rfl
  | finish i =>
      obtain ⟨out, finished, same⟩ := Option.map_eq_some_iff.mp taken
      cases same
      rcases Db.finish_eq_some finished with ⟨events, phase, rfl⟩ |
        ⟨aio, rest, events, aio', events', db, phase, handed, performed, rfl⟩
      · have before := paced i
        rw [phase] at before
        exact paced.step (fun k => ⟨rfl, rfl⟩) fun _ => before Nat.one_lt_two
      · have before := paced i
        rw [phase] at before
        refine paced.step (Db.perform_node performed) fun _ => ?_
        exact (finish_hands _ _).1.trans (before Nat.one_lt_two)

/-- A batch that has requests is submitted if the first one is routed to a worker. -/
theorem Db.perform_isSome {effects : List Effect} : ∀ {db : Db n},
    (∀ b, .submit b ∈ effects → b.requests ≠ [] ∧ ∀ req ∈ b.requests, route split n req < n) →
      ∃ db', Db.perform split db effects = some db' := by
  induction effects with
  | nil => exact fun _ => ⟨_, rfl⟩
  | cons effect rest ih =>
      intro db routes
      have later := fun b member => routes b (List.mem_cons_of_mem _ member)
      cases effect with
      | submit batch =>
          obtain ⟨some', routed⟩ := routes batch (List.mem_cons_self ..)
          obtain ⟨req, others, shape⟩ := List.exists_cons_of_ne_nil some'
          have inRange := routed req (shape ▸ List.mem_cons_self ..)
          obtain ⟨db', performed⟩ := @ih (db.push ⟨route split n req, inRange⟩
            { batch with requests := batch.requests ++ scanCopies n req }) later
          refine ⟨db', ?_⟩
          rw [Db.perform, Db.submit]
          simp only [shape, dif_pos inRange, Option.bind_some]
          rw [← shape]
          exact performed
      | respond => exact ih later
      | scanned => exact ih later

theorem finishRequest_submits {batch b : Batch} {data : Option Slice} {res : Int}
    (submits : batch.finishRequest data res = .submit b) : b = batch ∧ b.requests ≠ [] := by
  unfold Batch.finishRequest at submits
  split at submits
  · cases submits
  · next more =>
      cases submits
      exact ⟨rfl, fun empty => more (List.isEmpty_iff.mpr empty)⟩

/-- The requests under way are routed to workers there are. -/
abbrev Db.Routed (split : Slice → Nat → Nat) (db : Db n) : Prop :=
  db.Keeping split (fun req => route split n req < n) fun _ _ _ => True

/-- What is submitted again is the batch that was finished. -/
theorem finished_routes {effects early : List Effect} {batch : Batch} {data : Option Slice} {res : Int}
    (shape : effects = early ++ [batch.finishRequest data res])
    (scans : ∀ effect ∈ early, ∃ id key value answer, effect = .scanned id key value answer)
    (routed : ∀ req ∈ batch.requests, route split n req < n) (b : Batch) (member : .submit b ∈ effects) :
    b.requests ≠ [] ∧ ∀ req ∈ b.requests, route split n req < n := by
  rw [shape, List.mem_append, List.mem_singleton] at member
  rcases member with call | final
  · obtain ⟨id, key, value, answer, same⟩ := scans _ call
    cases same
  · obtain ⟨rfl, more⟩ := finishRequest_submits final.symm
    exact ⟨more, routed⟩

/-- A request that has an outcome can be popped. -/
theorem Account.pop_isSome (account : Account split j) (routed : j.db.Routed split) {i : Fin n} {cnt : Nat}
    (phase : (j.db.nodes i).phase = .popping cnt) (room : cnt < maxEvent) {batch : Batch} {tail : List Batch}
    (queue : (j.db.nodes i).batchQueue = batch :: tail) {w : Worker} {effects : List Effect}
    (processed : (j.db.nodes i).worker.processRequest batch = some (w, effects)) :
    (j.db.pop split i).isSome := by
  have member : batch ∈ (j.db.nodes i).batchQueue := queue ▸ List.mem_cons_self ..
  obtain ⟨req, rest, shape, -⟩ := routed.routed i batch member
  have allowed := routed.queued i batch member
  rw [shape] at allowed
  have inHeld : (.queue i, batch) ∈ j.db.held :=
    List.mem_flatMap.mpr ⟨i, List.mem_finRange i, List.mem_append_left _ (List.mem_map_of_mem member)⟩
  have unstopped := (account.inHand _ inHeld).unstopped req (shape ▸ List.mem_cons_self ..)
  have routes : ∀ b, .submit b ∈ effects →
      b.requests ≠ [] ∧ ∀ req ∈ b.requests, route split n req < n := by
    rcases processRequest_hands shape unstopped processed with
      ⟨a, rfl, -, -, -⟩ | ⟨early, last, data, res, effects', -, -, left, calls⟩
    · exact fun b member => absurd member List.not_mem_nil
    · refine finished_routes effects' (fun effect inEarly => ?_) fun req inLast => ?_
      · obtain ⟨key, value, call⟩ := calls effect inEarly
        exact ⟨_, _, _, _, call⟩
      · exact allowed req (List.mem_cons_of_mem _ (left ▸ inLast))
  obtain ⟨db', performed⟩ := @Db.perform_isSome n split _ (j.db.set i ⟨w, tail, .popping (cnt + 1)⟩) routes
  rw [Db.pop]
  simp [phase, queue, shape, room, processed, performed]

/-- **Every thread can go on**, or waits for batches, or stands before a request that has no outcome. -/
theorem Account.thread_goes_on (kernel : Kernel) (account : Account split j)
    (routed : j.db.Routed split) (rounds : j.db.Rounds) (paced : j.db.Paced) (i : Fin n) :
    (∃ act, act.ofThread = true ∧ (j.next split kernel act).isSome) ∨ j.db.Crashing i ∨
      (j.db.nodes i).held i = [] := by
  cases phase : (j.db.nodes i).phase with
  | popping cnt =>
      cases queue : (j.db.nodes i).batchQueue with
      | nil =>
          cases cnt with
          | zero =>
              have idle := paced i (by rw [phase, Phase.rank]; decide)
              refine .inr (.inr ?_)
              rw [Node.held, Node.aios, phase, queue, idle, List.map_nil, List.append_nil, List.map_nil,
                List.append_nil]
          | succ cnt =>
              refine .inl ⟨.flush i, rfl, ?_⟩
              rw [Journal.next, Option.isSome_map, Db.flush]
              simp [phase, queue]
      | cons batch tail =>
          by_cases room : cnt < maxEvent
          · cases processed : (j.db.nodes i).worker.processRequest batch with
            | none => exact .inr (.inl ⟨batch, tail, queue, processed⟩)
            | some out =>
                refine .inl ⟨.pop i, rfl, ?_⟩
                rw [Journal.next, Option.isSome_map]
                exact account.pop_isSome routed phase room queue processed
          · have full : cnt = maxEvent := Nat.le_antisymm (rounds i cnt phase) (Nat.le_of_not_lt room)
            have positive : 0 < maxEvent := by decide
            refine .inl ⟨.flush i, rfl, ?_⟩
            rw [Journal.next, Option.isSome_map, Db.flush]
            simp [phase, full, positive]
  | finishing left events =>
      refine .inl ⟨.finish i, rfl, ?_⟩
      rw [Journal.next, Option.isSome_map, Db.finish]
      cases left with
      | nil =>
          simp only [phase]
          rfl
      | cons aio rest =>
          simp only [phase, Option.isSome_map]
          have flying : ∀ req ∈ aio.batch.requests, route split n req < n := by
            refine routed.flying i aio (List.mem_append_right _ ?_)
            rw [phase, Phase.owed]
            exact List.mem_cons_self ..
          obtain ⟨-, data, effect⟩ := finish_hands (j.db.nodes i).worker
            (if aio.submit then { aio with event := events.head?.map IoEvent.res } else aio)
          have sameBatch : (if aio.submit then { aio with event := events.head?.map IoEvent.res } else aio).batch =
              aio.batch := by split <;> rfl
          rw [sameBatch] at effect
          refine Option.isSome_iff_exists.mpr (Db.perform_isSome ?_)
          rw [effect]
          exact finished_routes (List.nil_append _).symm (fun effect inNil => absurd inNil List.not_mem_nil) flying

/-- The copies of a scan are for workers there are. -/
theorem routed_threadwise (split : Slice → Nat → Nat) :
    Threadwise split (fun req => route split n req < n) fun (_ : Fin n) _ _ => True where
  copies req inRange copy member := by
    cases req with
    | scan minKey maxKey callback tag =>
        cases tag with
        | zero =>
            obtain ⟨k, below, rfl⟩ := List.mem_map.mp member
            have less := List.mem_range.mp below
            rw [route]
            omega
        | succ tag => exact absurd member List.not_mem_nil
    | get | put | update | delete => exact absurd member List.not_mem_nil
  request _ _ _ _ _ := trivial
  io _ _ := trivial
  completion _ _ := trivial

/-- **Every batch gets its answer**: the threads' steps are bounded by the work submitted, and as long as
a batch is not answered some thread can take one, unless it stands before a request that has no
outcome on its worker.  Then every batch has been answered once, and executed in full. -/
theorem answered_of_run (split : Slice → Nat → Nat) (kernel : Kernel) (n : Nat) (workDir : String)
    (pages : Nat) (junk : Memory) {acts : List (Act n)} {j : Journal n} {outs : List Unit}
    (wellFormed : ∀ act ∈ acts, act.WellFormed)
    (routes : ∀ act ∈ acts, act.Submits fun req => route split n req < n)
    (ran : Run.run (Journal.next split kernel) (.new n workDir pages junk) acts = some (j, outs)) :
    acts.countP Act.ofThread ≤ (acts.map (Act.gain split)).sum ∧
      ((∃ act, act.ofThread = true ∧ (j.next split kernel act).isSome) ∨ (∃ i, j.db.Crashing i) ∨
        (answeredIn j.log).Perm (List.range j.submitted.length) ∧
          ∀ id reqs, j.submitted[id]? = some reqs → (executedIn j.log id).Perm (work split n reqs)) := by
  let start : Journal n := .new n workDir pages junk
  have fresh := Account.new split n workDir pages junk
  have along : Run.Along (Journal.next split kernel) (fun _ act => act.WellFormed) start acts :=
    .of_forall wellFormed
  have routed : j.db.Routed split := (routed_threadwise split).of_run (fun _ => trivial) routes ran
  have rounds : j.db.Rounds := by
    refine rounds_of_run (fun k cnt phase => ?_) ran
    cases phase
    exact Nat.zero_le _
  have kept : ∀ (s : Journal n) (act : Act n) (s' : Journal n) (u : Unit), Account split s ∧ s.db.Paced →
      act.WellFormed → s.next split kernel act = some (s', u) → Account split s' ∧ s'.db.Paced :=
    fun _ _ _ _ inv ok taken => ⟨inv.1.next ok taken, inv.2.next taken⟩
  obtain ⟨account, paced⟩ := Run.invariant kept ⟨fresh, fun _ _ => rfl⟩ along ran
  have paid : j.db.rank split + acts.countP Act.ofThread ≤ start.db.rank split + (acts.map (Act.gain split)).sum :=
    Run.potential (fun s act s' _ inv ok taken => ⟨inv.next ok taken, rank_step inv ok taken⟩) fresh along ran
  have nothing : start.db.rank split = 0 := by
    have none' : start.db.held = [] := by simp [start, Db.held, Journal.new, Node.held, Node.aios, Worker.new]
    have ranks : ∑ k, (start.db.nodes k).rank = 0 := Finset.sum_eq_zero fun k _ => rfl
    rw [Db.rank, Db.left, none', ranks]
    rfl
  refine ⟨by omega, ?_⟩
  rw [or_iff_not_imp_left, or_iff_not_imp_left]
  intro blocked survives
  have empty : j.db.held = [] := List.flatMap_eq_nil_iff.mpr fun i _ => by
    obtain going | crashing | waits := account.thread_goes_on kernel routed rounds paced i
    · exact absurd going blocked
    · exact absurd ⟨i, crashing⟩ survives
    · exact waits
  have answers := account.ids
  rw [empty, List.map_nil, List.nil_append] at answers
  refine ⟨answers, fun id reqs found => account.answered id ?_ reqs found⟩
  exact answers.mem_iff.mpr (List.mem_range.mpr (List.getElem?_eq_some_iff.mp found).1)

/-- A PUT takes the four steps its work allows for. -/
theorem answered_of_run_example :
    let acts : List (Act 2) := [.submit [.put [1] [2]], .pop 1, .flush 1, .finish 1, .finish 1]
    acts.countP Act.ofThread = 4 ∧ ∃ j : Journal 2,
      acts.countP Act.ofThread ≤ (acts.map (Act.gain fun key n => key.length % n)).sum ∧
        ((∃ act, act.ofThread = true ∧ (j.next (fun key n => key.length % n) .inOrder act).isSome) ∨
          (∃ i, j.db.Crashing i) ∨
          (answeredIn j.log).Perm (List.range j.submitted.length) ∧
            ∀ id reqs, j.submitted[id]? = some reqs →
              (executedIn j.log id).Perm (work (fun key n => key.length % n) 2 reqs)) := by
  intro acts
  have ends : (Run.run (Journal.next (fun key n => key.length % n) .inOrder) (.new 2 "db" 4 fun _ => 0)
      acts).isSome = true := by
    decide +kernel
  obtain ⟨⟨j, outs⟩, ran⟩ := Option.isSome_iff_exists.mp ends
  refine ⟨rfl, j, answered_of_run _ .inOrder 2 "db" 4 (fun _ => 0) ?_ ?_ ran⟩
  · simp [acts, Act.WellFormed, Request.Unstopped]
  · simp [acts, Act.Submits, route]

end KTableFS.Kvengine
