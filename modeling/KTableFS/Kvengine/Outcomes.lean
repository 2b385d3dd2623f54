/-
# Kvengine.Outcomes -- what became of the requests of a batch, and what its client hears

`Batch::FinishRequest` is told the result of the request just finished.  It passes the
result on when no request is left and forgets it otherwise, so the client hears the
result of the last request.  An `Outcome` is what it was told, and a `Graded` journal
keeps all of them.

* `batch_result_honest`: in a run in which only last requests fail, and fail with an
  error code, a batch answered with 0 has succeeded in full.
-/
import KTableFS.Kvengine.Custody
import Mathlib.Algebra.BigOperators.Fin

namespace KTableFS.Kvengine

open KTableFS.Theory

set_option autoImplicit false

/-- How a request ended: what `FinishRequest` is told (`res`), whether the request did
what it asks for, and the requests of its batch behind it. -/
structure Outcome where
  batch : Nat
  left : List Request
  success : Bool
  res : Int
  deriving Inhabited

/-- What the client is told when the request ends. -/
def Outcome.replies (o : Outcome) : List (Nat × Int) :=
  if o.left.isEmpty then [(o.batch, o.res)] else []

/-- A request that `ProcessRequest_` finishes itself: its success and its result.  The
others finish with their I/O. -/
def Worker.ends (w : Worker) : Request → Option (Bool × Int)
  | .scan .. => some (true, 0)
  | req => (w.refusal req).map fun res => (false, res)

variable {n : Nat}

/-- The request a step finishes. -/
def Db.outcome (db : Db n) : Act n → Option Outcome
  | .submit _ => none
  | .flush _ => none
  | .pop i =>
      match (db.nodes i).phase, (db.nodes i).batchQueue with
      | .popping _, batch :: _ =>
          match batch.requests with
          | [] => none
          | req :: rest => ((db.nodes i).worker.ends req).map fun out => ⟨batch.id, rest, out.1, out.2⟩
      | _, _ => none
  | .finish i =>
      match (db.nodes i).phase with
      | .finishing (aio :: _) events =>
          let aio' := if aio.submit then { aio with event := events.head?.map IoEvent.res } else aio
          some ⟨aio.batch.id, aio.batch.requests, aio'.success, aio'.result⟩
      | _ => none

/-- A journal that keeps the outcomes. -/
structure Graded (n : Nat) extends Journal n where
  ended : List Outcome

namespace Graded

/-- Idle workers in any state, and nothing in flight. -/
def start (workers : Fin n → Worker) : Graded n where
  db := ⟨fun i => ⟨{ workers i with ioQueue := [] }, [], .popping 0⟩⟩
  submitted := []
  log := []
  ended := []

def next (split : Slice → Nat → Nat) (kernel : Kernel) (g : Graded n) (act : Act n) :
    Option (Graded n × Unit) :=
  (g.toJournal.next split kernel act).map fun out =>
    (⟨out.1, g.ended ++ (g.db.outcome act).toList⟩, ())

/-- The outcomes of the requests of one batch, in order. -/
def outcomes (g : Graded n) (id : Nat) : List Outcome := g.ended.filter fun o => o.batch == id

end Graded

/-- The answers given, with their results. -/
def repliesIn (log : List Event) : List (Nat × Int) :=
  log.filterMap fun
    | .effect (.respond batch _ res) => some (batch, res)
    | _ => none

@[simp] theorem repliesIn_append (log new : List Event) :
    repliesIn (log ++ new) = repliesIn log ++ repliesIn new :=
  List.filterMap_append

theorem answeredIn_eq (log : List Event) : answeredIn log = (repliesIn log).map Prod.fst := by
  rw [answeredIn, repliesIn, List.map_filterMap]
  apply List.filterMap_congr
  intro event _
  cases event with
  | executed worker batch req => rfl
  | effect effect => cases effect <;> rfl

/-! ## What is in flight -/

/-- The queued I/O of a worker for one batch. -/
def Node.flying (node : Node) (id : Nat) : Nat := node.aios.countP fun a => a.batch.id == id

namespace Db

def inFlight (db : Db n) (id : Nat) : Nat := ∑ i, (db.nodes i).flying id

theorem inFlight_set (db : Db n) (i : Fin n) (node : Node) (id : Nat) :
    (db.set i node).inFlight id + (db.nodes i).flying id = db.inFlight id + node.flying id := by
  have others : ∑ k ∈ Finset.univ.erase i, ((db.set i node).nodes k).flying id =
      ∑ k ∈ Finset.univ.erase i, (db.nodes k).flying id := by
    apply Finset.sum_congr rfl
    intro k member
    rw [set_other db node (Finset.ne_of_mem_erase member)]
  rw [inFlight, inFlight, ← Finset.add_sum_erase _ _ (Finset.mem_univ i),
    ← Finset.add_sum_erase _ (fun k => (db.nodes k).flying id) (Finset.mem_univ i), others, set_same]
  omega

theorem submit_inFlight {split : Slice → Nat → Nat} {db db' : Db n} {batch : Batch}
    (submitted : db.submit split batch = some db') (id : Nat) : db'.inFlight id = db.inFlight id := by
  unfold submit at submitted
  split at submitted
  · cases submitted
  · split at submitted
    · cases submitted
      exact Nat.add_right_cancel (db.inFlight_set _ _ id)
    · cases submitted

theorem perform_inFlight {split : Slice → Nat → Nat} {id : Nat} {effects : List Effect} :
    ∀ {db db' : Db n}, perform split db effects = some db' → db'.inFlight id = db.inFlight id := by
  induction effects with
  | nil =>
      intro db db' performed
      cases performed
      rfl
  | cons effect rest ih =>
      intro db db' performed
      cases effect with
      | submit batch =>
          obtain ⟨mid, submitted, later⟩ := Option.bind_eq_some_iff.mp performed
          rw [ih later, submit_inFlight submitted]
      | respond batch data res => exact ih performed
      | scanned batch key value answer => exact ih performed

/-- What is in flight is held. -/
theorem held_of_inFlight {db : Db n} {id : Nat} (flying : db.inFlight id ≠ 0) :
    ∃ entry ∈ db.held, entry.2.id = id := by
  obtain ⟨i, -, some'⟩ := Finset.exists_ne_zero_of_sum_ne_zero flying
  obtain ⟨a, queued, named⟩ := List.countP_pos_iff.mp (Nat.pos_of_ne_zero some')
  refine ⟨(.aio i, a.batch), ?_, by simpa using named⟩
  refine List.mem_flatMap.mpr ⟨i, List.mem_finRange i, List.mem_append_right _ ?_⟩
  exact List.mem_map.mpr ⟨a, queued, rfl⟩

end Db

/-! ## What a step finishes -/

/-- Where processing a request leaves it: with a queued I/O, or ended. -/
inductive Left (w w' : Worker) (id : Nat) (rest : List Request) (effects : List Effect) :
    Option (Bool × Int) → Prop where
  | queued (a : Aio) (silent : effects = []) (queue : w'.ioQueue = w.ioQueue ++ [a])
      (named : a.batch.id = id) : Left w w' id rest effects none
  | ended (success : Bool) (res : Int) (early : List Effect) (batch : Batch)
      (shape : effects = early ++ [batch.finishRequest none res]) (queue : w'.ioQueue = w.ioQueue)
      (named : batch.id = id) (left : batch.requests = rest)
      (calls : ∀ effect ∈ early, ∃ id key value answer, effect = .scanned id key value answer) :
      Left w w' id rest effects (some (success, res))

theorem enqueue_left {w w' : Worker} {id : Nat} {rest : List Request} {effects : List Effect}
    {prepared : Option (Aio × FileSlab)} (kept : ∀ a fs, prepared = some (a, fs) → a.batch.id = id)
    (enqueued : w.enqueue prepared = some (w', effects)) : Left w w' id rest effects none := by
  simp only [Worker.enqueue, Option.map_eq_some_iff, Prod.mk.injEq] at enqueued
  obtain ⟨⟨a, fs⟩, prepared, rfl, rfl⟩ := enqueued
  exact .queued a rfl rfl (kept a fs prepared)

theorem processRequest_left {w w' : Worker} {batch : Batch} {req : Request} {rest : List Request}
    {effects : List Effect} (shape : batch.requests = req :: rest) (unstopped : req.Unstopped)
    (processed : w.processRequest batch = some (w', effects)) :
    Left w w' batch.id rest effects (w.ends req) := by
  have refused : ∀ res : Int,
      some (w, [{ batch with requests := rest }.finishRequest none res]) = some (w', effects) →
        Left w w' batch.id rest effects (some (false, res)) := by
    rintro res ⟨⟩
    exact .ended false res [] { batch with requests := rest } rfl rfl rfl rfl (by simp)
  unfold Worker.processRequest at processed
  rw [shape] at processed
  cases req with
  | get key =>
      simp only at processed
      split at processed <;> rename_i found <;> simp only [Worker.ends, Worker.refusal, found]
      · exact refused _ processed
      · exact enqueue_left (fun a fs read => by rw [FileSlab.read_batch read]; rfl) processed
  | put key value =>
      simp only at processed
      split at processed <;> rename_i found <;> simp only [Worker.ends, Worker.refusal, found]
      · exact refused _ processed
      · split at processed
        · cases processed
        · exact enqueue_left (fun a fs wrote => by rw [FileSlab.write_batch wrote]; rfl) processed
  | update key value =>
      simp only at processed
      split at processed <;> rename_i found <;> simp only [Worker.ends, Worker.refusal, found]
      · exact refused _ processed
      · exact enqueue_left (fun a fs wrote => by rw [FileSlab.write_batch wrote]; rfl) processed
  | delete key =>
      simp only at processed
      split at processed <;> rename_i found <;> simp only [Worker.ends, Worker.refusal, found]
      · exact refused _ processed
      · exact enqueue_left (fun a fs freed => by rw [FileSlab.delete_batch freed]; rfl) processed
  | scan minKey maxKey callback tag =>
      simp only [Option.map_eq_some_iff, Prod.mk.injEq] at processed
      obtain ⟨⟨fs, batch', early⟩, looped, rfl, rfl⟩ := processed
      obtain ⟨id, requests, calls⟩ := scanLoop_unstopped unstopped looped
      refine .ended true 0 early batch' rfl rfl id requests ?_
      intro effect member
      obtain ⟨key, value, shape⟩ := calls effect member
      exact ⟨_, key, value, true, shape⟩

theorem repliesIn_scans {effects : List Effect}
    (scans : ∀ effect ∈ effects, ∃ id key value answer, effect = .scanned id key value answer) :
    repliesIn (effects.map .effect) = [] := by
  rw [repliesIn, List.filterMap_map, List.filterMap_eq_nil_iff]
  intro effect member
  obtain ⟨id, key, value, answer, rfl⟩ := scans effect member
  rfl

/-- `FinishRequest` tells the client what it is told, or nothing. -/
theorem repliesIn_finishRequest (batch : Batch) (data : Option Slice) (res : Int) (success : Bool) :
    repliesIn [.effect (batch.finishRequest data res)] =
      Outcome.replies ⟨batch.id, batch.requests, success, res⟩ := by
  unfold Batch.finishRequest Outcome.replies
  split <;> rfl

/-- A step's events and what is in flight after it, by the request it finishes. -/
structure Stepped (db db' : Db n) (new : List Event) (ended : Option Outcome) : Prop where
  replies : repliesIn new = ended.toList.flatMap Outcome.replies
  counted : ∀ id, db'.inFlight id + ended.toList.countP (fun o => o.batch == id) =
    db.inFlight id + (executedIn new id).length

theorem stepped_pop {split : Slice → Nat → Nat} {j : Journal n} (account : Account split j) {i : Fin n}
    {out : Db n × List Event} (popped : j.db.pop split i = some out) :
    Stepped j.db out.1 out.2 (j.db.outcome (.pop i)) := by
  obtain ⟨cnt, batch, tail, req, rest, w, effects, db, phase, queue, shape, -, processed, performed, rfl⟩ :=
    Db.pop_eq_some popped
  have inHeld : (.queue i, batch) ∈ j.db.held := by
    refine List.mem_flatMap.mpr ⟨i, List.mem_finRange i, List.mem_append_left _ ?_⟩
    rw [queue]
    exact List.mem_map.mpr ⟨batch, List.mem_cons_self .., rfl⟩
  have unstopped : req.Unstopped := (account.inHand _ inHeld).unstopped req (by simp [shape])
  have left := processRequest_left shape unstopped processed
  have flew : ∀ id, db.inFlight id +
      (j.db.nodes i).worker.ioQueue.countP (fun a => a.batch.id == id) =
        j.db.inFlight id + w.ioQueue.countP fun a => a.batch.id == id := by
    intro id
    have set := j.db.inFlight_set i ⟨w, tail, .popping (cnt + 1)⟩ id
    rw [Db.perform_inFlight performed]
    simpa only [Node.flying, Node.aios, phase, List.append_nil] using set
  simp only [Db.outcome, phase, queue, shape]
  cases ended : (j.db.nodes i).worker.ends req with
  | none =>
      rw [ended] at left
      obtain ⟨a, rfl, ioQueue, named⟩ := left
      refine ⟨rfl, fun id => ?_⟩
      have flew := flew id
      rw [ioQueue, List.countP_append, List.countP_singleton, named] at flew
      rw [executedIn_pop]
      by_cases same : id = batch.id
      · simp only [same, beq_self_eq_true, if_true] at flew ⊢
        simpa using by omega
      · have differ : (batch.id == id) = false := by simpa using Ne.symm same
        simp only [differ, Bool.false_eq_true, if_false, same] at flew ⊢
        simpa using flew
  | some verdict =>
      rw [ended] at left
      cases left with
      | ended success res early last finished ioQueue named requests calls =>
          subst requests finished
          refine ⟨?_, fun id => ?_⟩
          · have told := repliesIn_finishRequest last none res success
            have silent : repliesIn [.executed i batch.id req] = [] := rfl
            rw [List.map_append, ← List.cons_append, repliesIn_append, ← List.singleton_append,
              repliesIn_append, repliesIn_scans calls, silent]
            simpa [named] using told
          · have flew := flew id
            rw [ioQueue] at flew
            rw [executedIn_pop]
            by_cases same : id = batch.id
            · subst same
              simpa using by omega
            · have differ : batch.id ≠ id := Ne.symm same
              simpa [same, differ] using by omega

/-- A flush finishes nothing. -/
theorem stepped_flush {kernel : Kernel} {db : Db n} {i : Fin n} {out : Db n × List Event}
    (flushed : db.flush kernel i = some out) : Stepped db out.1 out.2 (db.outcome (.flush i)) := by
  obtain ⟨cnt, phase, rfl⟩ := Db.flush_eq_some flushed
  refine ⟨rfl, fun id => ?_⟩
  have set := db.inFlight_set i ⟨((db.nodes i).worker.performIo kernel).1, (db.nodes i).batchQueue,
    .finishing (db.nodes i).worker.ioQueue ((db.nodes i).worker.performIo kernel).2⟩ id
  have emptied : ((db.nodes i).worker.performIo kernel).1.ioQueue = [] := rfl
  simp only [Node.flying, Node.aios, phase, emptied, List.append_nil, List.nil_append] at set
  exact Nat.add_right_cancel set

theorem stepped_finish {split : Slice → Nat → Nat} {db : Db n} {i : Fin n} {out : Db n × List Event}
    (finished : db.finish split i = some out) :
    Stepped db out.1 out.2 (db.outcome (.finish i)) := by
  rcases Db.finish_eq_some finished with ⟨events, phase, rfl⟩ |
    ⟨aio, rest, events, aio', events', db', phase, handed, performed, rfl⟩
  · refine ⟨by simp [Db.outcome, phase, repliesIn], fun id => ?_⟩
    have set := db.inFlight_set i { db.nodes i with phase := .popping 0 } id
    simp only [Node.flying, Node.aios, phase] at set
    simpa [Db.outcome, phase, executedIn] using Nat.add_right_cancel set
  · have sameBatch : aio'.batch = aio.batch := by
      rw [handed]
      split <;> rfl
    obtain ⟨ioQueue, data, effect⟩ := finish_hands (db.nodes i).worker aio'
    rw [sameBatch] at effect
    have outcome : db.outcome (.finish i) =
        some ⟨aio.batch.id, aio.batch.requests, aio'.success, aio'.result⟩ := by
      simp only [Db.outcome, phase, handed]
    rw [outcome]
    refine ⟨?_, fun id => ?_⟩
    · rw [effect, repliesIn_finishRequest aio.batch data aio'.result aio'.success]
      simp
    · have set := db.inFlight_set i ⟨((db.nodes i).worker.finish aio').1, (db.nodes i).batchQueue,
        .finishing rest events'⟩ id
      rw [← Db.perform_inFlight performed] at set
      simp only [Node.flying, Node.aios, phase, ioQueue, List.countP_append, List.countP_cons] at set
      have silent := executedIn_effects [((db.nodes i).worker.finish aio').2] id
      rw [List.map_cons, List.map_nil] at silent
      simp only [silent, Option.toList_some, List.countP_cons, List.countP_nil, List.length_nil]
      omega

/-! ## The invariant -/

/-- The batches still held have not failed yet, and those answered with 0 never did. -/
structure Clean (split : Slice → Nat → Nat) (g : Graded n) : Prop where
  account : Account split g.toJournal
  counted : ∀ id, (executedIn g.log id).length = (g.outcomes id).length + g.db.inFlight id
  held : ∀ entry ∈ g.db.held, ∀ o ∈ g.outcomes entry.2.id, o.success = true
  answered : ∀ id, (id, 0) ∈ repliesIn g.log → ∀ o ∈ g.outcomes id, o.success = true
  results : ∀ o ∈ g.ended, o.success = true → o.res = 0

/-- The request a step finishes has succeeded, or it is the last one of its batch and
reports an error. -/
def Graded.LastOnly (g : Graded n) (act : Act n) : Prop :=
  ∀ o ∈ g.db.outcome act, o.success = true ∨ o.left = [] ∧ o.res ≠ 0

/-- A batch answered with 0 has completed every request it stands for, each of them
successfully and with result 0. -/
def Graded.Honest (split : Slice → Nat → Nat) (g : Graded n) : Prop :=
  ∀ id data reqs, .effect (.respond id data 0) ∈ g.log → g.submitted[id]? = some reqs →
    (g.outcomes id).length = (work split n reqs).length ∧
      ∀ o ∈ g.outcomes id, o.success = true ∧ o.res = 0

theorem mem_repliesIn {log : List Event} {id : Nat} {res : Int} :
    (id, res) ∈ repliesIn log ↔ ∃ data, .effect (.respond id data res) ∈ log := by
  simp only [repliesIn, List.mem_filterMap]
  constructor
  · rintro ⟨event, member, shape⟩
    cases event with
    | executed worker batch req => cases shape
    | effect effect =>
        cases effect with
        | respond batch data res' =>
            cases shape
            exact ⟨data, member⟩
        | submit batch => cases shape
        | scanned batch key value answer => cases shape
  · rintro ⟨data, member⟩
    exact ⟨_, member, rfl⟩

/-- A step answers a batch only if it was held. -/
theorem Moved.held_of_answered {split : Slice → Nat → Nat} {j j' : Journal n} {new : List Event}
    {id : Nat} (step : Moved split j j') (log : j'.log = j.log ++ new) (answered : id ∈ answeredIn new) :
    ∃ entry ∈ j.db.held, entry.2.id = id := by
  cases step with
  | kept held submitted log' =>
      obtain rfl : new = [] := List.append_cancel_left (log.symm.trans (log'.trans (List.append_nil _).symm))
      cases answered
  | moved source target rest new' ran before after submitted log' named inHand executed answers work =>
      obtain rfl : new = new' := List.append_cancel_left (log.symm.trans log')
      refine ⟨source, before.mem_iff.mpr (List.mem_cons_self ..), ?_⟩
      rw [answers] at answered
      split at answered
      · cases answered
      · exact (List.mem_singleton.mp answered).symm

/-- The batches a worker's step leaves held were held before. -/
theorem Moved.held_before {split : Slice → Nat → Nat} {j j' : Journal n} (step : Moved split j j')
    {entry : Place n × Batch} (member : entry ∈ j'.db.held) :
    ∃ old ∈ j.db.held, old.2.id = entry.2.id := by
  cases step with
  | kept held submitted log => exact ⟨entry, held.mem_iff.mp member, rfl⟩
  | moved source target rest new ran before after submitted log named inHand executed answers work =>
      rcases List.mem_append.mp (after.mem_iff.mp member) with fresh | old
      · refine ⟨source, before.mem_iff.mpr (List.mem_cons_self ..), ?_⟩
        exact (named entry (by simpa using fresh)).symm
      · exact ⟨entry, before.mem_iff.mpr (List.mem_cons_of_mem _ old), rfl⟩

theorem Db.outcome_res {db : Db n} {act : Act n} {o : Outcome} (ended : db.outcome act = some o)
    (success : o.success = true) : o.res = 0 := by
  cases act with
  | submit requests => cases ended
  | flush i => cases ended
  | pop i =>
      simp only [Db.outcome] at ended
      split at ended
      · split at ended
        · cases ended
        · rename_i req rest shape
          obtain ⟨verdict, ends, rfl⟩ := Option.map_eq_some_iff.mp ended
          have refused : ∀ req', (Option.map (fun res => (false, res))
              ((db.nodes i).worker.refusal req')) ≠ some verdict := by
            intro req' isRefused
            obtain ⟨res, -, rfl⟩ := Option.map_eq_some_iff.mp isRefused
            cases success
          cases req with
          | scan minKey maxKey callback tag =>
              cases ends
              rfl
          | get key => exact absurd ends (refused _)
          | put key value => exact absurd ends (refused _)
          | update key value => exact absurd ends (refused _)
          | delete key => exact absurd ends (refused _)
      · cases ended
  | finish i =>
      simp only [Db.outcome] at ended
      split at ended
      · cases ended
        exact if_pos success
      · cases ended

theorem Graded.outcomes_append (g : Graded n) (j' : Journal n) (ended : Option Outcome) (id : Nat) :
    Graded.outcomes ⟨j', g.ended ++ ended.toList⟩ id =
      g.outcomes id ++ ended.toList.filter fun o => o.batch == id :=
  List.filter_append ..

/-- **A worker's step keeps it**: a failed request is the last of its batch, which is
answered with an error and gone. -/
theorem Clean.moved {split : Slice → Nat → Nat} {g : Graded n} (clean : Clean split g)
    {j' : Journal n} {new : List Event} {ended : Option Outcome} (step : Moved split g.toJournal j')
    (log : j'.log = g.log ++ new) (stepped : Stepped g.db j'.db new ended)
    (last : ∀ o ∈ ended, o.success = true ∨ o.left = [] ∧ o.res ≠ 0)
    (results : ∀ o ∈ ended, o.success = true → o.res = 0) :
    Clean split ⟨j', g.ended ++ ended.toList⟩ := by
  have account' := clean.account.moved step
  have apart := List.nodup_append.mp account'.nodup
  -- a failing request answers its batch in this step
  have tells : ∀ o ∈ ended, o.success ≠ true → (o.batch, o.res) ∈ repliesIn new := by
    intro o isEnded failed
    have left := ((last o isEnded).resolve_left failed).1
    rw [stepped.replies, show ended = some o from isEnded]
    simp [Outcome.replies, left]
  refine ⟨account', fun id => ?_, fun entry member o recorded => ?_, fun id told o recorded => ?_,
    fun o recorded => ?_⟩
  · have before := clean.counted id
    have counted := stepped.counted id
    rw [Graded.outcomes_append, List.length_append, ← List.countP_eq_length_filter]
    change (executedIn j'.log id).length = _ + j'.db.inFlight id
    rw [log, executedIn_append, List.length_append]
    omega
  · rw [Graded.outcomes_append] at recorded
    rcases List.mem_append.mp recorded with old | fresh
    · obtain ⟨entry', held, same⟩ := step.held_before member
      exact clean.held entry' held o (same ▸ old)
    · obtain ⟨isEnded, here⟩ := List.mem_filter.mp fresh
      by_contra failed
      have answered := tells o (by simpa using isEnded) failed
      refine apart.2.2 entry.2.id (List.mem_map_of_mem member) entry.2.id ?_ rfl
      rw [log, answeredIn_append, answeredIn_eq new]
      refine List.mem_append_right _ (List.mem_map.mpr ⟨_, answered, ?_⟩)
      simpa using here
  · rw [Graded.outcomes_append] at recorded
    change (id, 0) ∈ repliesIn j'.log at told
    rw [log, repliesIn_append] at told
    rcases List.mem_append.mp told with before | now <;> rcases List.mem_append.mp recorded with old | fresh
    · exact clean.answered id before o old
    · obtain ⟨isEnded, here⟩ := List.mem_filter.mp fresh
      by_contra failed
      have again := tells o (by simpa using isEnded) failed
      obtain rfl : o.batch = id := by simpa using here
      have once := apart.2.1
      rw [log, answeredIn_append, answeredIn_eq g.log, answeredIn_eq new] at once
      exact (List.nodup_append.mp once).2.2 o.batch (List.mem_map.mpr ⟨_, before, rfl⟩) o.batch
        (List.mem_map.mpr ⟨_, again, rfl⟩) rfl
    · obtain ⟨entry, held, rfl⟩ := step.held_of_answered log
        (answeredIn_eq new ▸ List.mem_map.mpr ⟨_, now, rfl⟩)
      exact clean.held entry held o old
    · obtain ⟨isEnded, -⟩ := List.mem_filter.mp fresh
      have isEnded : ended = some o := by simpa using isEnded
      by_contra failed
      obtain ⟨left, error⟩ := (last o isEnded).resolve_left failed
      rw [stepped.replies, isEnded] at now
      simp only [Option.toList_some, List.flatMap_cons, List.flatMap_nil, Outcome.replies, left,
        List.isEmpty_nil, if_true, List.append_nil, List.mem_singleton, Prod.mk.injEq] at now
      exact error now.2.symm
  · rcases List.mem_append.mp recorded with old | fresh
    · exact clean.results o old
    · exact results o (by simpa using fresh)

/-- **A client's submission keeps it.** -/
theorem Clean.submit {split : Slice → Nat → Nat} {g : Graded n} (clean : Clean split g)
    {requests : List Request} {db : Db n} (unstopped : ∀ req ∈ requests, req.Unstopped)
    (submitted : g.db.submit split ⟨g.submitted.length, requests, []⟩ = some db) :
    Clean split ⟨{ g.toJournal with db := db, submitted := g.submitted ++ [requests] }, g.ended⟩ := by
  obtain ⟨i, batch, held, named, -, -, -⟩ := Db.submit_spec submitted
  refine ⟨clean.account.submit unstopped submitted, fun id => ?_, fun entry member o recorded => ?_,
    clean.answered, clean.results⟩
  · rw [clean.counted id, ← Db.submit_inFlight submitted]
    rfl
  · rcases List.mem_cons.mp (held.mem_iff.mp member) with rfl | old
    · -- nothing has been recorded for a batch that did not exist
      have unborn := clean.counted g.submitted.length
      rw [clean.account.unborn _ le_rfl, List.length_nil] at unborn
      have none' : (g.outcomes g.submitted.length).length = 0 := by omega
      rw [List.length_eq_zero_iff] at none'
      change o ∈ g.outcomes batch.id at recorded
      rw [named, none'] at recorded
      cases recorded
    · exact clean.held entry old o recorded

theorem Clean.next {split : Slice → Nat → Nat} {kernel : Kernel} {g g' : Graded n} {act : Act n}
    {u : Unit} (clean : Clean split g) (last : g.LastOnly act) (wellFormed : act.WellFormed)
    (taken : g.next split kernel act = some (g', u)) : Clean split g' := by
  simp only [Graded.next, Option.map_eq_some_iff, Prod.mk.injEq] at taken
  obtain ⟨⟨j', _⟩, taken, rfl, -⟩ := taken
  cases act with
  | submit requests =>
      simp only [Journal.next, Option.map_eq_some_iff, Prod.mk.injEq] at taken
      obtain ⟨db, submitted, rfl, -⟩ := taken
      simpa [Db.outcome] using clean.submit wellFormed submitted
  | pop i =>
      simp only [Journal.next, Option.map_eq_some_iff, Prod.mk.injEq] at taken
      obtain ⟨out, popped, rfl, -⟩ := taken
      exact clean.moved (moved_pop clean.account popped) rfl (stepped_pop clean.account popped) last
        fun _ => Db.outcome_res
  | flush i =>
      simp only [Journal.next, Option.map_eq_some_iff, Prod.mk.injEq] at taken
      obtain ⟨out, flushed, rfl, -⟩ := taken
      exact clean.moved (moved_flush flushed) rfl (stepped_flush flushed) last
        fun _ => Db.outcome_res
  | finish i =>
      simp only [Journal.next, Option.map_eq_some_iff, Prod.mk.injEq] at taken
      obtain ⟨out, finished, rfl, -⟩ := taken
      exact clean.moved (moved_finish clean.account finished) rfl (stepped_finish finished) last
        fun _ => Db.outcome_res

/-! ## Runs -/

theorem Clean.start (split : Slice → Nat → Nat) (workers : Fin n → Worker) :
    Clean split (Graded.start workers) := by
  have none' : (Graded.start workers).db.held = [] := by
    simp [Db.held, Graded.start, Node.held, Node.aios]
  refine ⟨⟨by rw [none']; rfl, by simp [none'], by simp [none'], by simp [Graded.start, answeredIn],
    fun _ _ => rfl⟩, fun id => ?_, by simp [none'], by simp [Graded.start, repliesIn],
    by simp [Graded.start]⟩
  simp [Graded.start, Graded.outcomes, Db.inFlight, Node.flying, Node.aios, executedIn]

theorem Clean.honest {split : Slice → Nat → Nat} {g : Graded n} (clean : Clean split g) :
    g.Honest split := by
  intro id data reqs told found
  have told' : (id, 0) ∈ repliesIn g.log := mem_repliesIn.mpr ⟨data, told⟩
  have answered : id ∈ answeredIn g.log := by
    rw [answeredIn_eq]
    exact List.mem_map.mpr ⟨_, told', rfl⟩
  refine ⟨?_, fun o recorded => ?_⟩
  swap
  · have success := clean.answered id told' o recorded
    exact ⟨success, clean.results o (List.mem_of_mem_filter recorded) success⟩
  have landed : g.db.inFlight id = 0 := by
    by_contra flying
    obtain ⟨entry, held, rfl⟩ := Db.held_of_inFlight flying
    exact (List.nodup_append.mp clean.account.nodup).2.2 _ (List.mem_map_of_mem held) _ answered rfl
  have counted := clean.counted id
  have whole := (clean.account.answered id answered reqs found).length_eq
  omega

/-- **A batch answered with 0 has succeeded in full, if only last requests fail.**  For
every number of workers in any state, every interleaving and every batch: as long as a
request that is refused or whose I/O fails is the last of its batch and reports an error,
a batch whose callback receives 0 has completed each of its requests successfully. -/
theorem batch_result_honest (split : Slice → Nat → Nat) (kernel : Kernel) (workers : Fin n → Worker)
    {acts : List (Act n)} {g : Graded n} {outs : List Unit}
    (wellFormed : ∀ act ∈ acts, act.WellFormed)
    (lastOnly : Run.Along (Graded.next split kernel) Graded.LastOnly (.start workers) acts)
    (ran : Run.run (Graded.next split kernel) (.start workers) acts = some (g, outs)) :
    g.Honest split := by
  have clean : Clean split g := Run.invariant
    (fun _ _ _ _ clean ok taken => clean.next ok.1 ok.2 taken)
    (.start split workers) (lastOnly.and_forall wellFormed) ran
  exact clean.honest

/-- Two workers and two batches: the first one succeeds, the second one ends with a
`PUT` of a key that is stored. -/
theorem batch_result_honest_example :
    ∃ (g : Graded 2) (outs : List Unit),
      Run.run (Graded.next (fun key n => key.length % n) .inOrder)
        (.start fun i => .new i "db" 4 fun _ => 0)
        [.submit [.put [1] [2], .get [1]], .pop 1, .flush 1, .finish 1, .finish 1, .pop 1, .flush 1,
          .finish 1, .finish 1, .submit [.get [1], .put [1] [3]], .pop 1, .flush 1, .finish 1, .finish 1,
          .pop 1] = some (g, outs) ∧
      g.Honest (fun key n => key.length % n) ∧ repliesIn g.log = [(0, 0), (1, eexist)] := by
  let acts : List (Act 2) :=
    [.submit [.put [1] [2], .get [1]], .pop 1, .flush 1, .finish 1, .finish 1, .pop 1, .flush 1,
      .finish 1, .finish 1, .submit [.get [1], .put [1] [3]], .pop 1, .flush 1, .finish 1, .finish 1,
      .pop 1]
  have ends : (Run.run (Graded.next (fun key n => key.length % n) .inOrder)
      (.start fun i : Fin 2 => .new i "db" 4 fun _ => 0) acts).map (fun out => repliesIn out.1.log) =
        some [(0, 0), (1, eexist)] := by
    decide +kernel
  obtain ⟨⟨g, outs⟩, ran, replies⟩ := Option.map_eq_some_iff.mp ends
  refine ⟨g, outs, ran, batch_result_honest _ .inOrder (fun i => .new i "db" 4 fun _ => 0) ?_ ?_ ran,
    replies⟩
  · simp [acts, Act.WellFormed, Request.Unstopped]
  · unfold Graded.LastOnly
    decide +kernel

/-- A `GET` of an absent key and a `PUT`: the `GET` fails, and the client hears 0. -/
theorem batch_result_hidden :
    ¬ ∀ (n : Nat) (split : Slice → Nat → Nat) (kernel : Kernel) (workers : Fin n → Worker)
      (acts : List (Act n)) (g : Graded n) (outs : List Unit), (∀ act ∈ acts, act.WellFormed) →
      Run.run (Graded.next split kernel) (.start workers) acts = some (g, outs) → g.Honest split := by
  intro always
  let acts : List (Act 1) :=
    [.submit [.get [9], .put [1] [2]], .pop 0, .pop 0, .flush 0, .finish 0]
  have ends : (Run.run (Graded.next (fun _ _ => 0) .inOrder)
      (.start fun i : Fin 1 => .new i "db" 4 fun _ => 0) acts).map (fun out =>
        (repliesIn out.1.log, out.1.submitted.length, (out.1.outcomes 0).map Outcome.success)) =
          some ([(0, 0)], 1, [false, true]) := by
    decide +kernel
  obtain ⟨⟨g, outs⟩, ran, ends⟩ := Option.map_eq_some_iff.mp ends
  simp only [Prod.mk.injEq] at ends
  obtain ⟨replies, submitted, failed⟩ := ends
  obtain ⟨data, told⟩ := mem_repliesIn.mp (show (0, 0) ∈ repliesIn g.log by simp [replies])
  have honest := always 1 (fun _ _ => 0) .inOrder _ acts g outs
    (by simp [acts, Act.WellFormed, Request.Unstopped]) ran 0 data g.submitted[0]
    told (by simp)
  have all : ∀ success ∈ (g.outcomes 0).map Outcome.success, success = true := by
    intro success member
    obtain ⟨o, recorded, rfl⟩ := List.mem_map.mp member
    exact (honest.2 o recorded).1
  rw [failed] at all
  exact absurd (all false (by simp)) (by decide)

end KTableFS.Kvengine
