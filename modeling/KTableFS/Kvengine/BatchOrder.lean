/-
# Kvengine.BatchOrder -- in which order a batch takes effect

A batch with no other activity in the system should do what its requests do one after
another on the map the workers hold together: `ServedInOrder` says so of its
executions, one group for each request in turn, a scan's group being its copies on all
the workers.

`DB::Submit` copies a scan when it gets to the front of the batch, and appends the
copies behind the requests the batch still has.  Worker 0 scans in turn; the other
workers scan after every other request of the batch.

* `schedule_eq_iff`: the schedule is the intended order if and only if there is one
  worker, or no request comes behind a scan;
* `batch_in_order_iff`: exactly then the batch takes effect in order, whatever the
  threads do;
* `batch_out_of_order`: a scan delivers a pair that a later request of its batch puts.
-/
import KTableFS.Kvengine.Solo

namespace KTableFS.Kvengine

open KTableFS.Theory

set_option autoImplicit false

/-! ## The intended order -/

/-- A request as a client adds it to a batch. -/
def Request.Untagged : Request → Prop
  | .scan _ _ _ worker => worker = 0
  | _ => True

/-- The executions are those of the requests, one after another, on the map: each on
all the workers it is for, with the pairs the map has for it. -/
def ServedInOrder (split : Slice → Nat → Nat) (n : Nat) : Store → List Request → List Execution → Prop
  | _, [], all => all = []
  | m, req :: rest, all => ∃ here later, all = here ++ later ∧
      here.map (fun e => (e.worker, e.request)) = expand split n req ∧
      (here.flatMap Execution.pairs).Perm (pairsIn (m.serve req).2) ∧
      ServedInOrder split n (m.serve req).1 rest later

/-- The requests with the copies of each scan right behind it. -/
def unfolded (n : Nat) (reqs : List Request) : List Request :=
  reqs.flatMap fun req => req :: scanCopies n req

theorem scanCopies_point {n : Nat} {req : Request} (point : req.isPoint = true) :
    scanCopies n req = [] := by
  cases req with
  | scan minKey maxKey callback tag => cases point
  | _ => rfl

/-- **When the schedule is the intended order.** -/
theorem schedule_eq_iff {n : Nat} (some' : 0 < n) {reqs : List Request}
    (untagged : ∀ req ∈ reqs, req.Untagged) :
    schedule n reqs = unfolded n reqs ↔ n = 1 ∨ ∀ req ∈ reqs.dropLast, req.isPoint = true := by
  by_cases one : n = 1
  · subst one
    refine iff_of_true ?_ (Or.inl rfl)
    have none' : ∀ req, scanCopies 1 req = [] := by
      intro req
      unfold scanCopies
      split <;> rfl
    simp [schedule, unfolded, none']
  · simp only [one, false_or]
    induction reqs with
    | nil => simp [schedule, unfolded]
    | cons req rest ih =>
        have ih' := ih fun later member => untagged later (List.mem_cons_of_mem _ member)
        have step : schedule n (req :: rest) = unfolded n (req :: rest) ↔
            rest ++ (scanCopies n req ++ rest.flatMap (scanCopies n)) =
              scanCopies n req ++ unfolded n rest := by
          simp only [schedule, unfolded, List.flatMap_cons, List.cons_append, List.cons.injEq, true_and]
        rw [step]
        by_cases point : req.isPoint = true
        · rw [scanCopies_point point, List.nil_append, List.nil_append]
          refine Iff.trans (show rest ++ rest.flatMap (scanCopies n) = unfolded n rest ↔ _ from ih') ?_
          cases rest with
          | nil => simp
          | cons next later => simp [point]
        · cases rest with
          | nil => simp [unfolded]
          | cons next later =>
              -- the first copy stands where the next request should
              refine iff_of_false ?_ (fun all => point (all req (by simp)))
              intro same
              cases req with
              | scan minKey maxKey callback tag =>
                  have zero : tag = 0 := untagged _ (List.mem_cons_self ..)
                  subst zero
                  obtain ⟨m, rfl⟩ : ∃ m, n = m + 2 := ⟨n - 2, by omega⟩
                  have copies : ∃ more, scanCopies (m + 2) (.scan minKey maxKey callback 0) =
                      .scan minKey maxKey callback 1 :: more := by
                    simp only [scanCopies, Nat.add_succ_sub_one, List.range_succ_eq_map, List.map_cons]
                    exact ⟨_, rfl⟩
                  obtain ⟨more, copies⟩ := copies
                  rw [copies, List.cons_append, List.cons_append] at same
                  have tagged := untagged next (by simp)
                  rw [(List.cons.inj same).1] at tagged
                  cases tagged
              | _ => exact point rfl

/-! ## The executions of an order -/

section Orders

variable {split : Slice → Nat → Nat} {n : Nat}

/-- The executions of requests that the workers serve one after another. -/
def storeRecord (split : Slice → Nat → Nat) (n : Nat) (m : Store) (reqs : List Request) :
    List Execution :=
  record split n reqs (Run.trace (Workers.storeStep split n) m reqs).2

theorem storeRecord_append (m : Store) (reqs later : List Request) :
    storeRecord split n m (reqs ++ later) = storeRecord split n m reqs ++
      storeRecord split n (Run.trace (Workers.storeStep split n) m reqs).1 later := by
  rw [storeRecord, Run.trace_append, record,
    List.zipWith_append (Run.length_trace _ reqs m).symm]
  rfl

theorem storeRecord_cons (m : Store) (req : Request) (rest : List Request) :
    storeRecord split n m (req :: rest) =
      ⟨route split n req, req, pairsIn (Workers.storeStep split n m req).2⟩ ::
        storeRecord split n (m.serve req).1 rest := rfl

theorem storeRecord_requests (reqs : List Request) : ∀ m : Store,
    (storeRecord split n m reqs).map Execution.request = reqs := by
  induction reqs with
  | nil => exact fun _ => rfl
  | cons req rest ih =>
      intro m
      rw [storeRecord_cons, List.map_cons, ih]

/-- The copies of a scan leave the map alone, and each delivers a share. -/
theorem storeRecord_scanTags (m : Store) (minKey maxKey : Slice) (callback : ScanCallback)
    (count : Nat) : ∀ i, (Run.trace (Workers.storeStep split n) m
        (scanTags minKey maxKey callback i count)).1 = m ∧
      storeRecord split n m (scanTags minKey maxKey callback i count) =
        (List.range' i count).map fun k => ⟨k, .scan minKey maxKey callback k,
          pairsIn ((m.share split n k).serve (.scan minKey maxKey callback k)).2⟩ := by
  induction count with
  | zero => exact fun _ => ⟨rfl, rfl⟩
  | succ count ih =>
      intro i
      obtain ⟨same, later⟩ := ih (i + 1)
      have cons : scanTags minKey maxKey callback i (count + 1) = .scan minKey maxKey callback i ::
          scanTags minKey maxKey callback (i + 1) count := by
        rw [scanTags, List.range'_succ, List.map_cons]
        rfl
      rw [cons, storeRecord_cons, List.range'_succ, List.map_cons]
      exact ⟨same, congrArg _ later⟩

/-- What a request with its copies does to the map, and the executions it makes. -/
theorem storeRecord_unfolded (m : Store) (routed : ∀ key, split key n < n) {req : Request}
    (some' : 0 < n) (untagged : req.Untagged) :
    (Run.trace (Workers.storeStep split n) m (req :: scanCopies n req)).1 = (m.serve req).1 ∧
      (storeRecord split n m (req :: scanCopies n req)).map (fun e => (e.worker, e.request)) =
        expand split n req ∧
      ((storeRecord split n m (req :: scanCopies n req)).flatMap Execution.pairs).Perm
        (pairsIn (m.serve req).2) := by
  by_cases point : req.isPoint = true
  · rw [scanCopies_point point, storeRecord_cons]
    refine ⟨rfl, ?_, ?_⟩
    · cases req with
      | scan minKey maxKey callback tag => cases point
      | _ => rfl
    · rw [Workers.storeStep, m.serve_share_effects point, m.pairsIn_serve_point point]
      exact List.Perm.refl _
  · cases req with
    | scan minKey maxKey callback tag =>
        have zero : tag = 0 := untagged
        subst zero
        rw [requests_submitted some']
        obtain ⟨same, executed⟩ := @storeRecord_scanTags split n m minKey maxKey
          callback n 0
        rw [executed, ← List.range_eq_range']
        refine ⟨same, ?_, ?_⟩
        · rw [List.map_map]
          rfl
        · rw [List.flatMap_map]
          exact m.flatMap_share_perm routed minKey maxKey callback
    | _ => exact absurd rfl point

/-- Requests served with their copies right behind them are served in order. -/
theorem servedInOrder_unfolded (routed : ∀ key, split key n < n) (some' : 0 < n) {reqs : List Request} :
    ∀ {m : Store}, (∀ req ∈ reqs, req.Untagged) →
      ServedInOrder split n m reqs (storeRecord split n m (unfolded n reqs)) := by
  induction reqs with
  | nil => exact fun _ => rfl
  | cons req rest ih =>
      intro m untagged
      obtain ⟨after, workers, pairs⟩ := storeRecord_unfolded m routed some'
        (untagged req (List.mem_cons_self ..))
      refine ⟨_, _, ?_, workers, pairs, ih fun later member => untagged later (List.mem_cons_of_mem _ member)⟩
      rw [unfolded, List.flatMap_cons, storeRecord_append, after]
      rfl

/-- Executions in order are the requests with their copies. -/
theorem ServedInOrder.workers {reqs : List Request} : ∀ {m : Store} {all : List Execution},
    ServedInOrder split n m reqs all →
      all.map (fun e => (e.worker, e.request)) = work split n reqs := by
  induction reqs with
  | nil =>
      rintro m all rfl
      rfl
  | cons req rest ih =>
      rintro m all ⟨here, later, rfl, workers, -, inOrder⟩
      rw [List.map_append, workers, ih inOrder]
      rfl

theorem map_work (some' : 0 < n) {reqs : List Request} (untagged : ∀ req ∈ reqs, req.Untagged) :
    (work split n reqs).map Prod.snd = unfolded n reqs := by
  rw [work, List.map_flatMap]
  apply List.flatMap_congr
  intro req member
  have here := untagged req member
  cases req with
  | scan minKey maxKey callback tag =>
      have zero : tag = 0 := here
      subst zero
      rw [requests_submitted some', expand, List.map_map, scanTags, ← List.range_eq_range']
      rfl
  | _ => rfl

/-- The executions of the schedule are in order if and only if the schedule is. -/
theorem servedInOrder_schedule_iff (routed : ∀ key, split key n < n) (some' : 0 < n) {reqs : List Request}
    {m : Store} (untagged : ∀ req ∈ reqs, req.Untagged) :
    ServedInOrder split n m reqs (storeRecord split n m (schedule n reqs)) ↔
      schedule n reqs = unfolded n reqs := by
  constructor
  · intro inOrder
    have same := congrArg (List.map Prod.snd) inOrder.workers
    rw [map_work some' untagged, List.map_map] at same
    exact (storeRecord_requests (schedule n reqs) m).symm.trans same
  · intro same
    rw [same]
    exact servedInOrder_unfolded routed some' untagged

end Orders

/-! ## The workers' threads -/

section Threads

variable {n : Nat}

/-- The workers hold the map, and nothing is under way. -/
structure Db.AtRest (split : Slice → Nat → Nat) (db : Db n) (m : Store) : Prop where
  holds : db.workers.Holds split m
  idle : ∀ k, (db.nodes k).batchQueue = [] ∧ (db.nodes k).phase = .popping 0

/-- A new database. -/
theorem Db.AtRest.new (split : Slice → Nat → Nat) (n : Nat) (workDir : String) {pages : Nat}
    (two : 2 ≤ pages) (junk : Memory) : (Journal.new n workDir pages junk).db.AtRest split ∅ :=
  ⟨.new workDir two junk, fun _ => ⟨rfl, rfl⟩⟩

/-- What has happened since `j₀`. -/
def Journal.since (j j₀ : Journal n) : List Event := j.log.drop j₀.log.length

/-- A run that submits the batch at `j₀`, and in which its callback is called; no client
submits anything else. -/
def Answers (split : Slice → Nat → Nat) (j₀ : Journal n) (reqs : List Request) (j : Journal n) : Prop :=
  ∃ acts us, (∀ act ∈ acts, Act.IsThread act) ∧
    Run.run (Journal.next split .inOrder) j₀ (.submit reqs :: acts) = some (j, us) ∧
    j₀.submitted.length ∈ answeredIn (j.since j₀)

/-- The batch has been served in order, and the workers hold what the map became. -/
structure TookEffect (split : Slice → Nat → Nat) (m : Store) (j₀ : Journal n) (reqs : List Request)
    (j : Journal n) : Prop where
  served : ServedInOrder split n m reqs (executions (j.since j₀))
  holds : j.db.workers.Holds split (Run.trace Store.serve m reqs).1

/-- The schedule leaves the map as the requests in order do. -/
theorem trace_schedule (split : Slice → Nat → Nat) (n : Nat) (m : Store) (reqs : List Request) :
    (Run.trace (Workers.storeStep split n) m (schedule n reqs)).1 = (Run.trace Store.serve m reqs).1 := by
  have same : ∀ (reqs : List Request) (m : Store),
      (Run.trace (Workers.storeStep split n) m reqs).1 = (Run.trace Store.serve m reqs).1 := by
    intro reqs
    induction reqs with
    | nil => exact fun _ => rfl
    | cons req rest ih => exact fun m => ih _
  have scans : ∀ (copies : List Request) (m : Store), (∀ req ∈ copies, req.isPoint = false) →
      (Run.trace Store.serve m copies).1 = m := by
    intro copies
    induction copies with
    | nil => exact fun _ _ => rfl
    | cons req rest ih =>
        intro m all
        have here := all req (List.mem_cons_self ..)
        cases req with
        | scan minKey maxKey callback tag => exact ih m fun later member => all later (.tail _ member)
        | _ => cases here
  rw [same, schedule, Run.trace_append]
  apply scans
  intro copy member
  obtain ⟨req, -, inCopies⟩ := List.mem_flatMap.mp member
  unfold scanCopies at inCopies
  split at inCopies
  · obtain ⟨i, -, rfl⟩ := List.mem_map.mp inCopies
    rfl
  · cases inCopies

theorem mem_scanCopies {n : Nat} {req copy : Request} (member : copy ∈ scanCopies n req) :
    ∃ minKey maxKey callback i, req = .scan minKey maxKey callback 0 ∧
      copy = .scan minKey maxKey callback i ∧ i < n := by
  unfold scanCopies at member
  split at member
  · rename_i minKey maxKey callback
    obtain ⟨i, below, rfl⟩ := List.mem_map.mp member
    have := List.mem_range.mp below
    exact ⟨minKey, maxKey, callback, i + 1, rfl, rfl, by omega⟩
  · cases member

section Batch

variable {split : Slice → Nat → Nat} {m : Store} {ws : Workers n} {reqs : List Request}
  (routed : ∀ key, split key n < n) (some' : 0 < n) (unstopped : ∀ req ∈ reqs, req.Unstopped)
  (untagged : ∀ req ∈ reqs, req.Untagged)

include unstopped in
theorem schedule_unstopped : ∀ req ∈ schedule n reqs, req.Unstopped := by
  intro req member
  rcases List.mem_append.mp member with own | copy
  · exact unstopped req own
  · obtain ⟨source, inReqs, copied⟩ := List.mem_flatMap.mp copy
    obtain ⟨minKey, maxKey, callback, i, rfl, rfl, -⟩ := mem_scanCopies copied
    exact show Request.Unstopped (.scan minKey maxKey callback 0) from unstopped _ inReqs

include routed some' untagged in
theorem schedule_inRange : ∀ req ∈ schedule n reqs, route split n req < n := by
  intro req member
  rcases List.mem_append.mp member with own | copy
  · have here := untagged req own
    cases req with
    | scan minKey maxKey callback tag =>
        have zero : tag = 0 := here
        exact zero ▸ some'
    | get key => exact routed key
    | put key value => exact routed key
    | update key value => exact routed key
    | delete key => exact routed key
  · obtain ⟨source, inReqs, copied⟩ := List.mem_flatMap.mp copy
    obtain ⟨minKey, maxKey, callback, i, rfl, rfl, below⟩ := mem_scanCopies copied
    exact below

include routed some' unstopped untagged in
/-- The workers serve the schedule as the map does. -/
theorem run_schedule (holds : ws.Holds split m)
    (safe : Run.Along (Workers.serveOne split) (Workers.MapSafe split) ws (schedule n reqs)) :
    ∃ ws', Run.run (Workers.serveOne split) ws (schedule n reqs) =
        some (ws', (Run.trace (Workers.storeStep split n) m (schedule n reqs)).2) ∧
      Workers.Holds split ws' (Run.trace Store.serve m reqs).1 := by
  have admissible : ∀ req ∈ schedule n reqs, route split n req < n ∧ req.Unstopped := fun req member =>
    ⟨schedule_inRange routed some' untagged req member, schedule_unstopped unstopped req member⟩
  have steps : ∀ (ws : Workers n) (m : Store) (req : Request), ws.Holds split m →
      ws.MapSafe split req ∧ route split n req < n ∧ req.Unstopped →
      ∃ ws', ws.serveOne split req = some (ws', (Workers.storeStep split n m req).2) ∧
        Workers.Holds split ws' (Workers.storeStep split n m req).1 :=
    fun ws m req holds ok => holds.step ok.2.1 ok.2.2 ok.1
  obtain ⟨ws', ran, holds'⟩ := Run.simulates steps holds (safe.and_forall admissible)
  rw [trace_schedule] at holds'
  exact ⟨ws', ran, holds'⟩

end Batch

/-- **A batch takes effect in order** -- it is answered, and whenever it is, its requests
have been served in order -- if and only if there is one worker or no request comes
behind a scan. -/
theorem batch_in_order_iff {split : Slice → Nat → Nat} (routed : ∀ key, split key n < n)
    {j₀ : Journal n} {m : Store} (rests : j₀.db.AtRest split m) {reqs : List Request} (some' : reqs ≠ [])
    (unstopped : ∀ req ∈ reqs, req.Unstopped) (untagged : ∀ req ∈ reqs, req.Untagged)
    (safe : Run.Along (Workers.serveOne split) (Workers.MapSafe split) j₀.db.workers (schedule n reqs)) :
    ((∃ j, Answers split j₀ reqs j) ∧ ∀ j, Answers split j₀ reqs j → TookEffect split m j₀ reqs j) ↔
      n = 1 ∨ ∀ req ∈ reqs.dropLast, req.isPoint = true := by
  have workers : 0 < n := Nat.zero_lt_of_lt (routed [])
  obtain ⟨final, total, holds⟩ := run_schedule routed workers unstopped untagged rests.holds safe
  have servable : Servable split j₀.db.workers reqs :=
    ⟨schedule_unstopped unstopped, schedule_inRange routed workers untagged, _, total⟩
  have idle : ∀ k, (j₀.db.nodes k).Idle (j₀.db.workers k) [] := by
    intro k
    obtain ⟨queue, phase⟩ := rests.idle k
    exact ⟨rfl, (rests.holds k).between, queue, by rw [phase]; exact Nat.zero_le _⟩
  obtain ⟨j₁, submitted, started⟩ := Solo.start servable some' idle
  -- what an answered batch has done, and where it leaves the workers
  have ended : ∀ {j : Journal n} {served todo : List Request} {ws : Workers n} {outs : List (List Effect)},
      Solo split j₀ reqs j served todo ws outs .answered →
      executions (j.since j₀) = storeRecord split n m (schedule n reqs) ∧
        j.db.workers.Holds split (Run.trace Store.serve m reqs).1 ∧
        j₀.submitted.length ∈ answeredIn (j.since j₀) := by
    intro j served todo ws outs solo
    obtain ⟨rfl, idle'⟩ := solo.stands.idle_of_answered
    have whole := solo.order
    have ran := solo.ran
    rw [List.append_nil] at whole
    rw [← whole, total, Option.some.injEq, Prod.mk.injEq] at ran
    obtain ⟨new, log, delivered, answered⟩ := solo.log
    have since : j.since j₀ = new := by rw [Journal.since, log, List.drop_left]
    rw [since, answered, if_pos rfl]
    refine ⟨?_, ?_, List.mem_singleton.mpr rfl⟩
    · rw [executions, delivered, ← whole, ← ran.2]
      rfl
    · rw [show j.db.workers = final from (funext fun k => (idle' k).worker).trans ran.1.symm]
      exact holds
  have answers : ∃ j, Answers split j₀ reqs j := by
    obtain ⟨acts, j, us, served, ws, outs, threads, ran, solo⟩ := started.completes servable le_rfl
    exact ⟨j, acts, () :: us, threads, Run.run_cons_eq_some.mpr ⟨j₁, (), us, submitted, ran, rfl⟩,
      (ended solo).2.2⟩
  have outcome : ∀ j, Answers split j₀ reqs j →
      executions (j.since j₀) = storeRecord split n m (schedule n reqs) ∧
        j.db.workers.Holds split (Run.trace Store.serve m reqs).1 := by
    rintro j ⟨acts, us, threads, ran, answered⟩
    obtain ⟨j', _, us', taken, ran', -⟩ := Run.run_cons_eq_some.mp ran
    rw [submitted, Option.some.injEq, Prod.mk.injEq] at taken
    rw [← taken.1] at ran'
    obtain ⟨served, todo, ws, outs, stage, solo⟩ := started.run servable threads ran'
    have stage' : stage = .answered := by
      by_contra other
      obtain ⟨new, log, -, unanswered⟩ := solo.log
      rw [if_neg other] at unanswered
      rw [Journal.since, log, List.drop_left, unanswered] at answered
      cases answered
    subst stage'
    exact ⟨(ended solo).1, (ended solo).2.1⟩
  rw [← schedule_eq_iff workers untagged, ← servedInOrder_schedule_iff routed workers untagged]
  constructor
  · rintro ⟨⟨j, answered⟩, all⟩
    rw [← (outcome j answered).1]
    exact (all j answered).served
  · intro inOrder
    refine ⟨answers, fun j answered => ⟨?_, (outcome j answered).2⟩⟩
    rw [(outcome j answered).1]
    exact inOrder

end Threads

/-- The put comes first and the scan last: two workers, the key on the second. -/
theorem batch_in_order_iff_example :
    let j₀ : Journal 2 := .new 2 "db" 4 fun _ => 0
    let reqs : List Request := [.put [6] [2], .get [6], .scan [] [9] (fun _ => true) 0]
    (∃ j, Answers defaultSplitFunc j₀ reqs j) ∧
      ∀ j, Answers defaultSplitFunc j₀ reqs j → TookEffect defaultSplitFunc ∅ j₀ reqs j := by
  intro j₀ reqs
  refine (batch_in_order_iff (fun key => Nat.mod_lt _ (by decide)) (.new _ 2 "db" (by decide) _)
    (by simp [reqs]) ?_ ?_ ?_).mpr (Or.inr (by decide))
  · simp [reqs, Request.Unstopped]
  · simp [reqs, Request.Untagged]
  · decide +kernel

/-- The pairs of executions in order. -/
theorem ServedInOrder.pairs {split : Slice → Nat → Nat} {n : Nat} {reqs : List Request} :
    ∀ {m : Store} {all : List Execution}, ServedInOrder split n m reqs all →
      (all.flatMap Execution.pairs).Perm ((Run.trace Store.serve m reqs).2.flatMap pairsIn) := by
  induction reqs with
  | nil =>
      rintro m all rfl
      exact List.Perm.refl _
  | cons req rest ih =>
      rintro m all ⟨here, later, rfl, -, pairs, inOrder⟩
      rw [List.flatMap_append]
      exact pairs.append (ih inOrder)

/-- A scan of an empty database, and behind it in the same batch a put to the second
worker: the second worker scans after the put, and delivers its pair. -/
theorem batch_out_of_order :
    ¬ ∀ (n : Nat) (split : Slice → Nat → Nat) (j₀ : Journal n) (m : Store) (reqs : List Request),
      (∀ key, split key n < n) → j₀.db.AtRest split m → reqs ≠ [] → (∀ req ∈ reqs, req.Unstopped) →
      (∀ req ∈ reqs, req.Untagged) →
      (∃ j, Answers split j₀ reqs j) ∧ ∀ j, Answers split j₀ reqs j → TookEffect split m j₀ reqs j := by
  intro claim
  let j₀ : Journal 2 := .new 2 "db" 4 fun _ => 0
  let reqs : List Request := [.scan [] [9] (fun _ => true) 0, .put [6] [2]]
  let acts : List (Act 2) := [.pop 0, .pop 1, .flush 1, .finish 1, .finish 1, .pop 1]
  have holds := (claim 2 defaultSplitFunc j₀ ∅ reqs (fun key => Nat.mod_lt _ (by decide))
    (.new _ 2 "db" (by decide) _) (by simp [reqs]) (by simp [reqs, Request.Unstopped])
    (by simp [reqs, Request.Untagged])).2
  have ran : ∃ out, Run.run (Journal.next defaultSplitFunc .inOrder) j₀ (.submit reqs :: acts) = some out ∧
      0 ∈ answeredIn (out.1.since j₀) ∧
      (executions (out.1.since j₀)).flatMap Execution.pairs = [([6], [2])] := by
    refine ⟨(Run.run (Journal.next defaultSplitFunc .inOrder) j₀ (.submit reqs :: acts)).get
      (by decide +kernel), (Option.some_get _).symm, ?_, ?_⟩
    · decide +kernel
    · decide +kernel
  obtain ⟨⟨j, us⟩, ran, answered, delivered⟩ := ran
  have effect := holds j ⟨acts, us, by simp [acts, Act.IsThread], ran, answered⟩
  have pairs := effect.served.pairs
  rw [delivered] at pairs
  have nothing : (Run.trace Store.serve ∅ reqs).2.flatMap pairsIn = [] := by decide +kernel
  rw [nothing] at pairs
  exact absurd pairs.length_eq (by decide)

end KTableFS.Kvengine
