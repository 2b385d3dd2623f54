/-
# Kvengine.Scan -- a scan that hops over all workers

`DB::Submit` copies a scan for every worker, and the batch visits them one after the
other.  What its callback is called for and what answers the batch gets depends on the
stores only through the pairs each worker reads: `scanShares` is that function, and
`scanShares_of_run` says that the workers' threads compute it.

A callback that answers `true` to the end gets all pairs, and the batch one answer
(`scanShare_of_goesOn`).  One that stops the scan makes its worker answer the batch and
answer it again behind the loop (`respondCount_of_stops`).
-/
import KTableFS.Kvengine.Coherence
import KTableFS.Kvengine.Db

namespace KTableFS.Kvengine

open KTableFS.Theory

set_option autoImplicit false

/-! ## One worker's share -/

/-- The calls of the scan callback for the pairs a worker has read. -/
def scanShare (callback : ScanCallback) : List (Slice × Slice) → Batch → Batch × List Effect
  | [], batch => (batch, [])
  | pair :: rest, batch =>
      let called := Worker.deliver callback batch pair
      let out := scanShare callback rest called.1
      (out.1, called.2 ++ out.2)

/-- The loop of a worker's SCAN case is its reads followed by these calls. -/
theorem scanLoop_eq_scanShare (callback : ScanCallback) :
    ∀ (entries : List (Slice × SlabT)) (fs : FileSlab) (batch : Batch),
      Worker.scanLoop callback entries fs batch =
        (Run.run scanReads fs entries).map fun read => (read.1, scanShare callback read.2 batch)
  | [], fs, batch => rfl
  | entry :: rest, fs, batch => by
      unfold Worker.scanLoop Run.run scanReads
      cases read : fs.readSync entry.2 with
      | none => rfl
      | some out =>
          obtain ⟨pair, mid⟩ := out
          simp only [Option.map_some, Prod.swap_prod_mk, scanLoop_eq_scanShare callback rest mid,
            Option.map_map]
          rfl

/-- **A worker's SCAN**, for the pairs its range reads: the calls, and the batch
finished behind them. -/
theorem processRequest_scan {w : Worker} {batch : Batch} {minKey maxKey : Slice}
    {callback : ScanCallback} {tag : Nat} {rest : List Request} {fs : FileSlab}
    {pairs : List (Slice × Slice)}
    (shape : batch.requests = .scan minKey maxKey callback tag :: rest)
    (reads : Run.run scanReads w.slab (Worker.scanRange w.index minKey maxKey) = some (fs, pairs)) :
    w.processRequest batch = some ({ w with slab := fs },
      let out := scanShare callback pairs { batch with requests := rest }
      out.2 ++ [out.1.finishRequest none 0]) := by
  unfold Worker.processRequest
  rw [shape]
  simp only [scanLoop_eq_scanShare, reads, Option.map_some]

/-- A scan request that hops from worker to worker, each with the pairs it reads. -/
def scanShares (callback : ScanCallback) : List (List (Slice × Slice)) → Batch → List Effect
  | [], _ => []
  | pairs :: shares, batch =>
      let out := scanShare callback pairs { batch with requests := batch.requests.tail }
      out.2 ++ out.1.finishRequest none 0 ::
        if out.1.requests.isEmpty then [] else scanShares callback shares out.1

/-! ## The answers -/

/-- A callback that goes on for every pair of a worker's share. -/
theorem scanShare_of_goesOn {callback : ScanCallback} : ∀ {pairs : List (Slice × Slice)} {batch : Batch},
    (∀ seen, seen <+: pairs → seen ≠ [] → callback (batch.delivered ++ seen) = true) →
      scanShare callback pairs batch =
        ({ batch with delivered := batch.delivered ++ pairs },
          pairs.map fun pair => .scanned batch.id pair.1 pair.2 true)
  | [], batch, _ => by simp [scanShare]
  | pair :: rest, batch, goesOn => by
      have first := goesOn [pair] (by simp) (by simp)
      have later : ∀ seen, seen <+: rest → seen ≠ [] →
          callback ((batch.delivered ++ [pair]) ++ seen) = true := by
        intro seen ahead _
        rw [List.append_assoc]
        exact goesOn (pair :: seen) (by simpa using ahead) (by simp)
      have tail := scanShare_of_goesOn
        (show ∀ seen, seen <+: rest → seen ≠ [] →
          callback (({ batch with delivered := batch.delivered ++ [pair] } : Batch).delivered ++ seen) = true
          from later)
      simp only [scanShare, Worker.deliver, first, if_true, tail, List.map_cons, List.append_assoc,
        List.singleton_append]

/-- How many answers a list of effects gives. -/
def respondCount (effects : List Effect) : Nat :=
  effects.countP fun
    | .respond .. => true
    | _ => false

theorem respondCount_append (first second : List Effect) :
    respondCount (first ++ second) = respondCount first + respondCount second :=
  List.countP_append

theorem respondCount_finishRequest {batch : Batch} (cleared : batch.requests = []) (data : Option Slice)
    (res : Int) : respondCount [batch.finishRequest data res] = 1 := by
  simp [Batch.finishRequest, cleared, respondCount]

/-- A cleared batch stays so. -/
theorem scanShare_cleared {callback : ScanCallback} : ∀ (pairs : List (Slice × Slice)) {batch : Batch},
    batch.requests = [] → (scanShare callback pairs batch).1.requests = []
  | [], _, cleared => cleared
  | pair :: rest, batch, cleared => by
      apply scanShare_cleared rest
      unfold Worker.deliver
      simp only
      split
      · exact cleared
      · rfl

/-- A callback that stops within a worker's share: the batch is answered and cleared. -/
theorem scanShare_of_stops {callback : ScanCallback} : ∀ {pairs : List (Slice × Slice)} {batch : Batch}
    {seen : List (Slice × Slice)}, seen <+: pairs → seen ≠ [] →
      callback (batch.delivered ++ seen) = false →
      (scanShare callback pairs batch).1.requests = [] ∧ 1 ≤ respondCount (scanShare callback pairs batch).2
  | [], _, seen, ahead, some', _ => absurd (List.prefix_nil.mp ahead) some'
  | pair :: rest, batch, [], _, some', _ => absurd rfl some'
  | pair :: rest, batch, first :: seen, ahead, _, stops => by
      obtain ⟨rfl, ahead'⟩ := List.cons_prefix_cons.mp ahead
      simp only [scanShare, Worker.deliver]
      by_cases goesOn : callback (batch.delivered ++ [first]) = true
      · rw [if_pos goesOn]
        have some' : seen ≠ [] := by
          rintro rfl
          rw [goesOn] at stops
          cases stops
        have tail := scanShare_of_stops ahead' some'
          (show callback (({ batch with delivered := batch.delivered ++ [first] } : Batch).delivered ++
            seen) = false by simpa using stops)
        refine ⟨tail.1, ?_⟩
        rw [respondCount_append]
        exact tail.2.trans (Nat.le_add_left ..)
      · rw [if_neg goesOn]
        refine ⟨scanShare_cleared rest rfl, ?_⟩
        have answered : respondCount [.scanned batch.id first.1 first.2 false,
            Batch.finishRequest ⟨batch.id, [], batch.delivered ++ [first]⟩ none (-1)] = 1 := by
          simp [respondCount, Batch.finishRequest]
        rw [respondCount_append, answered]
        omega

/-- A scan that is told to stop is answered twice. -/
theorem respondCount_of_stops {callback : ScanCallback} : ∀ {shares : List (List (Slice × Slice))}
    {batch : Batch} {seen : List (Slice × Slice)}, batch.requests.length = shares.length →
      seen <+: shares.flatten → seen ≠ [] → callback (batch.delivered ++ seen) = false →
      2 ≤ respondCount (scanShares callback shares batch)
  | [], _, _, _, ahead, some', _ => absurd (List.prefix_nil.mp ahead) some'
  | pairs :: shares, batch, seen, counted, ahead, some', stops => by
      simp only [scanShares]
      by_cases early : ∃ seen, seen <+: pairs ∧ seen ≠ [] ∧ callback (batch.delivered ++ seen) = false
      · -- the scan is stopped on this worker
        obtain ⟨seen, ahead, some', stops⟩ := early
        obtain ⟨cleared, answered⟩ := scanShare_of_stops ahead some'
          (show callback (({ batch with requests := batch.requests.tail } : Batch).delivered ++ seen) =
            false from stops)
        have last := respondCount_finishRequest cleared none 0
        rw [List.append_cons, respondCount_append, respondCount_append, last]
        omega
      · have goesOn : ∀ seen, seen <+: pairs → seen ≠ [] →
            callback (({ batch with requests := batch.requests.tail } : Batch).delivered ++ seen) = true := by
          intro seen ahead some'
          by_contra refused
          exact early ⟨seen, ahead, some', by simpa using refused⟩
        have behind : ∃ more, seen = pairs ++ more := by
          rcases List.prefix_or_prefix_of_prefix ahead (List.prefix_append pairs shares.flatten) with
            inside | ⟨more, whole⟩
          · exact absurd ⟨seen, inside, some', stops⟩ early
          · exact ⟨more, whole.symm⟩
        obtain ⟨more, rfl⟩ := behind
        have ahead' : more <+: shares.flatten := by simpa using ahead
        have more' : more ≠ [] := by
          rintro rfl
          exact early ⟨pairs, List.prefix_rfl, by simpa using some', by simpa using stops⟩
        have left : batch.requests.tail.length = shares.length := by
          rw [List.length_tail, counted, List.length_cons, Nat.add_sub_cancel]
        have tail := respondCount_of_stops
          (show (Batch.mk batch.id batch.requests.tail (batch.delivered ++ pairs)).requests.length =
            shares.length from left) ahead' more'
          (show callback ((batch.delivered ++ pairs) ++ more) = false by
            rwa [List.append_assoc])
        have nonempty : batch.requests.tail.isEmpty = false := by
          rw [List.isEmpty_eq_false_iff, ← List.length_pos_iff, left, List.length_pos_iff]
          rintro rfl
          exact more' (List.prefix_nil.mp ahead')
        rw [scanShare_of_goesOn goesOn]
        simp only [nonempty, Bool.false_eq_true, if_false]
        rw [List.append_cons, respondCount_append]
        omega

/-! ## The workers' threads -/

/-- The effects in a log. -/
def effectsIn (log : List Event) : List Effect :=
  log.filterMap fun
    | .effect effect => some effect
    | .executed .. => none

theorem effectsIn_append (log new : List Event) :
    effectsIn (log ++ new) = effectsIn log ++ effectsIn new :=
  List.filterMap_append

theorem effectsIn_executed (worker id : Nat) (req : Request) (effects : List Effect) :
    effectsIn (.executed worker id req :: effects.map .effect) = effects := by
  simp [effectsIn, List.filterMap_map]

/-- A scan's requests for the workers from `i` on. -/
def scanTags (minKey maxKey : Slice) (callback : ScanCallback) (i count : Nat) : List Request :=
  (List.range' i count).map fun tag => .scan minKey maxKey callback tag

/-- A worker's calls leave the rest of the batch as it is, or clear it. -/
theorem requests_scanShare {callback : ScanCallback} : ∀ (pairs : List (Slice × Slice)) (batch : Batch),
    (scanShare callback pairs batch).1.requests = batch.requests ∨
      (scanShare callback pairs batch).1.requests = []
  | [], _ => Or.inl rfl
  | pair :: rest, batch => by
      simp only [scanShare, Worker.deliver]
      split
      · exact requests_scanShare rest _
      · exact Or.inr (scanShare_cleared rest rfl)

/-- The calls submit nothing: a batch that is stopped has been cleared. -/
theorem perform_scanShare {n : Nat} {split : Slice → Nat → Nat} {callback : ScanCallback} :
    ∀ (pairs : List (Slice × Slice)) (batch : Batch) (db : Db n) (rest : List Effect),
      Db.perform split db ((scanShare callback pairs batch).2 ++ rest) = Db.perform split db rest
  | [], _, _, _ => rfl
  | pair :: pairs, batch, db, rest => by
      simp only [scanShare, Worker.deliver]
      split
      · simp only [List.cons_append, List.nil_append, Db.perform]
        exact perform_scanShare pairs _ db rest
      · simp only [List.cons_append, List.nil_append, Batch.finishRequest, List.isEmpty_nil, if_true,
          Db.perform]
        exact perform_scanShare pairs _ db rest

/-- A worker that waits for batches, with room in its round. -/
def Node.Waits (node : Node) : Prop :=
  node.batchQueue = [] ∧ ∃ cnt < maxEvent, node.phase = .popping cnt

/-- The pairs a worker's scan reads. -/
def Node.Reads (node : Node) (minKey maxKey : Slice) (pairs : List (Slice × Slice)) : Prop :=
  ∃ fs, Run.run scanReads node.worker.slab (Worker.scanRange node.worker.index minKey maxKey) =
    some (fs, pairs)

section Threads

variable {n : Nat} (split : Slice → Nat → Nat) (kernel : Kernel) {minKey maxKey : Slice}
  {callback : ScanCallback}

/-- The worker that has the batch of a scan takes it, makes its calls and finishes it. -/
theorem pop_scan {db : Db n} {i : Fin n} {batch : Batch} {cnt count : Nat} {fs : FileSlab}
    {pairs : List (Slice × Slice)} (queue : (db.nodes i).batchQueue = [batch])
    (phase : (db.nodes i).phase = .popping cnt) (room : cnt < maxEvent)
    (shape : batch.requests = scanTags minKey maxKey callback i (count + 1))
    (read : Run.run scanReads (db.nodes i).worker.slab
      (Worker.scanRange (db.nodes i).worker.index minKey maxKey) = some (fs, pairs)) :
    db.pop split i =
      let out := scanShare callback pairs { batch with requests := batch.requests.tail }
      (Db.perform split (db.set i ⟨{ (db.nodes i).worker with slab := fs }, [], .popping (cnt + 1)⟩)
        [out.1.finishRequest none 0]).map fun db =>
          (db, .executed i batch.id (.scan minKey maxKey callback i) ::
            (out.2 ++ [out.1.finishRequest none 0]).map .effect) := by
  have front : batch.requests = .scan minKey maxKey callback i ::
      scanTags minKey maxKey callback (i + 1) count := by
    rw [shape, scanTags, List.range'_succ, List.map_cons]
    rfl
  unfold Db.pop
  rw [queue, phase]
  simp only [front, List.tail_cons, room, if_true, processRequest_scan front read, perform_scanShare]

/-- A batch that is not cleared goes to the next worker. -/
theorem submit_scanTags {db : Db n} {batch : Batch} {i count : Nat} (inRange : i + 1 < n)
    (shape : batch.requests = scanTags minKey maxKey callback (i + 1) (count + 1)) :
    db.submit split batch = some (db.push ⟨i + 1, inRange⟩ batch) := by
  have front : batch.requests = .scan minKey maxKey callback (i + 1) ::
      scanTags minKey maxKey callback (i + 1 + 1) count := by
    rw [shape, scanTags, List.range'_succ, List.map_cons]
    rfl
  unfold Db.submit
  rw [front]
  simp only [route, inRange, dif_pos, scanCopies, List.append_nil]
  rw [← front]

/-- Worker `i` has the batch of a scan; the workers from `i` on will read the shares. -/
structure Visits (minKey maxKey : Slice) (callback : ScanCallback) (db : Db n) (i : Nat)
    (batch : Batch) (shares : List (List (Slice × Slice))) : Prop where
  ends : i + shares.length = n
  requests : batch.requests = scanTags minKey maxKey callback i shares.length
  holds : ∀ k : Fin n, (db.nodes k).batchQueue = if k.val = i then [batch] else []
  ready : ∀ k : Fin n, i ≤ k → ∃ cnt < maxEvent, (db.nodes k).phase = .popping cnt
  reads : ∀ (k : Fin n) (pairs : List (Slice × Slice)), i ≤ k → shares[k.val - i]? = some pairs →
    (db.nodes k).Reads minKey maxKey pairs

/-- The batch has moved to the next worker. -/
theorem Visits.moved {db : Db n} {batch last : Batch} {pairs : List (Slice × Slice)}
    {shares : List (List (Slice × Slice))} {here : Fin n} {node : Node}
    (visits : Visits minKey maxKey callback db here batch (pairs :: shares))
    (others : ∀ k : Fin n, k ≠ here → ((db.set here node).nodes k).batchQueue = [])
    (taken : node.batchQueue = []) (inRange : here + 1 < n)
    (left : last.requests = scanTags minKey maxKey callback (here + 1) shares.length) :
    Visits minKey maxKey callback ((db.set here node).push ⟨here + 1, inRange⟩ last) (here + 1) last
      shares := by
  let next : Fin n := ⟨here + 1, inRange⟩
  have kept : ∀ k : Fin n, here.val + 1 ≤ k → ∃ queue,
      ((db.set here node).push next last).nodes k = { db.nodes k with batchQueue := queue } := by
    intro k behind
    have differ : k ≠ here := by
      rintro rfl
      omega
    by_cases same : k = next
    · subst same
      exact ⟨_, by rw [Db.push, Db.set_same, Db.set_other _ _ differ]⟩
    · exact ⟨_, by rw [Db.push, Db.set_other _ _ same, Db.set_other _ _ differ]⟩
  refine ⟨?_, left, ?_, ?_, ?_⟩
  · have := visits.ends
    rw [List.length_cons] at this
    omega
  · intro k
    by_cases same : k = next
    · have differ : next ≠ here := by
        intro equal
        have := congrArg Fin.val equal
        simp [next] at this
      have empty := others next differ
      rw [same, if_pos rfl, Db.push, Db.set_same]
      exact congrArg (fun queue => queue ++ [last]) empty
    · rw [if_neg fun equal => same (Fin.ext equal), Db.push, Db.set_other _ _ same]
      by_cases own : k = here
      · rw [own, Db.set_same, taken]
      · exact others k own
  · intro k behind
    obtain ⟨queue, shape⟩ := kept k behind
    rw [shape]
    exact visits.ready k (by omega)
  · intro k share behind found
    obtain ⟨queue, shape⟩ := kept k behind
    rw [shape]
    refine visits.reads k share (by omega) ?_
    rw [show k.val - here.val = k.val - (here.val + 1) + 1 by omega, List.getElem?_cons_succ]
    exact found

/-- From the worker that has the batch on, the threads compute `scanShares`. -/
theorem Visits.run : ∀ {shares : List (List (Slice × Slice))} {i : Nat} {batch : Batch} {j : Journal n},
    shares ≠ [] → Visits minKey maxKey callback j.db i batch shares →
      ∃ acts j' outs, Run.run (Journal.next split kernel) j acts = some (j', outs) ∧
        effectsIn j'.log = effectsIn j.log ++ scanShares callback shares batch ∧
        ∀ k, (j'.db.nodes k).batchQueue = []
  | [], _, _, _, some', _ => absurd rfl some'
  | pairs :: shares, i, batch, j, _, visits => by
      have inRange : i < n := by
        have := visits.ends
        rw [List.length_cons] at this
        omega
      let here : Fin n := ⟨i, inRange⟩
      obtain ⟨cnt, room, phase⟩ := visits.ready here le_rfl
      have queue : (j.db.nodes here).batchQueue = [batch] := by
        rw [visits.holds, if_pos rfl]
      obtain ⟨fs, read⟩ := visits.reads here pairs le_rfl (by simp [here])
      have popped := pop_scan split queue phase room visits.requests read
      let node : Node := ⟨{ (j.db.nodes here).worker with slab := fs }, [], .popping (cnt + 1)⟩
      have others : ∀ k : Fin n, k ≠ here → ((j.db.set here node).nodes k).batchQueue = [] := by
        intro k differ
        rw [Db.set_other _ _ differ, visits.holds, if_neg fun same => differ (Fin.ext same)]
      have kept := @requests_scanShare callback pairs { batch with requests := batch.requests.tail }
      have later : batch.requests.tail = scanTags minKey maxKey callback (i + 1) shares.length := by
        rw [visits.requests, scanTags, List.length_cons, List.range'_succ, List.map_cons]
        rfl
      simp only [scanShares]
      generalize scanShare callback pairs { batch with requests := batch.requests.tail } = out
        at popped kept ⊢
      obtain ⟨last, early⟩ := out
      simp only at popped kept ⊢
      by_cases cleared : last.requests = []
      · -- the last worker, or the scan has been stopped: the batch is answered
        simp only [Batch.finishRequest, cleared, List.isEmpty_nil, if_true, Db.perform,
          Option.map_some] at popped ⊢
        refine ⟨[.pop here], _, [()], Run.run_cons_eq_some.mpr
          ⟨_, (), [], by rw [Journal.next, popped]; rfl, rfl, rfl⟩, ?_, ?_⟩
        · simp only [Journal.record, effectsIn_append, effectsIn_executed]
        · intro k
          by_cases same : k = here
          · rw [same]
            simp [Journal.record]
          · exact others k same
      · have left : last.requests = scanTags minKey maxKey callback (i + 1) shares.length := by
          rcases kept with same | none'
          · exact same.trans later
          · exact absurd none' cleared
        obtain ⟨next, rest, rfl⟩ : ∃ next rest, shares = next :: rest := by
          cases shares with
          | nil => exact absurd left cleared
          | cons next rest => exact ⟨next, rest, rfl⟩
        have inRange' : i + 1 < n := by
          have := visits.ends
          simp only [List.length_cons] at this
          omega
        have more : last.requests.isEmpty = false := List.isEmpty_eq_false_iff.mpr cleared
        simp only [Batch.finishRequest, more, Bool.false_eq_true, if_false, Db.perform,
          submit_scanTags split inRange' left, Option.bind_some, Option.map_some] at popped ⊢
        let j₁ : Journal n := j.record ((j.db.set here node).push ⟨i + 1, inRange'⟩ last,
          .executed i batch.id (.scan minKey maxKey callback i) ::
            (early ++ [Effect.submit last]).map .effect)
        have moved := visits.moved others rfl inRange' left
        obtain ⟨acts, j', outs, ran, effects, empty⟩ :=
          Visits.run (show next :: rest ≠ [] by simp)
            (show Visits minKey maxKey callback j₁.db (i + 1) last (next :: rest) from moved)
        refine ⟨.pop here :: acts, j', () :: outs, Run.run_cons_eq_some.mpr
          ⟨j₁, (), outs, by rw [Journal.next, popped]; rfl, ran, rfl⟩, ?_, empty⟩
        rw [effects]
        simp only [j₁, Journal.record, effectsIn_append, effectsIn_executed, List.append_assoc,
          List.cons_append, List.nil_append]

theorem requests_submitted (some' : 0 < n) :
    Request.scan minKey maxKey callback 0 :: scanCopies n (.scan minKey maxKey callback 0) =
      scanTags minKey maxKey callback 0 n := by
  obtain ⟨m, rfl⟩ := Nat.exists_eq_add_of_lt some'
  rw [scanTags, Nat.zero_add, List.range'_succ, List.map_cons, List.range'_eq_map_range, List.map_map]
  simp [scanCopies, Function.comp_def, Nat.add_comm]

/-- **The threads compute `scanShares`.**  With no other batch in the system, a scan that
is submitted visits the workers and has these effects. -/
theorem scanShares_of_run {j : Journal n} {shares : List (List (Slice × Slice))} (some' : shares ≠ [])
    (counted : shares.length = n) (waits : ∀ k, (j.db.nodes k).Waits)
    (reads : ∀ (k : Fin n) (pairs : List (Slice × Slice)), shares[k.val]? = some pairs →
      (j.db.nodes k).Reads minKey maxKey pairs) :
    ∃ acts j' outs,
      Run.run (Journal.next split kernel) j (.submit [.scan minKey maxKey callback 0] :: acts) =
        some (j', outs) ∧
      effectsIn j'.log = effectsIn j.log ++ scanShares callback shares
        ⟨j.submitted.length,
          .scan minKey maxKey callback 0 :: scanCopies n (.scan minKey maxKey callback 0), []⟩ ∧
      ∀ k, (j'.db.nodes k).batchQueue = [] := by
  have inRange : 0 < n := counted ▸ List.length_pos_iff.mpr some'
  let batch : Batch := ⟨j.submitted.length,
    .scan minKey maxKey callback 0 :: scanCopies n (.scan minKey maxKey callback 0), []⟩
  let j₁ : Journal n :=
    { j with
      db := j.db.push ⟨0, inRange⟩ batch
      submitted := j.submitted ++ [[.scan minKey maxKey callback 0]] }
  have taken : j.next split kernel (.submit [.scan minKey maxKey callback 0]) = some (j₁, ()) := by
    have routed : route split n (.scan minKey maxKey callback 0) < n := inRange
    simp only [Journal.next, Db.submit]
    rw [dif_pos routed]
    rfl
  have kept : ∀ k : Fin n, ∃ queue, j₁.db.nodes k = { j.db.nodes k with batchQueue := queue } ∧
      queue = if k.val = 0 then [batch] else [] := by
    intro k
    by_cases same : k = ⟨0, inRange⟩
    · subst same
      refine ⟨_, by simp only [j₁, Db.push, Db.set_same]; rfl, ?_⟩
      simp [(waits ⟨0, inRange⟩).1]
    · have differ : k.val ≠ 0 := fun zero => same (Fin.ext zero)
      exact ⟨(j.db.nodes k).batchQueue, by simp only [j₁, Db.push, Db.set_other _ _ same],
        by rw [(waits k).1, if_neg differ]⟩
  have visits : Visits minKey maxKey callback j₁.db 0 batch shares := by
    refine ⟨by omega, ?_, ?_, ?_, ?_⟩
    · rw [counted]
      exact requests_submitted inRange
    · intro k
      obtain ⟨queue, shape, held⟩ := kept k
      rw [shape]
      exact held
    · intro k _
      obtain ⟨queue, shape, -⟩ := kept k
      rw [shape]
      exact (waits k).2
    · intro k pairs _ found
      obtain ⟨queue, shape, -⟩ := kept k
      rw [shape]
      exact reads k pairs found
  obtain ⟨acts, j', outs, ran, effects, empty⟩ := visits.run split kernel some'
  exact ⟨acts, j', () :: outs, Run.run_cons_eq_some.mpr ⟨j₁, (), outs, taken, ran, rfl⟩, effects, empty⟩

end Threads

/-! ## The batch's name -/

/-- An effect of a batch of another name. -/
def Effect.rename (id : Nat) : Effect → Effect
  | .respond _ data res => .respond id data res
  | .submit batch => .submit { batch with id := id }
  | .scanned _ key value answer => .scanned id key value answer

theorem finishRequest_rename (batch : Batch) (id : Nat) (data : Option Slice) (res : Int) :
    Batch.finishRequest { batch with id := id } data res = (batch.finishRequest data res).rename id := by
  unfold Batch.finishRequest
  simp only
  split <;> rfl

theorem scanShare_rename (callback : ScanCallback) (id : Nat) :
    ∀ (pairs : List (Slice × Slice)) (batch : Batch),
      scanShare callback pairs { batch with id := id } =
        ({ (scanShare callback pairs batch).1 with id := id },
          (scanShare callback pairs batch).2.map (Effect.rename id))
  | [], _ => rfl
  | pair :: pairs, batch => by
      have called : Worker.deliver callback { batch with id := id } pair =
          ({ (Worker.deliver callback batch pair).1 with id := id },
            (Worker.deliver callback batch pair).2.map (Effect.rename id)) := by
        simp only [Worker.deliver]
        split
        · rfl
        · rfl
      simp only [scanShare, called, scanShare_rename callback id pairs, List.map_append]

theorem scanShares_rename (callback : ScanCallback) (id : Nat) :
    ∀ (shares : List (List (Slice × Slice))) (batch : Batch),
      scanShares callback shares { batch with id := id } =
        (scanShares callback shares batch).map (Effect.rename id)
  | [], _ => rfl
  | pairs :: shares, batch => by
      have here := scanShare_rename callback id pairs { batch with requests := batch.requests.tail }
      simp only [scanShares, here, finishRequest_rename, List.map_append, List.map_cons]
      split
      · rfl
      · rw [scanShares_rename callback id shares]

end KTableFS.Kvengine
