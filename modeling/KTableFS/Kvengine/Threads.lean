/-
# Kvengine.Threads -- what one thread keeps, every run keeps

A worker is touched by its own thread only: by the request it takes off its queue, by
the I/O of its round, and by the completions of that I/O.  A request reaches the queue
of the worker it is routed to, and it is one that a client has submitted, or a copy
that `DB::Submit` made of a scan.

`Threadwise` collects what has to be shown of a property of a worker and the
completions its thread still owes; `Threadwise.of_run` concludes that the property holds
of every worker in every state of every run.
-/
import KTableFS.Kvengine.Custody

namespace KTableFS.Kvengine

open KTableFS.Theory

set_option autoImplicit false

/-- The completions of the round's I/O that are still to be finished. -/
def Phase.owed : Phase → List Aio
  | .popping _ => []
  | .finishing left _ => left

/-! ## What happens to the rest of a batch -/

/-- A scan callback that answers `false` clears the batch; nothing adds to it. -/
theorem scanLoop_requests {callback : ScanCallback} : ∀ {entries : List (Slice × SlabT)}
    {fs fs' : FileSlab} {batch last : Batch} {effects : List Effect},
    Worker.scanLoop callback entries fs batch = some (fs', last, effects) →
      (∀ req ∈ last.requests, req ∈ batch.requests) ∧
        ∀ b, .submit b ∈ effects → ∀ req ∈ b.requests, req ∈ batch.requests
  | [], _, _, _, _, _, scanned => by
      cases scanned
      simp
  | entry :: rest, fs, fs', batch, last, effects, scanned => by
      unfold Worker.scanLoop at scanned
      split at scanned
      · cases scanned
      · next pair fs₁ read =>
          simp only [Option.map_eq_some_iff] at scanned
          obtain ⟨⟨fs₂, last', later⟩, scanned, same⟩ := scanned
          cases same
          obtain ⟨left, calls⟩ := scanLoop_requests scanned
          have called : (∀ req ∈ (Worker.deliver callback batch pair).1.requests,
              req ∈ batch.requests) ∧
              ∀ b, .submit b ∉ (Worker.deliver callback batch pair).2 := by
            simp only [Worker.deliver]
            split
            · exact ⟨fun req member => member, by simp⟩
            · exact ⟨by simp, by simp [Batch.finishRequest]⟩
          refine ⟨fun req member => called.1 req (left req member), fun b member => ?_⟩
          rcases List.mem_append.mp member with here | there
          · exact absurd here (called.2 b)
          · exact fun req inB => called.1 req (calls b there req inB)

/-- The file operations hand on the I/O they were given. -/
theorem LocalFileSet.write_batch {fs fs' : LocalFileSet} {file off : Nat} {data : Slice} {aio a : Aio}
    (queued : fs.write file data off aio = some (a, fs')) : a.batch = aio.batch := by
  obtain ⟨-, hit, c, -, rfl, -⟩ := LocalFileSet.write_eq_some queued
  rfl

theorem LocalFileSet.read_batch {fs fs' : LocalFileSet} {file size off : Nat} {aio a : Aio}
    (queued : fs.read file size off aio = some (a, fs')) : a.batch = aio.batch := by
  obtain ⟨-, hit, c, c', -, -, ⟨ent, -, -, rfl⟩ | ⟨ent, -, -, rfl⟩⟩ := LocalFileSet.read_eq_some queued
  · rfl
  · rfl

/-- A handled request goes to the queue with the rest of its batch, or the rest is
submitted again. -/
theorem Handled.rest {w w' : Worker} {batch : Batch} {req : Request} {effects : List Effect}
    (handled : Handled w batch req w' effects) :
    (∀ a ∈ w'.ioQueue, a ∈ w.ioQueue ∨ a.batch = batch) ∧
      ∀ b, .submit b ∈ effects → ∀ req ∈ b.requests, req ∈ batch.requests := by
  have finished : ∀ (last b : Batch) (data : Option Slice) (res : Int),
      .submit b = last.finishRequest data res → b = last := by
    intro last b data res same
    unfold Batch.finishRequest at same
    split at same
    · cases same
    · cases same
      rfl
  have queued : ∀ {fs : FileSlab} {a : Aio}, a.batch = batch →
      ∀ b ∈ (w.queue fs a).ioQueue, b ∈ w.ioQueue ∨ b.batch = batch := by
    intro fs a same b member
    rcases List.mem_append.mp member with old | new
    · exact Or.inl old
    · rw [List.mem_singleton.mp new]
      exact Or.inr same
  cases handled with
  | @refused req res reason =>
      refine ⟨fun a member => Or.inl member, fun b member req inB => ?_⟩
      rw [finished batch b none res (List.mem_singleton.mp member)] at inB
      exact inB
  | get found read => exact ⟨queued (LocalFileSet.read_batch read), by simp⟩
  | put absent created wrote => exact ⟨queued (LocalFileSet.write_batch wrote), by simp⟩
  | update found wrote => exact ⟨queued (LocalFileSet.write_batch wrote), by simp⟩
  | delete found freed wrote => exact ⟨queued (LocalFileSet.write_batch wrote), by simp⟩
  | @scan minKey maxKey callback tag fs last effects scanned =>
      obtain ⟨left, calls⟩ := scanLoop_requests scanned
      refine ⟨fun a member => Or.inl member, fun b member req inB => ?_⟩
      rcases List.mem_append.mp member with call | final
      · exact calls b call req inB
      · rw [finished last b none 0 (List.mem_singleton.mp final)] at inB
        exact left req inB

/-! ## The rule -/

section Rule

variable {n : Nat}

/-- A client submits allowed requests only. -/
def Act.Submits (Allowed : Request → Prop) : Act n → Prop
  | .submit requests => ∀ req ∈ requests, Allowed req
  | _ => True

/-- What the thread of a worker keeps of it, and of the completions it owes.  Its requests
are routed to it and of an allowed kind; the verdict of a completion is the kernel's. -/
structure Threadwise (split : Slice → Nat → Nat) (Allowed : Request → Prop)
    (Inv : Fin n → Worker → List Aio → Prop) : Prop where
  copies : ∀ req, Allowed req → ∀ copy ∈ scanCopies n req, Allowed copy
  request : ∀ {i : Fin n} {w w' : Worker} {batch : Batch} {req : Request} {rest : List Request}
    {effects : List Effect}, batch.requests = req :: rest → route split n req = i → Allowed req →
      Inv i w [] → w.processRequest batch = some (w', effects) → Inv i w' []
  io : ∀ {i : Fin n} {w : Worker} (kernel : Kernel), Inv i w [] →
    Inv i (w.performIo kernel).1 w.ioQueue
  completion : ∀ {i : Fin n} {w : Worker} {a : Aio} {left : List Aio} (event : Option Int),
    Inv i w (a :: left) → Inv i (w.finish { a with event := event }).1 left

/-- Every thread keeps to the property, and every batch under way to the allowed
requests, its next one waiting where it is routed to. -/
structure Db.Keeping (split : Slice → Nat → Nat) (Allowed : Request → Prop)
    (Inv : Fin n → Worker → List Aio → Prop) (db : Db n) : Prop where
  inv : ∀ i, Inv i (db.nodes i).worker (db.nodes i).phase.owed
  routed : ∀ i, ∀ batch ∈ (db.nodes i).batchQueue, ∃ req rest, batch.requests = req :: rest ∧
    route split n req = i
  queued : ∀ i, ∀ batch ∈ (db.nodes i).batchQueue, ∀ req ∈ batch.requests, Allowed req
  flying : ∀ i, ∀ a ∈ (db.nodes i).worker.ioQueue ++ (db.nodes i).phase.owed,
    ∀ req ∈ a.batch.requests, Allowed req

variable {split : Slice → Nat → Nat} {Allowed : Request → Prop}
  {Inv : Fin n → Worker → List Aio → Prop}

/-- A step of one thread. -/
theorem Db.Keeping.set {db : Db n} (keeping : db.Keeping split Allowed Inv) {i : Fin n} {node : Node}
    (inv : Inv i node.worker node.phase.owed)
    (queue : ∀ batch ∈ node.batchQueue, batch ∈ (db.nodes i).batchQueue)
    (flying : ∀ a ∈ node.worker.ioQueue ++ node.phase.owed, ∀ req ∈ a.batch.requests, Allowed req) :
    (db.set i node).Keeping split Allowed Inv := by
  have each : ∀ {P : Fin n → Node → Prop}, P i node → (∀ j, P j (db.nodes j)) →
      ∀ j, P j ((db.set i node).nodes j) := by
    intro P here others j
    by_cases same : j = i
    · subst same
      rw [Db.set_same]
      exact here
    · rw [Db.set_other _ _ same]
      exact others j
  constructor
  · exact @each (fun j node => Inv j node.worker node.phase.owed) inv keeping.inv
  · exact @each (fun j node => ∀ batch ∈ node.batchQueue, ∃ req rest,
      batch.requests = req :: rest ∧ route split n req = j)
      (fun batch member => keeping.routed i batch (queue batch member)) keeping.routed
  · exact @each (fun _ node => ∀ batch ∈ node.batchQueue, ∀ req ∈ batch.requests, Allowed req)
      (fun batch member => keeping.queued i batch (queue batch member)) keeping.queued
  · exact @each (fun _ node => ∀ a ∈ node.worker.ioQueue ++ node.phase.owed,
      ∀ req ∈ a.batch.requests, Allowed req) flying keeping.flying

/-- `DB::Submit` queues the batch where its first request is routed to. -/
theorem Db.Keeping.submit {db db' : Db n} (keeping : db.Keeping split Allowed Inv)
    (copies : ∀ req, Allowed req → ∀ copy ∈ scanCopies n req, Allowed copy) {batch : Batch}
    (allowed : ∀ req ∈ batch.requests, Allowed req) (submitted : db.submit split batch = some db') :
    db'.Keeping split Allowed Inv := by
  unfold Db.submit at submitted
  split at submitted
  · cases submitted
  · next req rest shape =>
      split at submitted
      · next inRange =>
          cases submitted
          have expanded : ∀ r ∈ batch.requests ++ scanCopies n req, Allowed r := by
            intro r member
            rcases List.mem_append.mp member with old | copy
            · exact allowed r old
            · exact copies req (allowed req (shape ▸ List.mem_cons_self ..)) r copy
          have nodes : ∀ j, (db.push ⟨route split n req, inRange⟩
              { batch with requests := batch.requests ++ scanCopies n req }).nodes j =
              { db.nodes j with batchQueue := (db.nodes j).batchQueue ++
                if j = ⟨route split n req, inRange⟩ then
                  [{ batch with requests := batch.requests ++ scanCopies n req }] else [] } := by
            intro j
            by_cases same : j = ⟨route split n req, inRange⟩
            · subst same
              rw [if_pos rfl]
              exact Db.set_same ..
            · rw [if_neg same, List.append_nil]
              exact Db.set_other _ _ same
          constructor
          · intro j
            rw [nodes]
            exact keeping.inv j
          · intro j b member
            rw [nodes] at member
            rcases List.mem_append.mp member with old | new
            · exact keeping.routed j b old
            · split at new
              · next same =>
                  rw [List.mem_singleton.mp new]
                  exact ⟨req, rest ++ scanCopies n req, by simp [shape], congrArg Fin.val same.symm⟩
              · cases new
          · intro j b member
            rw [nodes] at member
            rcases List.mem_append.mp member with old | new
            · exact keeping.queued j b old
            · split at new
              · rw [List.mem_singleton.mp new]
                exact expanded
              · cases new
          · intro j
            rw [nodes]
            exact keeping.flying j
      · cases submitted

theorem Db.Keeping.perform (copies : ∀ req, Allowed req → ∀ copy ∈ scanCopies n req, Allowed copy) :
    ∀ {effects : List Effect} {db db' : Db n}, db.Keeping split Allowed Inv →
      (∀ b, .submit b ∈ effects → ∀ req ∈ b.requests, Allowed req) →
      Db.perform split db effects = some db' → db'.Keeping split Allowed Inv
  | [], _, _, keeping, _, performed => by
      cases performed
      exact keeping
  | .submit batch :: rest, db, db', keeping, allowed, performed => by
      obtain ⟨mid, submitted, later⟩ := Option.bind_eq_some_iff.mp performed
      exact Db.Keeping.perform copies
        (keeping.submit copies (allowed batch (List.mem_cons_self ..)) submitted)
        (fun b member => allowed b (List.mem_cons_of_mem _ member)) later
  | .respond .. :: rest, db, db', keeping, allowed, performed =>
      Db.Keeping.perform copies keeping (fun b member => allowed b (List.mem_cons_of_mem _ member))
        performed
  | .scanned .. :: rest, db, db', keeping, allowed, performed =>
      Db.Keeping.perform copies keeping (fun b member => allowed b (List.mem_cons_of_mem _ member))
        performed

/-- The step: a client or a thread. -/
theorem Threadwise.next (rule : Threadwise split Allowed Inv) {kernel : Kernel} {j j' : Journal n}
    {act : Act n} {u : Unit} (keeping : j.db.Keeping split Allowed Inv)
    (allowed : act.Submits Allowed)
    (taken : j.next split kernel act = some (j', u)) : j'.db.Keeping split Allowed Inv := by
  cases act with
  | submit requests =>
      obtain ⟨db, submitted, same⟩ := Option.map_eq_some_iff.mp taken
      cases same
      exact @Db.Keeping.submit n split Allowed Inv _ _ keeping rule.copies
        ⟨j.submitted.length, requests, []⟩ allowed submitted
  | pop i =>
      obtain ⟨out, popped, same⟩ := Option.map_eq_some_iff.mp taken
      cases same
      obtain ⟨cnt, batch, tail, req, rest, w, effects, db', phase, queue, shape, -, processed,
        performed, rfl⟩ := Db.pop_eq_some popped
      have member : batch ∈ (j.db.nodes i).batchQueue := queue ▸ List.mem_cons_self ..
      obtain ⟨req', rest', shape', routed⟩ := keeping.routed i batch member
      obtain ⟨rfl, rfl⟩ := List.cons.inj (shape.symm.trans shape')
      have inBatch : ∀ r ∈ rest, Allowed r := fun r inRest =>
        keeping.queued i batch member r (shape ▸ List.mem_cons_of_mem _ inRest)
      obtain ⟨grown, submits⟩ := (Worker.processRequest_handled shape processed).rest
      have inv := keeping.inv i
      rw [phase] at inv
      refine Db.Keeping.perform rule.copies (keeping.set
        (rule.request shape routed
          (keeping.queued i batch member req (shape ▸ List.mem_cons_self ..)) inv processed)
        (fun b inTail => queue ▸ List.mem_cons_of_mem _ inTail) fun a inQueue => ?_)
        (fun b inEffects r inB => inBatch r (submits b inEffects r inB)) performed
      rw [Phase.owed, List.append_nil] at inQueue
      rcases grown a inQueue with old | new
      · exact keeping.flying i a (List.mem_append_left _ old)
      · rw [new]
        exact inBatch
  | flush i =>
      obtain ⟨out, flushed, same⟩ := Option.map_eq_some_iff.mp taken
      cases same
      obtain ⟨cnt, phase, rfl⟩ := Db.flush_eq_some flushed
      have inv := keeping.inv i
      rw [phase] at inv
      exact keeping.set (rule.io kernel inv) (fun b inQueue => inQueue)
        fun a inQueue => keeping.flying i a (List.mem_append_left _ inQueue)
  | finish i =>
      obtain ⟨out, finished, same⟩ := Option.map_eq_some_iff.mp taken
      cases same
      have inv := keeping.inv i
      have flying := keeping.flying i
      rcases Db.finish_eq_some finished with ⟨events, phase, rfl⟩ |
        ⟨aio, rest, events, aio', events', db', phase, rfl, performed, rfl⟩
      · rw [phase] at inv flying
        exact keeping.set inv (fun b inQueue => inQueue) flying
      · rw [phase] at inv flying
        have given : ∃ event, (if aio.submit then { aio with event := events.head?.map IoEvent.res }
            else aio) = { aio with event := event } := by
          split
          · exact ⟨_, rfl⟩
          · exact ⟨aio.event, rfl⟩
        obtain ⟨event, given⟩ := given
        rw [given] at performed
        obtain ⟨sameQueue, data, hands⟩ :=
          finish_hands (j.db.nodes i).worker { aio with event := event }
        have kept : (j.db.set i ⟨((j.db.nodes i).worker.finish { aio with event := event }).1,
            (j.db.nodes i).batchQueue, .finishing rest events'⟩).Keeping split Allowed Inv := by
          refine keeping.set (rule.completion event inv) (fun b inQueue => inQueue) fun a inQueue => ?_
          rw [sameQueue] at inQueue
          refine flying a ?_
          rcases List.mem_append.mp inQueue with old | left
          · exact List.mem_append_left _ old
          · exact List.mem_append_right _ (List.mem_cons_of_mem _ left)
        refine Db.Keeping.perform rule.copies kept ?_ performed
        intro b inEffects
        rw [hands, List.mem_singleton] at inEffects
        unfold Batch.finishRequest at inEffects
        split at inEffects
        · cases inEffects
        · cases inEffects
          exact flying aio (List.mem_append_right _ (List.mem_cons_self ..))

/-- A run of allowed requests, from any database that keeps to the property. -/
theorem Threadwise.along (rule : Threadwise split Allowed Inv) {kernel : Kernel} {j j' : Journal n}
    {acts : List (Act n)} {outs : List Unit} (keeping : j.db.Keeping split Allowed Inv)
    (allowed : ∀ act ∈ acts, act.Submits Allowed)
    (ran : Run.run (Journal.next split kernel) j acts = some (j', outs)) :
    j'.db.Keeping split Allowed Inv :=
  @Run.invariant _ _ _ _ (fun j => j.db.Keeping split Allowed Inv) (fun _ act => act.Submits Allowed)
    (fun _ _ _ _ kept ok taken => rule.next kept ok taken) _ _ _ _ keeping
    (Run.Along.of_forall allowed) ran

/-- **What every thread keeps holds of every worker, in every state of every run.** -/
theorem Threadwise.of_run (rule : Threadwise split Allowed Inv) {kernel : Kernel} {workDir : String}
    {pages : Nat} {junk : Memory} (start : ∀ i, Inv i (.new i workDir pages junk) [])
    {acts : List (Act n)} {j : Journal n} {outs : List Unit}
    (allowed : ∀ act ∈ acts, act.Submits Allowed)
    (ran : Run.run (Journal.next split kernel) (.new n workDir pages junk) acts = some (j, outs)) :
    j.db.Keeping split Allowed Inv :=
  rule.along ⟨start, fun _ _ member => (List.not_mem_nil member).elim,
    fun _ _ member => (List.not_mem_nil member).elim,
    fun _ _ member => (List.not_mem_nil member).elim⟩ allowed ran

end Rule

end KTableFS.Kvengine
