/-
# Kvengine.Alternation -- acknowledged PUTs and DELETEs of a key alternate

A session's log gives every request with its answer.  `acks key` is the sequence
of acknowledged PUTs (`true`) and DELETEs (`false`) of one key in the order they
were processed, and `lastValue key` the value of the last acknowledged PUT or
UPDATE of it.

The presence test of a request reads the index, the acknowledgement comes when the
round settles; two requests of one kind on one key in one round can pass the test
both.  `AckSafe` is the condition that they do not.  Under it the ghost contents of
`Sound` are exactly what the log says (`Tally`), and the answers the round gives
are the ones decided when the requests were processed (`Ledger`).
-/
import KTableFS.Kvengine.Ownership
import Mathlib.Data.List.Chain

namespace KTableFS.Kvengine

open KTableFS.Theory

set_option autoImplicit false

/-! ## Reading a log -/

/-- The requests that change a key when they are answered 0. -/
def Request.writes : Request → Bool
  | .put .. | .update .. | .delete _ => true
  | _ => false

/-- A PUT, UPDATE or DELETE that was answered 0. -/
def acknowledged (entry : Request × Option (Option Slice × Int)) : Bool :=
  entry.1.writes && entry.2.any fun answer => answer.2 == 0

/-- Every request of a session, with whether it was acknowledged. -/
def Session.marks (s : Session) : List (Request × Bool) :=
  s.log.map fun entry => (entry.1, acknowledged entry)

/-- What an acknowledged request says about the presence of `key`. -/
def ackOf (key : Slice) : Request × Bool → Option Bool
  | (.put k _, true) => if k = key then some true else none
  | (.delete k, true) => if k = key then some false else none
  | _ => none

/-- What an acknowledged request says about the value of `key`. -/
def valueOf (key : Slice) : Request × Bool → Option Slice
  | (.put k value, true) => if k = key then some value else none
  | (.update k value, true) => if k = key then some value else none
  | _ => none

/-- The acknowledged PUTs and DELETEs of `key`, in order. -/
def acks (key : Slice) (marks : List (Request × Bool)) : List Bool := marks.filterMap (ackOf key)

/-- The value of the last acknowledged PUT or UPDATE of `key`. -/
def lastValue (key : Slice) (marks : List (Request × Bool)) : Option Slice :=
  (marks.filterMap (valueOf key)).getLast?

/-- PUT, DELETE, PUT, ... -/
def Alternating (list : List Bool) : Prop := (false :: list).IsChain (· ≠ ·)

theorem Alternating.append {list : List Bool} (alternating : Alternating list) (ack : Bool)
    (turn : list.getLast? = some true ↔ ack = false) : Alternating (list ++ [ack]) := by
  unfold Alternating at *
  rw [← List.cons_append]
  refine List.IsChain.append alternating (List.isChain_singleton _) ?_
  intro last isLast next isNext
  simp only [List.head?_cons, Option.mem_def, Option.some.injEq] at isNext
  subst isNext
  rw [List.getLast?_cons] at isLast
  cases ack with
  | false =>
      rw [turn.mpr rfl] at isLast
      simp_all
  | true =>
      have notTrue : list.getLast? ≠ some true := fun isTrue => by simpa using turn.mp isTrue
      cases final : list.getLast? with
      | none => simp_all
      | some b => cases b <;> simp_all

/-! ## The log and the contents -/

/-- The contents are what the acknowledgements say. -/
structure Tally (m : Contents) (marks : List (Request × Bool)) : Prop where
  alternating : ∀ key, Alternating (acks key marks)
  present : ∀ key, (m key).isSome ↔ (acks key marks).getLast? = some true
  value : ∀ key value, m key = some value → lastValue key marks = some value

theorem Tally.empty : Tally (fun _ => none) [] :=
  ⟨fun _ => List.isChain_singleton _, fun _ => by simp [acks], fun _ _ found => by cases found⟩

theorem acks_append (key : Slice) (marks : List (Request × Bool)) (mark : Request × Bool) :
    acks key (marks ++ [mark]) = acks key marks ++ (ackOf key mark).toList := by
  cases shape : ackOf key mark <;> simp [acks, shape]

theorem lastValue_append (key : Slice) (marks : List (Request × Bool)) (mark : Request × Bool) :
    lastValue key (marks ++ [mark]) = (valueOf key mark).or (lastValue key marks) := by
  cases shape : valueOf key mark <;> simp [lastValue, shape]

/-- A request that is not acknowledged changes nothing. -/
theorem Tally.refused {m : Contents} {marks : List (Request × Bool)} (tally : Tally m marks)
    (req : Request) : Tally m (marks ++ [(req, false)]) := by
  have noAck : ∀ key, ackOf key (req, false) = none := fun key => by cases req <;> rfl
  have noValue : ∀ key, valueOf key (req, false) = none := fun key => by cases req <;> rfl
  refine ⟨fun key => ?_, fun key => ?_, fun key value found => ?_⟩
  · rw [acks_append, noAck]
    simpa using tally.alternating key
  · rw [acks_append, noAck]
    simpa using tally.present key
  · rw [lastValue_append, noValue]
    exact tally.value key value found

theorem Tally.put {m : Contents} {marks : List (Request × Bool)} (tally : Tally m marks)
    {key : Slice} (absent : m key = none) (value : Slice) :
    Tally (Function.update m key (some value)) (marks ++ [(.put key value, true)]) := by
  refine ⟨fun other => ?_, fun other => ?_, fun other old found => ?_⟩
  · rw [acks_append]
    by_cases same : key = other
    · subst same
      have notTrue : (acks key marks).getLast? ≠ some true := fun isTrue => by
        simpa [absent] using (tally.present key).mpr isTrue
      simpa [ackOf] using (tally.alternating key).append true (by simpa using notTrue)
    · simpa [ackOf, same] using tally.alternating other
  · rw [acks_append]
    by_cases same : key = other
    · subst same
      simp [ackOf]
    · simpa [ackOf, same, Function.update_of_ne (Ne.symm same)] using tally.present other
  · rw [lastValue_append]
    by_cases same : key = other
    · subst same
      simpa [valueOf] using found
    · rw [Function.update_of_ne (Ne.symm same)] at found
      simpa [valueOf, same] using tally.value other old found

theorem Tally.update {m : Contents} {marks : List (Request × Bool)} (tally : Tally m marks)
    {key : Slice} (present : (m key).isSome) (value : Slice) :
    Tally (Function.update m key (some value)) (marks ++ [(.update key value, true)]) := by
  refine ⟨fun other => ?_, fun other => ?_, fun other old found => ?_⟩
  · rw [acks_append]
    simpa [ackOf] using tally.alternating other
  · rw [acks_append]
    by_cases same : key = other
    · subst same
      simpa [ackOf] using (tally.present key).mp present
    · simpa [ackOf, Function.update_of_ne (Ne.symm same)] using tally.present other
  · rw [lastValue_append]
    by_cases same : key = other
    · subst same
      simpa [valueOf] using found
    · rw [Function.update_of_ne (Ne.symm same)] at found
      simpa [valueOf, same] using tally.value other old found

/-- An UPDATE of a key on its way out is acknowledged and lost. -/
theorem Tally.lost {m : Contents} {marks : List (Request × Bool)} (tally : Tally m marks)
    {key : Slice} (absent : m key = none) (value : Slice) :
    Tally m (marks ++ [(.update key value, true)]) := by
  refine ⟨fun other => ?_, fun other => ?_, fun other old found => ?_⟩
  · rw [acks_append]
    simpa [ackOf] using tally.alternating other
  · rw [acks_append]
    simpa [ackOf] using tally.present other
  · rw [lastValue_append]
    have differ : key ≠ other := by
      rintro rfl
      rw [absent] at found
      cases found
    simpa [valueOf, differ] using tally.value other old found

theorem Tally.delete {m : Contents} {marks : List (Request × Bool)} (tally : Tally m marks)
    {key : Slice} (present : (m key).isSome) :
    Tally (Function.update m key none) (marks ++ [(.delete key, true)]) := by
  refine ⟨fun other => ?_, fun other => ?_, fun other old found => ?_⟩
  · rw [acks_append]
    by_cases same : key = other
    · subst same
      simpa [ackOf] using (tally.alternating key).append false
        (by simpa using (tally.present key).mp present)
    · simpa [ackOf, same] using tally.alternating other
  · rw [acks_append]
    by_cases same : key = other
    · subst same
      simp [ackOf]
    · simpa [ackOf, same, Function.update_of_ne (Ne.symm same)] using tally.present other
  · rw [lastValue_append]
    by_cases same : key = other
    · subst same
      simp at found
    · rw [Function.update_of_ne (Ne.symm same)] at found
      simpa [valueOf] using tally.value other old found

/-! ## The answers of a round are decided when its requests are processed -/

structure Ledger (t : Taking) (marks : List (Request × Bool)) : Prop where
  requests : marks.map Prod.fst = t.seen
  refused : ∀ effect ∈ t.effects, ∃ i res req, effect = .respond i none res ∧ res ≠ 0 ∧
    marks[i]? = some (req, false)
  queued : ∀ a ∈ t.worker.ioQueue, a.batch.requests = [] ∧
    ((∃ key, marks[a.batch.id]? = some (.get key, false)) ∨
      a.IsWrite ∧ ∃ req, marks[a.batch.id]? = some (req, true))
  writes : ∀ i req, marks[i]? = some (req, true) →
    req.writes = true ∧ ∃ a ∈ t.worker.ioQueue, a.batch.id = i

theorem Ledger.start (w : Worker) (between : w.ioQueue = []) : Ledger w.taking [] := by
  refine ⟨rfl, ?_, ?_, ?_⟩
  · intro effect member
    cases member
  · rw [show w.taking.worker.ioQueue = [] from between]
    intro a member
    cases member
  · intro i req found
    simp at found

theorem getElem?_append_mark {marks : List (Request × Bool)} {i : Nat} {mark : Request × Bool}
    (found : marks[i]? = some mark) (new : Request × Bool) : (marks ++ [new])[i]? = some mark := by
  have inside := (List.getElem?_eq_some_iff.mp found).1
  rw [List.getElem?_append_left inside, found]

/-- A refused request adds its refusal, anything else its queued I/O. -/
theorem Ledger.append {t t' : Taking} {marks : List (Request × Bool)} {req : Request} {mark : Bool}
    (ledger : Ledger t marks) (seen : t'.seen = t.seen ++ [req])
    (step : (∃ res, res ≠ 0 ∧ mark = false ∧ t'.effects = t.effects ++ [.respond t.seen.length none res] ∧
        t'.worker.ioQueue = t.worker.ioQueue) ∨
      (∃ a, t'.effects = t.effects ∧ t'.worker.ioQueue = t.worker.ioQueue ++ [a] ∧
        a.batch = ⟨t.seen.length, [], []⟩ ∧
        ((mark = false ∧ ∃ key, req = .get key) ∨ (mark = true ∧ req.writes = true ∧ a.IsWrite)))) :
    Ledger t' (marks ++ [(req, mark)]) := by
  have length : marks.length = t.seen.length := by rw [← ledger.requests, List.length_map]
  have last : (marks ++ [(req, mark)])[t.seen.length]? = some (req, mark) := by simp [← length]
  have old : ∀ i req' mark', (marks ++ [(req, mark)])[i]? = some (req', mark') →
      marks[i]? = some (req', mark') ∨ i = t.seen.length ∧ req' = req ∧ mark' = mark := by
    intro i req' mark' found
    rw [List.getElem?_append] at found
    split at found
    · exact Or.inl found
    · have at0 : i - marks.length = 0 := by
        have := (List.getElem?_eq_some_iff.mp found).1
        simpa using this
      simp only [at0, List.getElem?_cons_zero, Option.some.injEq, Prod.mk.injEq] at found
      exact Or.inr ⟨by omega, found.1.symm, found.2.symm⟩
  refine ⟨by simp [ledger.requests, seen], ?_, ?_, ?_⟩
  · intro effect member
    have oldEffect : effect ∈ t.effects → ∃ i res req', effect = .respond i none res ∧ res ≠ 0 ∧
        (marks ++ [(req, mark)])[i]? = some (req', false) := by
      intro inOld
      obtain ⟨i, res, req', shape, nonzero, found⟩ := ledger.refused effect inOld
      exact ⟨i, res, req', shape, nonzero, getElem?_append_mark found _⟩
    rcases step with ⟨res, nonzero, rfl, effects, -⟩ | ⟨a, effects, -⟩
    · rw [effects, List.mem_append, List.mem_singleton] at member
      rcases member with inOld | rfl
      · exact oldEffect inOld
      · exact ⟨_, res, req, rfl, nonzero, last⟩
    · rw [effects] at member
      exact oldEffect member
  · intro a member
    have oldAio : a ∈ t.worker.ioQueue → a.batch.requests = [] ∧
        ((∃ key, (marks ++ [(req, mark)])[a.batch.id]? = some (.get key, false)) ∨
          a.IsWrite ∧ ∃ req', (marks ++ [(req, mark)])[a.batch.id]? = some (req', true)) := by
      intro inOld
      obtain ⟨empty, ⟨key, found⟩ | ⟨isWrite, req', found⟩⟩ := ledger.queued a inOld
      · exact ⟨empty, Or.inl ⟨key, getElem?_append_mark found _⟩⟩
      · exact ⟨empty, Or.inr ⟨isWrite, req', getElem?_append_mark found _⟩⟩
    rcases step with ⟨_, -, -, -, queue⟩ | ⟨b, -, queue, batch, kind⟩
    · rw [queue] at member
      exact oldAio member
    · rw [queue, List.mem_append, List.mem_singleton] at member
      rcases member with inOld | rfl
      · exact oldAio inOld
      · rw [batch]
        refine ⟨rfl, ?_⟩
        rcases kind with ⟨rfl, key, rfl⟩ | ⟨rfl, -, isWrite⟩
        · exact Or.inl ⟨key, last⟩
        · exact Or.inr ⟨isWrite, req, last⟩
  · intro i req' found
    rcases old i req' true found with inOld | ⟨rfl, rfl, rfl⟩
    · obtain ⟨writes, a, member, id⟩ := ledger.writes i req' inOld
      refine ⟨writes, a, ?_, id⟩
      rcases step with ⟨_, -, -, -, queue⟩ | ⟨b, -, queue, -⟩ <;> rw [queue]
      · exact member
      · exact List.mem_append_left _ member
    · rcases step with ⟨_, -, impossible, -⟩ | ⟨b, -, queue, batch, ⟨impossible, -⟩ | ⟨-, writes, -⟩⟩
      · cases impossible
      · cases impossible
      · exact ⟨writes, b, by simp [queue], by rw [batch]⟩

/-- The answer to a queued write. -/
theorem answer_of_write {a : Aio} (isWrite : a.IsWrite) (empty : a.batch.requests = [])
    (disk : Disk) (memory : Memory) : a.answer disk memory = .respond a.batch.id none 0 := by
  simp [Aio.answer, isWrite.opcode, Batch.finishRequest, empty]

theorem answer_of_read {a : Aio} (isRead : a.opcode = .pread) (empty : a.batch.requests = [])
    (disk : Disk) (memory : Memory) :
    ∃ data res, a.answer disk memory = .respond a.batch.id (some data) res := by
  have batch : (a.stamp disk).batch = a.batch := by unfold Aio.stamp; split <;> rfl
  simp only [Aio.answer, isRead, Batch.finishRequest, batch, empty, List.isEmpty_nil, if_true]
  exact ⟨_, _, rfl⟩

/-- **The marks are the acknowledgements** the clients of the round receive. -/
theorem Ledger.acknowledged {t : Taking} {marks : List (Request × Bool)} (ledger : Ledger t marks)
    (prepared : ∀ a ∈ t.worker.ioQueue, a.Prepared) (page : Nat → Nat) (disk : Disk)
    (memory : Memory) :
    (answered t.seen (t.effects ++ answers page t.worker.ioQueue disk memory)).map
      (fun entry => (entry.1, acknowledged entry)) = marks := by
  have length : marks.length = t.seen.length := by rw [← ledger.requests, List.length_map]
  -- whoever answers request `i` says what its mark says
  have verdict : ∀ i req mark data res, marks[i]? = some (req, mark) → req.writes = true →
      .respond i data res ∈ t.effects ++ answers page t.worker.ioQueue disk memory →
        (res = 0 ↔ mark = true) := by
    intro i req mark data res found writes member
    rcases List.mem_append.mp member with early | late
    · obtain ⟨j, code, req', shape, nonzero, marked⟩ := ledger.refused _ early
      simp only [Effect.respond.injEq] at shape
      obtain ⟨rfl, -, rfl⟩ := shape
      rw [found] at marked
      simp_all
    · obtain ⟨before, a, after, split, shape⟩ := mem_answers late
      have inQueue : a ∈ t.worker.ioQueue := by simp [split]
      obtain ⟨empty, ⟨key, marked⟩ | ⟨isWrite, req', marked⟩⟩ := ledger.queued a inQueue
      · rcases prepared a inQueue with isRead | isWrite
        · obtain ⟨data', res', answer⟩ := answer_of_read isRead.opcode empty
            (before.foldl (fun disk a => a.performDisk disk) disk)
            (before.foldl (Aio.onData page) memory)
          rw [answer, Effect.respond.injEq] at shape
          rw [← shape.1, found] at marked
          simp_all [Request.writes]
        · rw [answer_of_write isWrite empty, Effect.respond.injEq] at shape
          rw [← shape.1, found] at marked
          simp_all [Request.writes]
      · rw [answer_of_write isWrite empty, Effect.respond.injEq] at shape
        rw [← shape.1, found] at marked
        simp_all
  apply List.ext_getElem
  · simp [answered, length]
  · intro i inLeft inRight
    have found : marks[i]? = some marks[i] := List.getElem?_eq_getElem inRight
    have inSeen : i < t.seen.length := by omega
    have request : t.seen[i] = marks[i].1 := by simp [← ledger.requests]
    simp only [answered, List.getElem_map, List.getElem_mapIdx]
    rw [request]
    refine Prod.ext rfl ?_
    cases mark : marks[i] with
    | mk req acked =>
        rw [mark] at found
        simp only [Kvengine.acknowledged]
        cases acked with
        | false =>
            cases writes : req.writes with
            | false => rfl
            | true =>
                cases answer : answerTo i (t.effects ++ answers page t.worker.ioQueue disk memory) with
                | none => rfl
                | some reply =>
                    have agrees := verdict i req false reply.1 reply.2 found writes
                      (respond_of_answerTo answer)
                    simpa using agrees
        | true =>
            obtain ⟨writes, a, inQueue, id⟩ := ledger.writes i req found
            obtain ⟨empty, ⟨key, marked⟩ | ⟨isWrite, -⟩⟩ := ledger.queued a inQueue
            · rw [id, found] at marked
              simp at marked
            · obtain ⟨disk', memory', member⟩ := answer_mem page inQueue disk memory
              rw [answer_of_write isWrite empty, id] at member
              obtain ⟨reply, answer⟩ := answerTo_isSome (List.mem_append_right t.effects member)
              have agrees := verdict i req true reply.1 reply.2 found writes (respond_of_answerTo answer)
              rw [answer, writes]
              simpa using agrees

/-! ## Runs -/

/-- No PUT finds its key absent while a PUT of the key is queued. -/
def Worker.PutSafe (w : Worker) : Request → Prop
  | .put key _ => w.index[key]? = none → w.putting key = false
  | _ => True

instance (w : Worker) : (req : Request) → Decidable (w.PutSafe req)
  | .get _ => .isTrue trivial
  | .put key _ => inferInstanceAs (Decidable (w.index[key]? = none → w.putting key = false))
  | .update .. => .isTrue trivial
  | .delete _ => .isTrue trivial
  | .scan .. => .isTrue trivial

/-- A key of the index whose DELETE is queued is on its way out. -/
def Gone (w : Worker) (m : Contents) : Prop :=
  ∀ key, w.index[key]?.isSome → w.deleting key = true → m key = none

theorem Worker.deleting_queue (w : Worker) (fs : FileSlab) (a : Aio) (key : Slice) :
    (w.queue fs a).deleting key = (w.deleting key || a.deletes key) := by
  simp [Worker.deleting]

theorem deletes_toWrite (aio : Aio) (file : Nat) (data : Slice) (off : Nat) (hit : Option Nat)
    (key : Slice) : (aio.toWrite file data off hit).deletes key = aio.deletes key := by
  cases hit <;> simp [Aio.deletes, Aio.toWrite]

/-- The invariant of a round in progress in a session whose log so far is `before`. -/
structure Acked (before : List (Request × Bool)) (t : Taking) (m : Contents)
    (marks : List (Request × Bool)) : Prop where
  sound : Sound t.worker m
  ledger : Ledger t marks
  tally : Tally m (before ++ marks)
  gone : Gone t.worker m

theorem Worker.refusal_ne_zero {w : Worker} {req : Request} {res : Int}
    (reason : w.refusal req = some res) : res ≠ 0 := by
  have missing : enoent ≠ 0 := by decide
  have present : eexist ≠ 0 := by decide
  cases req with
  | get | update | delete =>
      simp only [Worker.refusal, Option.ite_none_left_eq_some, Option.some.injEq] at reason
      exact reason.2 ▸ missing
  | put =>
      simp only [Worker.refusal, Option.ite_none_right_eq_some, Option.some.injEq] at reason
      exact reason.2 ▸ present
  | scan => cases reason

theorem Acked.step {before marks : List (Request × Bool)} {t t' : Taking} {m : Contents}
    {req : Request} {new : List Effect} (acked : Acked before t m marks)
    (point : req.isPoint = true) (fits : t.worker.Fits req) (slabSafe : t.worker.SlabSafe req)
    (putSafe : t.worker.PutSafe req)
    (processed : Processed t.worker t.seen.length req t'.worker new)
    (seen : t'.seen = t.seen ++ [req]) (effects : t'.effects = t.effects ++ new) :
    ∃ m' mark, Acked before t' m' (marks ++ [(req, mark)]) := by
  have sound := acked.sound.processed fits slabSafe processed
  generalize shape : t'.worker = w' at processed
  cases processed with
  | refused reason =>
      have same : t'.worker = t.worker := shape
      refine ⟨m, false, ?_, acked.ledger.append seen (Or.inl ⟨_, Worker.refusal_ne_zero reason, rfl,
        effects, by rw [same]⟩), ?_, by rw [same]; exact acked.gone⟩
      · rw [same]
        exact acked.sound
      · rw [← List.append_assoc]
        exact acked.tally.refused req
  | get found queued =>
      rename_i key slab a fs
      obtain ⟨-, hit, c, c', -, rfl, aio⟩ := LocalFileSet.read_eq_some queued
      have reads : ∀ key', a.deletes key' = false := by
        intro key'
        rcases aio with ⟨ent, -, -, rfl⟩ | ⟨ent, -, -, rfl⟩ <;> rfl
      refine ⟨m, false, sound, acked.ledger.append seen (Or.inr ⟨_, by simpa using effects,
        by rw [shape]; rfl, ?_, Or.inl ⟨rfl, _, rfl⟩⟩), ?_, ?_⟩
      · rcases aio with ⟨ent, -, -, rfl⟩ | ⟨ent, -, -, rfl⟩ <;> rfl
      · rw [← List.append_assoc]
        exact acked.tally.refused _
      · intro key' present deleting
        rw [shape] at present deleting
        rw [Worker.deleting_queue, reads, Bool.or_false] at deleting
        exact acked.gone key' present deleting
  | put absent created queued =>
      rename_i key value slab slabs fs fs' a
      obtain ⟨-, hit, c, -, rfl, rfl⟩ := LocalFileSet.write_eq_some queued
      have unset := acked.sound.absent key (Worker.pendIndex_of_none absent (putSafe absent))
      simp only [Worker.expect, absent, Option.isSome_none, Bool.false_eq_true, if_false, unset,
        Option.getD_none] at sound
      refine ⟨_, true, sound, acked.ledger.append seen (Or.inr ⟨_, by simpa using effects,
        by rw [shape]; rfl, rfl, Or.inr ⟨rfl, rfl, Worker.toWrite_isWrite ..⟩⟩), ?_, ?_⟩
      · rw [← List.append_assoc]
        exact acked.tally.put unset value
      · intro key' present deleting
        rw [shape] at present deleting
        rw [Worker.deleting_queue, deletes_toWrite] at deleting
        have differ : key' ≠ key := by
          rintro rfl
          rw [Worker.queue_index, absent] at present
          cases present
        rw [Function.update_of_ne differ]
        exact acked.gone key' present (by simpa [Aio.deletes, Aio.addCallback, Worker.blankAio, Aio.new] using deleting)
  | update found queued =>
      rename_i key value slab a fs
      obtain ⟨-, hit, c, -, rfl, rfl⟩ := LocalFileSet.write_eq_some queued
      have ledger : Ledger t' (marks ++ [(.update key value, true)]) :=
        acked.ledger.append seen (Or.inr ⟨_, by simpa using effects, by rw [shape]; rfl, rfl,
          Or.inr ⟨rfl, rfl, Worker.toWrite_isWrite ..⟩⟩)
      have deletingIff : ∀ key', t'.worker.deleting key' = t.worker.deleting key' := by
        intro key'
        rw [shape, Worker.deleting_queue, deletes_toWrite]
        simp [Aio.deletes, Worker.blankAio, Aio.new]
      have index : t'.worker.index = t.worker.index := by rw [shape]; rfl
      by_cases kept : t.worker.deleting key = false
      · simp only [Worker.expect, found, Option.isSome_some, true_and, if_pos kept] at sound
        obtain ⟨old, present, -⟩ := acked.sound.owner key slab (Worker.pendIndex_of_some found kept)
        refine ⟨_, true, sound, ledger, ?_, ?_⟩
        · rw [← List.append_assoc]
          exact acked.tally.update (by simp [present]) value
        · intro key' inIndex deleting
          rw [deletingIff] at deleting
          rw [index] at inIndex
          have differ : key' ≠ key := by
            rintro rfl
            rw [kept] at deleting
            cases deleting
          rw [Function.update_of_ne differ]
          exact acked.gone key' inIndex deleting
      · simp only [Worker.expect, found, Option.isSome_some, true_and, if_neg kept] at sound
        refine ⟨_, true, sound, ledger, ?_, ?_⟩
        · rw [← List.append_assoc]
          exact acked.tally.lost (acked.gone key (by simp [found]) (by simpa using kept)) value
        · intro key' inIndex deleting
          rw [deletingIff] at deleting
          rw [index] at inIndex
          exact acked.gone key' inIndex deleting
  | delete found freed queued =>
      rename_i key slab slabs a fs
      obtain ⟨-, hit, c, -, rfl, rfl⟩ := LocalFileSet.write_eq_some queued
      obtain ⟨old, present, -⟩ := acked.sound.owner key slab
        (Worker.pendIndex_of_some found (slabSafe (by simp [found])))
      simp only [Worker.expect, found, Option.isSome_some, if_true] at sound
      refine ⟨_, true, sound, acked.ledger.append seen (Or.inr ⟨_, by simpa using effects,
        by rw [shape]; rfl, rfl, Or.inr ⟨rfl, rfl, Worker.toWrite_isWrite ..⟩⟩), ?_, ?_⟩
      · rw [← List.append_assoc]
        exact acked.tally.delete (by simp [present])
      · intro key' inIndex deleting
        by_cases same : key' = key
        · rw [same, Function.update_self]
        · rw [Function.update_of_ne same]
          rw [shape] at inIndex deleting
          rw [Worker.deleting_queue, deletes_toWrite] at deleting
          exact acked.gone key' inIndex
            (by simpa [Aio.deletes, Aio.addCallback, Worker.blankAio, Aio.new, Ne.symm same] using deleting)
  | scan scanned => cases point

/-- For every key, acknowledged PUTs and DELETEs alternate, the key is in the index
exactly when the last of them is a PUT, and its slab then stores the value last
acknowledged for it. -/
def Session.Alternates (s : Session) : Prop :=
  ∀ key : Slice, Alternating (acks key s.marks) ∧
    (s.worker.index[key]?.isSome ↔ (acks key s.marks).getLast? = some true) ∧
    ∀ slab, s.worker.index[key]? = some slab → ∃ value, lastValue key s.marks = some value ∧
      decodeItem (cut (s.worker.disk slab.file).byte slab.off slab.size) = (validTag, key, value)

/-- A session with a fresh worker. -/
def Session.new (id : Nat) (workDir : String) (pages : Nat) (junk : Memory) : Session where
  worker := .new id workDir pages junk
  log := []

/-- What acknowledgements need of a request when it is processed. -/
def Worker.AckSafe (w : Worker) (req : Request) : Prop :=
  (req.isPoint = true ∧ w.Fits req) ∧ w.SlabSafe req ∧ w.PutSafe req

instance (w : Worker) (req : Request) : Decidable (w.AckSafe req) :=
  inferInstanceAs (Decidable (_ ∧ _))

theorem Session.alternates_of_tally {s : Session} {m : Contents} (sound : Sound s.worker m)
    (between : s.worker.ioQueue = []) (tally : Tally m s.marks) : s.Alternates := by
  have index : s.worker.pendIndex = s.worker.index := by
    rw [Worker.pendIndex, between, List.foldl_nil]
  have disk : s.worker.pendDisk = s.worker.disk := by rw [Worker.pendDisk, between, List.foldl_nil]
  intro key
  refine ⟨tally.alternating key, ?_, ?_⟩
  · rw [← tally.present key, ← index]
    cases found : s.worker.pendIndex[key]? with
    | none => simp [sound.absent key found]
    | some slab =>
        obtain ⟨value, present, -⟩ := sound.owner key slab found
        simp [present]
  · intro slab found
    obtain ⟨value, present, owns⟩ := sound.owner key slab (index ▸ found)
    exact ⟨value, tally.value key value present, decodeItem_of_itemAt (disk ▸ owns.item) owns.fits⟩

/-- One round adds its acknowledgements to the log. -/
theorem Session.next_tally {s s' : Session} {m : Contents} {reqs : List Request} {u : Unit}
    (sound : Sound s.worker m) (between : s.worker.ioQueue = []) (tally : Tally m s.marks)
    (ok : RoundOk Worker.AckSafe s.worker reqs) (taken : s.next reqs = some (s', u)) :
    ∃ m', Sound s'.worker m' ∧ s'.worker.ioQueue = [] ∧ Tally m' s'.marks := by
  simp only [Session.next, Option.map_eq_some_iff, Prod.mk.injEq] at taken
  obtain ⟨⟨w', effects⟩, served, rfl, -⟩ := taken
  have step : ∀ {t t' : Taking} {req : Request} {new : List Effect},
      (∃ m marks, Acked s.marks t m marks) → t.worker.AckSafe req →
      Processed t.worker t.seen.length req t'.worker new → t'.seen = t.seen ++ [req] →
      t'.effects = t.effects ++ new → ∃ m marks, Acked s.marks t' m marks := by
    rintro t t' req new ⟨m, marks, acked⟩ ⟨⟨point, fits⟩, slabSafe, putSafe⟩ processed seen effects
    obtain ⟨m', mark, acked'⟩ := acked.step point fits slabSafe putSafe processed seen effects
    exact ⟨m', _, acked'⟩
  have start : ∃ m marks, Acked s.marks s.worker.taking m marks := by
    refine ⟨m, [], sound, .start s.worker between, by simpa using tally, ?_⟩
    intro key _ deleting
    have idle : s.worker.deleting key = false := by simp [Worker.deleting, between]
    rw [show s.worker.taking.worker = s.worker from rfl, idle] at deleting
    cases deleting
  obtain ⟨t, ⟨m', marks, acked⟩, rfl, rfl, rfl⟩ := serve_induction step start ok served
  obtain ⟨-, -, -, -, -, -, -, queue, answers⟩ := t.worker.settle_spec acked.sound.prepared
  refine ⟨m', acked.sound.settled, queue, ?_⟩
  rw [answers]
  simp only [Session.marks, List.map_append]
  rw [acked.ledger.acknowledged acked.sound.prepared]
  exact acked.tally

/-- **Acknowledgements alternate.**  In every session whose rounds process no UPDATE
of a key whose slab a queued DELETE has released and a PUT has taken, no DELETE of a
key whose DELETE is queued, and no PUT of a key whose PUT is queued. -/
theorem acks_alternate_of_run (id : Nat) (workDir : String) (pages : Nat) (junk : Memory)
    {rounds : List (List Request)} {s : Session} {outs : List Unit}
    (ok : Run.Along Session.next (fun s => RoundOk Worker.AckSafe s.worker)
      (.new id workDir pages junk) rounds)
    (ran : Run.run Session.next (.new id workDir pages junk) rounds = some (s, outs)) :
    s.Alternates := by
  have preserved : ∀ (s : Session) (reqs : List Request) (s' : Session) (u : Unit),
      (∃ m, Sound s.worker m ∧ s.worker.ioQueue = [] ∧ Tally m s.marks) →
      RoundOk Worker.AckSafe s.worker reqs → s.next reqs = some (s', u) →
      ∃ m, Sound s'.worker m ∧ s'.worker.ioQueue = [] ∧ Tally m s'.marks := by
    rintro s reqs s' u ⟨m, sound, between, tally⟩ ok taken
    exact Session.next_tally sound between tally ok taken
  obtain ⟨m, sound, between, tally⟩ :=
    Run.invariant preserved ⟨_, .new id workDir pages junk, rfl, .empty⟩ ok ran
  exact Session.alternates_of_tally sound between tally

theorem acks_alternate_of_run_example :
    ∃ s outs, Run.run Session.next (.new 0 "db" 2 fun _ => 0)
      [[.put [1] [2], .get [1]], [.delete [1], .put [1] [7]], [.put [1] [3], .update [4] [4]]] =
        some (s, outs) ∧ acks [1] s.marks = [true, false, true] ∧ s.Alternates := by
  have ok : Run.Along Session.next (fun s => RoundOk Worker.AckSafe s.worker)
      (.new 0 "db" 2 fun _ => 0)
      [[.put [1] [2], .get [1]], [.delete [1], .put [1] [7]], [.put [1] [3], .update [4] [4]]] := by
    decide +kernel
  have ends : (Run.run Session.next (.new 0 "db" 2 fun _ => 0)
      [[.put [1] [2], .get [1]], [.delete [1], .put [1] [7]], [.put [1] [3], .update [4] [4]]]).map
        (fun out => acks [1] out.1.marks) = some [true, false, true] := by
    decide +kernel
  obtain ⟨⟨s, outs⟩, ran, acked⟩ := Option.map_eq_some_iff.mp ends
  exact ⟨s, outs, ran, acked, acks_alternate_of_run 0 "db" 2 (fun _ => 0) ok ran⟩

/-- Two PUTs of one key in a round are both acknowledged. -/
theorem acks_alternate_fails_on_double_put :
    ¬ ∀ (rounds : List (List Request)) (s : Session) (outs : List Unit),
      Run.Along Session.next
        (fun s => RoundOk (fun w req => req.isPoint = true ∧ w.Fits req) s.worker)
        (.new 0 "db" 2 fun _ => 0) rounds →
      Run.run Session.next (.new 0 "db" 2 fun _ => 0) rounds = some (s, outs) → s.Alternates := by
  intro claim
  let rounds : List (List Request) := [[.put [1] [2], .put [1] [3]]]
  have ok : Run.Along Session.next
      (fun s => RoundOk (fun w req => req.isPoint = true ∧ w.Fits req) s.worker)
      (.new 0 "db" 2 fun _ => 0) rounds := by
    decide +kernel
  have ends : (Run.run Session.next (.new 0 "db" 2 fun _ => 0) rounds).map
      (fun out => acks [1] out.1.marks) = some [true, true] := by
    decide +kernel
  obtain ⟨⟨s, outs⟩, ran, acked⟩ := Option.map_eq_some_iff.mp ends
  have alternating := (claim rounds s outs ok ran [1]).1
  simp only at acked
  rw [acked] at alternating
  simp [Alternating] at alternating

end KTableFS.Kvengine
