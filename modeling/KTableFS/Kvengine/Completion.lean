/-
# Kvengine.Completion -- which completion event a request is finished with

`io_getevents` returns the events of a round in the order the requests completed
in, and each event names its request: `AIO::AIO` stores the object's address in the
`iocb`'s `aio_data`, and the kernel copies it to the event.  `Main_` does not look
at it.  It hands `io_events[0], io_events[1], ..` to the submitted requests in queue
order (`handed`).

* `ownEvent` is the event that names a request; `completionOrder_free`: it does not
  depend on the order of the events;
* `completions_matched_iff`: a round finishes every request with its own event if and
  only if the events come back in the order of submission.
-/
import KTableFS.Kvengine.Process
import KTableFS.Kvengine.Db

namespace KTableFS.Kvengine

set_option autoImplicit false

/-- `SetEvent`, for a request that is given an event. -/
def Aio.given (a : Aio) : Option IoEvent → Aio
  | none => a
  | some event => { a with event := some event.res }

/-- The event that carries the request's `aio_data`; a fake request has none. -/
def Aio.ownEvent (a : Aio) (events : List IoEvent) : Option IoEvent :=
  if a.submit then events.find? fun event => event.data == a.self else none

/-- The events the finishing loop hands to a queue, by position. -/
def handed : List Aio → List IoEvent → List (Option IoEvent)
  | [], _ => []
  | a :: rest, events =>
      if a.submit then events.head? :: handed rest events.tail else none :: handed rest events

namespace Worker

/-- Finish requests, each with the event it is paired with. -/
def finishEach : List (Aio × Option IoEvent) → Worker → Worker × List Effect
  | [], w => (w, [])
  | (a, event) :: rest, w =>
      let finished := w.finish (a.given event)
      let after := finishEach rest finished.1
      (after.1, finished.2 :: after.2)

/-- The `iocb`s of the round. -/
def iocbs (w : Worker) : List Aio := w.ioQueue.filter Aio.submit

/-- Every request of the round is finished with the event of its own `iocb`, and so
the round ends as it would for any other order of the same events. -/
structure Matched (w : Worker) (kernel : Kernel) : Prop where
  own : handed w.ioQueue (w.performIo kernel).2 =
    w.ioQueue.map fun a => a.ownEvent (w.performIo kernel).2
  outcome : ∀ order : List IoEvent, order.Perm (w.performIo kernel).2 →
    w.settle kernel = finishEach (w.ioQueue.map fun a => (a, a.ownEvent order)) (w.performIo kernel).1

end Worker

/-! ## The loop, by the events it hands out -/

/-- The finishing loop finishes each request with what `handed` says. -/
theorem finishAll_eq_finishEach : ∀ (queue : List Aio) (events : List IoEvent) (w : Worker),
    (∀ a ∈ queue, a.event = none) →
      Worker.finishAll queue events w = Worker.finishEach (queue.zip (handed queue events)) w
  | [], _, _, _ => rfl
  | a :: rest, events, w, fresh => by
      have freshRest : ∀ b ∈ rest, b.event = none := fun b member => fresh b (.tail _ member)
      have blank : a.event = none := fresh a (.head _)
      by_cases submitted : a.submit = true
      · have given : a.given events.head? = { a with event := events.head?.map IoEvent.res } := by
          cases events with
          | nil => simp [Aio.given, ← blank]
          | cons event later => rfl
        simp only [Worker.finishAll, handed, submitted, if_true, List.zip_cons_cons,
          Worker.finishEach, given]
        rw [finishAll_eq_finishEach rest events.tail _ freshRest]
      · simp only [Worker.finishAll, handed, submitted, Bool.false_eq_true, if_false,
          List.zip_cons_cons, Worker.finishEach, Aio.given]
        rw [finishAll_eq_finishEach rest events _ freshRest]

theorem find?_own_of_mem {events : List IoEvent} (distinct : (events.map IoEvent.data).Nodup)
    {event : IoEvent} (member : event ∈ events) :
    events.find? (fun e => e.data == event.data) = some event := by
  induction events with
  | nil => cases member
  | cons head later ih =>
      rw [List.map_cons, List.nodup_cons] at distinct
      rcases List.mem_cons.mp member with rfl | inLater
      · simp
      · have apart : head.data ≠ event.data := by
          intro same
          exact distinct.1 (same ▸ List.mem_map_of_mem inLater)
        rw [List.find?_cons_of_neg (by simpa using apart)]
        exact ih distinct.2 inLater

/-- Which event is a request's own does not depend on the order of the events. -/
theorem completionOrder_free {events order : List IoEvent}
    (distinct : (events.map IoEvent.data).Nodup) (perm : order.Perm events) (a : Aio) :
    a.ownEvent order = a.ownEvent events := by
  have distinct' : (order.map IoEvent.data).Nodup := (perm.map _).nodup_iff.mpr distinct
  have same : order.find? (fun e => e.data == a.self) = events.find? fun e => e.data == a.self := by
    cases found : order.find? fun e => e.data == a.self with
    | none =>
        symm
        rw [List.find?_eq_none] at found ⊢
        exact fun event member => found event (perm.mem_iff.mpr member)
    | some event =>
        have named : event.data = a.self := by simpa using List.find?_some found
        rw [← named]
        exact (find?_own_of_mem distinct (perm.mem_iff.mp (List.mem_of_find?_eq_some found))).symm
  simp only [Aio.ownEvent, same]

/-- Handing out by position gives every request its own event exactly when the
events are in queue order. -/
theorem handed_eq_own_iff {all : List IoEvent} (distinct : (all.map IoEvent.data).Nodup) :
    ∀ (queue : List Aio) (events : List IoEvent), (∀ event ∈ events, event ∈ all) →
      events.length = (queue.filter Aio.submit).length →
      (handed queue events = queue.map (fun a => a.ownEvent all) ↔
        events.map IoEvent.data = (queue.filter Aio.submit).map Aio.self) := by
  intro queue
  induction queue with
  | nil =>
      intro events _ count
      have none' : events = [] := List.eq_nil_of_length_eq_zero count
      simp [handed, none']
  | cons a rest ih =>
      intro events known count
      by_cases submitted : a.submit = true
      · rw [List.filter_cons_of_pos submitted] at count ⊢
        cases events with
        | nil => simp at count
        | cons event later =>
            have inAll : event ∈ all := known event (.head _)
            have here : some event = a.ownEvent all ↔ event.data = a.self := by
              simp only [Aio.ownEvent, submitted, if_true]
              constructor
              · intro found
                simpa using List.find?_some found.symm
              · intro named
                rw [← named]
                exact (find?_own_of_mem distinct inAll).symm
            have tail := ih later (fun e member => known e (.tail _ member)) (by simpa using count)
            simp only [handed, submitted, if_true, List.head?_cons, List.tail_cons, List.map_cons,
              List.cons.injEq, here, tail]
      · rw [List.filter_cons_of_neg submitted] at count ⊢
        have tail := ih events known count
        simp only [handed, submitted, Bool.false_eq_true, if_false, List.map_cons, List.cons.injEq,
          Aio.ownEvent, true_and]
        simpa only [Aio.ownEvent] using tail

/-! ## The addresses of a round -/

/-- What processing leaves in the queue: requests named by their positions, with no
event yet. -/
structure Worker.Fresh (w : Worker) : Prop where
  selves : w.ioQueue.map Aio.self = List.range w.ioQueue.length
  events : ∀ a ∈ w.ioQueue, a.event = none

namespace Worker.Fresh

theorem distinct {w : Worker} (fresh : w.Fresh) : (w.iocbs.map Aio.self).Nodup := by
  have sub : (w.iocbs.map Aio.self).Sublist (w.ioQueue.map Aio.self) :=
    List.filter_sublist.map _
  exact (fresh.selves ▸ List.nodup_range).sublist sub

theorem queued {w : Worker} (fresh : w.Fresh) {a : Aio} (fs : FileSlab)
    (self : a.self = w.ioQueue.length) (blank : a.event = none) : (w.queue fs a).Fresh where
  selves := by
    rw [Worker.queue_ioQueue, List.map_append, fresh.selves, List.length_append, List.map_singleton,
      self, List.length_singleton, List.range_succ]
  events := by
    intro b member
    rcases List.mem_append.mp member with old | new
    · exact fresh.events b old
    · rw [List.mem_singleton.mp new]
      exact blank

theorem same {w w' : Worker} (fresh : w.Fresh) (queue : w'.ioQueue = w.ioQueue) : w'.Fresh :=
  ⟨by rw [queue, fresh.selves], by rw [queue]; exact fresh.events⟩

end Worker.Fresh

theorem FileSlab.write_self {fs fs' : FileSlab} {slab : SlabT} {key value : Slice} {aio a : Aio}
    (queued : fs.write slab key value aio = some (a, fs')) :
    a.self = aio.self ∧ a.event = aio.event := by
  simp only [FileSlab.write, Option.map_eq_some_iff] at queued
  obtain ⟨⟨b, files⟩, wrote, same⟩ := queued
  obtain ⟨rfl, -⟩ := Prod.mk.inj same
  obtain ⟨-, hit, c, -, rfl, -⟩ := LocalFileSet.write_eq_some wrote
  exact ⟨rfl, rfl⟩

theorem FileSlab.delete_self {fs fs' : FileSlab} {slab : SlabT} {aio a : Aio}
    (queued : fs.delete slab aio = some (a, fs')) : a.self = aio.self ∧ a.event = aio.event := by
  unfold FileSlab.delete at queued
  split at queued
  · cases queued
  · simp only [Option.map_eq_some_iff] at queued
    obtain ⟨⟨b, files⟩, wrote, same⟩ := queued
    obtain ⟨rfl, -⟩ := Prod.mk.inj same
    obtain ⟨-, hit, c, -, rfl, -⟩ := LocalFileSet.write_eq_some wrote
    exact ⟨rfl, rfl⟩

theorem FileSlab.read_self {fs fs' : FileSlab} {slab : SlabT} {aio a : Aio}
    (queued : fs.read slab aio = some (a, fs')) : a.self = aio.self ∧ a.event = aio.event := by
  simp only [FileSlab.read, Option.map_eq_some_iff] at queued
  obtain ⟨⟨b, files⟩, read, same⟩ := queued
  obtain ⟨rfl, -⟩ := Prod.mk.inj same
  obtain ⟨-, hit, c, c', -, -, kind⟩ := LocalFileSet.read_eq_some read
  rcases kind with ⟨ent, -, -, rfl⟩ | ⟨ent, -, -, rfl⟩
  · exact ⟨rfl, rfl⟩
  · exact ⟨rfl, rfl⟩

namespace Worker

theorem Fresh.enqueued {w w' : Worker} (fresh : w.Fresh) {prepared : Option (Aio × FileSlab)}
    {effects : List Effect} (queued : w.enqueue prepared = some (w', effects))
    (named : ∀ a fs, prepared = some (a, fs) → a.self = w.ioQueue.length ∧ a.event = none) :
    w'.Fresh := by
  simp only [Worker.enqueue, Option.map_eq_some_iff] at queued
  obtain ⟨⟨a, fs⟩, found, same⟩ := queued
  obtain ⟨rfl, -⟩ := Prod.mk.inj same
  obtain ⟨self, blank⟩ := named a fs found
  exact fresh.queued fs self blank

/-- Processing a batch's front request queues at most one request, named by its
position. -/
theorem Fresh.processRequest {w w' : Worker} (fresh : w.Fresh) {batch : Batch}
    {effects : List Effect} (taken : w.processRequest batch = some (w', effects)) : w'.Fresh := by
  unfold Worker.processRequest at taken
  split at taken
  · cases taken
    exact fresh
  · split at taken
    · split at taken
      · cases taken
        exact fresh
      · exact fresh.enqueued taken fun a fs queued => FileSlab.read_self queued
    · split at taken
      · cases taken
        exact fresh
      · split at taken
        · cases taken
        · exact fresh.enqueued taken fun a fs queued => FileSlab.write_self queued
    · split at taken
      · cases taken
        exact fresh
      · exact fresh.enqueued taken fun a fs queued => FileSlab.write_self queued
    · split at taken
      · cases taken
        exact fresh
      · exact fresh.enqueued taken fun a fs queued => FileSlab.delete_self queued
    · simp only [Option.map_eq_some_iff] at taken
      obtain ⟨out, -, same⟩ := taken
      obtain ⟨rfl, -⟩ := Prod.mk.inj same
      exact fresh.same rfl

theorem Fresh.processAll : ∀ {batches : List Batch} {w w' : Worker} {effects : List Effect},
    w.Fresh → w.processAll batches = some (w', effects) → w'.Fresh
  | [], w, w', effects, fresh, processed => by
      cases processed
      exact fresh
  | batch :: rest, w, w', effects, fresh, processed => by
      unfold Worker.processAll at processed
      split at processed
      · cases processed
      · next mid first taken =>
          simp only [Option.map_eq_some_iff] at processed
          obtain ⟨out, later, same⟩ := processed
          obtain ⟨rfl, -⟩ := Prod.mk.inj same
          exact Fresh.processAll (fresh.processRequest taken) later

end Worker

/-- **A round matches completions to requests by position only.**  Whatever the
batches of the round queued (reads and writes of any size, submitted and fake) and
whatever results the kernel reports for them: every request is finished with the
event of its own `iocb` if and only if `io_getevents` returns the events in the order
the `iocb`s were submitted in. -/
theorem completions_matched_iff {w mid : Worker} {batches : List Batch} {effects : List Effect}
    (between : w.ioQueue = []) (processed : w.processAll batches = some (mid, effects))
    {kernel : Kernel}
    (complete : ((mid.performIo kernel).2.map IoEvent.data).Perm (mid.iocbs.map Aio.self)) :
    mid.Matched kernel ↔
      (mid.performIo kernel).2.map IoEvent.data = mid.iocbs.map Aio.self := by
  have empty : w.Fresh := ⟨by simp [between], by simp [between]⟩
  have fresh : mid.Fresh := empty.processAll processed
  have distinct : ((mid.performIo kernel).2.map IoEvent.data).Nodup :=
    complete.nodup_iff.mpr fresh.distinct
  have count : (mid.performIo kernel).2.length = mid.iocbs.length := by
    simpa using complete.length_eq
  have matched := handed_eq_own_iff distinct mid.ioQueue (mid.performIo kernel).2
    (fun _ member => member) count
  constructor
  · intro property
    exact matched.mp property.own
  · intro inOrder
    have own := matched.mpr inOrder
    refine ⟨own, fun order perm => ?_⟩
    have pairs : mid.ioQueue.zip (handed mid.ioQueue (mid.performIo kernel).2) =
        mid.ioQueue.map fun a => (a, a.ownEvent order) := by
      simp only [own, completionOrder_free distinct perm]
      exact (List.map_prod_left_eq_zip ..).symm
    rw [Worker.settle_eq, finishAll_eq_finishEach _ _ _ fresh.events, pairs]

/-! ## Two writes of different sizes -/

/-- A kernel that performs the requests as `Kernel.inOrder` does and reports their
completions last to first. -/
def Kernel.lastFirst : Kernel := fun disk memory iocbs =>
  let io := Kernel.inOrder disk memory iocbs
  (io.1, io.2.1, io.2.2.reverse)

/-- The result an answer carries. -/
def Effect.result : Effect → Int
  | .respond _ _ res => res
  | _ => 0

/-- Two clients store values of one and of two bytes in the same round. -/
def twoPuts : List Batch := [⟨0, [.put [1] [2]], []⟩, ⟨1, [.put [3] [4, 5]], []⟩]

theorem twoPuts_queued : ∃ mid effects,
    (Worker.new 0 "db" 2 fun _ => 0).processAll twoPuts = some (mid, effects) := by
  have queued : ((Worker.new 0 "db" 2 fun _ => 0).processAll twoPuts).isSome := by decide +kernel
  obtain ⟨⟨mid, effects⟩, processed⟩ := Option.isSome_iff_exists.mp queued
  exact ⟨mid, effects, processed⟩

/-- In order, both are matched. -/
theorem completions_matched_inOrder : ∃ mid effects,
    (Worker.new 0 "db" 2 fun _ => 0).processAll twoPuts = some (mid, effects) ∧
      mid.Matched .inOrder := by
  obtain ⟨mid, effects, processed⟩ := twoPuts_queued
  have order : ∀ out ∈ (Worker.new 0 "db" 2 fun _ => 0).processAll twoPuts,
      (out.1.performIo .inOrder).2.map IoEvent.data = out.1.iocbs.map Aio.self := by
    decide +kernel
  have inOrder := order _ processed
  exact ⟨mid, effects, processed,
    (completions_matched_iff rfl processed (.of_eq inOrder)).mpr inOrder⟩

/-- The other way round, each write is judged by the byte count of the other: both
are reported as failed, with the other's positive count as the result. -/
theorem completions_crossed :
    ¬ ∀ (w mid : Worker) (batches : List Batch) (effects : List Effect) (kernel : Kernel),
      w.ioQueue = [] → w.processAll batches = some (mid, effects) →
      ((mid.performIo kernel).2.map IoEvent.data).Perm (mid.iocbs.map Aio.self) →
      mid.Matched kernel := by
  intro always
  obtain ⟨mid, effects, processed⟩ := twoPuts_queued
  have complete : ∀ out ∈ (Worker.new 0 "db" 2 fun _ => 0).processAll twoPuts,
      ((out.1.performIo .lastFirst).2.map IoEvent.data).Perm (out.1.iocbs.map Aio.self) := by
    decide +kernel
  have crossed : ∀ out ∈ (Worker.new 0 "db" 2 fun _ => 0).processAll twoPuts,
      (out.1.settle .lastFirst).2.map Effect.result = [9, 8] ∧
      (Worker.finishEach (out.1.ioQueue.map fun a =>
        (a, a.ownEvent (out.1.performIo .lastFirst).2)) (out.1.performIo .lastFirst).1).2.map
          Effect.result = [0, 0] := by
    decide +kernel
  have matched := always _ mid twoPuts effects .lastFirst rfl processed (complete _ processed)
  obtain ⟨failed, fine⟩ := crossed _ processed
  rw [matched.outcome _ (.refl _), fine] at failed
  exact absurd failed (by decide)

end KTableFS.Kvengine
