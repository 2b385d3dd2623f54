/-
# Kvengine.Finishing -- the finishing loop of requests that all succeed

When every request of a round succeeds, the finishing loop is two computations that do
not depend on each other: the worker's books and the cache entries change as the
callbacks say (`Callback.applied`), whatever the frames hold, and the frames and the
answers come out of the frames alone (`Aio.onData`, `reports`).

`Kernel.executing order report` is the kernel that executes a round's requests in the
order `order` and reports their events in the order `report`.  `settle_executing` gives
the end of the round by the files and the frames the execution leaves, and
`settle_executing_eq_iff` says when two executions end alike.
-/
import KTableFS.Kvengine.Completion

namespace KTableFS.Kvengine

open KTableFS.Theory

set_option autoImplicit false

/-! ## The frames apart from the rest -/

namespace Worker

/-- The worker with other bytes in its frames. -/
def withData (w : Worker) (m : Memory) : Worker := w.setPagecache { w.pagecache with data := m }

@[simp] theorem withData_data (w : Worker) (m : Memory) : (w.withData m).pagecache.data = m := rfl

@[simp] theorem withData_page (w : Worker) (m : Memory) : (w.withData m).page = w.page := rfl

@[simp] theorem withData_disk (w : Worker) (m : Memory) : (w.withData m).disk = w.disk := rfl

end Worker

/-- What a callback of a successful request does to the worker. -/
def Callback.applied (w : Worker) : Callback → Worker
  | .put key slab => { w with index := w.index.insertIfNew key slab }
  | .delete key => { w with index := w.index.erase key }
  | .fileSlabRead => w
  | .cacheWrite ent data off => w.setPagecache (w.pagecache.writeCallback ent data off)
  | .cacheRead ent => w.setPagecache (w.pagecache.readCallback ent)

namespace Callback

variable (w : Worker) (c : Callback)

theorem applied_page : (c.applied w).page = w.page := by
  cases c with
  | cacheRead ent => exact funext (w.pagecache.readCallback_completed ent).page
  | _ => rfl

theorem applied_disk : (c.applied w).disk = w.disk := by
  cases c <;> rfl

theorem applied_withData (m : Memory) :
    c.applied (w.withData m) = (c.applied w).withData (c.onData w.page m) := by
  cases c <;> rfl

end Callback

namespace Aio

/-- What a successful request does to the worker. -/
def applied (w : Worker) (a : Aio) : Worker := a.callbacks.foldl Callback.applied w

/-- Its answer, from the frames as they are in its turn. -/
def reply (a : Aio) (m : Memory) : Effect :=
  match a.opcode with
  | .pread => a.batch.finishRequest (some (a.valueAt m)) 0
  | .pwrite => a.batch.finishRequest none 0

theorem applied_spec (callbacks : List Callback) : ∀ w : Worker,
    (callbacks.foldl Callback.applied w).page = w.page ∧
      (callbacks.foldl Callback.applied w).disk = w.disk ∧
      ∀ m, callbacks.foldl Callback.applied (w.withData m) =
        (callbacks.foldl Callback.applied w).withData (callbacks.foldl (Callback.onData w.page) m) := by
  induction callbacks with
  | nil => exact fun _ => ⟨rfl, rfl, fun _ => rfl⟩
  | cons c rest ih =>
      intro w
      obtain ⟨page, disk, frames⟩ := ih (c.applied w)
      refine ⟨page.trans (c.applied_page w), disk.trans (c.applied_disk w), fun m => ?_⟩
      rw [List.foldl_cons, List.foldl_cons, List.foldl_cons, c.applied_withData, frames, c.applied_page]

end Aio

/-- The answers of the finishing loop, for frames `m`. -/
def reports (page : Nat → Nat) : List Aio → Memory → List Effect
  | [], _ => []
  | a :: rest, m => a.reply m :: reports page rest (a.onData page m)

/-! ## One request -/

namespace Worker

theorem runCallbacks_success (callbacks : List Callback) : ∀ (w : Worker) (a : Aio),
    a.success = true → (runCallbacks callbacks w a).1 = callbacks.foldl Callback.applied w := by
  induction callbacks with
  | nil => exact fun _ _ _ => rfl
  | cons c rest ih =>
      intro w a success
      obtain ⟨size, off, same⟩ := w.runCallback_aio a c
      have first : (w.runCallback a c).1 = c.applied w := by
        unfold runCallback
        rw [if_pos success]
        cases c <;> rfl
      rw [runCallbacks, ih _ _ (by rw [same]; exact success), first]
      rfl

/-- Finishing a request that succeeded. -/
theorem finish_success (w : Worker) {a : Aio} (prepared : a.Prepared) {event : Option IoEvent}
    (success : (a.given event).success = true) :
    w.finish (a.given event) = (a.applied w, a.reply w.pagecache.data) := by
  have opcode : (a.given event).opcode = a.opcode := by cases event <;> rfl
  have callbacks : (a.given event).callbacks = a.callbacks := by cases event <;> rfl
  have batch : (a.given event).batch = a.batch := by cases event <;> rfl
  have result : (a.given event).result = 0 := by rw [Aio.result, if_pos success]
  obtain ⟨data, shape⟩ := w.finish_eq (a.given event)
  have done : (w.finish (a.given event)).1 = a.applied w := by
    rw [shape, runCallbacks_success _ _ _ success, callbacks]
    rfl
  refine Prod.ext done ?_
  rcases prepared with isRead | isWrite
  · have later : ∀ size off, ((a.given event).setReadSizeAndOff size off).success = true :=
      fun _ _ => success
    have isRead' : ∀ size off, ((a.given event).setReadSizeAndOff size off).opcode = .pread :=
      fun _ _ => opcode.trans isRead.opcode
    have result' : ∀ size off, ((a.given event).setReadSizeAndOff size off).result = 0 :=
      fun _ _ => result
    have batch' : ∀ size off, ((a.given event).setReadSizeAndOff size off).batch = a.batch :=
      fun _ _ => batch
    rcases isRead.callbacks with ⟨-, calls⟩ | ⟨-, ent, calls⟩
    · rw [calls] at callbacks
      simp only [finish, callbacks, runCallbacks, runCallback, if_pos success, isRead', result', batch',
        Aio.reply, isRead.opcode]
      cases event <;> rfl
    · rw [calls] at callbacks
      simp only [finish, callbacks, runCallbacks, runCallback, if_pos success, later, if_true, isRead',
        result', batch', Aio.reply, isRead.opcode]
      cases event <;> rfl
  · obtain ⟨size, off, same⟩ := runCallbacks_aio (a.given event).callbacks w (a.given event)
    have isWrite' : ((a.given event).setReadSizeAndOff size off).opcode = .pwrite :=
      opcode.trans isWrite.opcode
    have batch' : ((a.given event).setReadSizeAndOff size off).batch = a.batch := batch
    have result' : ((a.given event).setReadSizeAndOff size off).result = 0 := result
    simp only [finish, same, isWrite', batch', result', Aio.reply, isWrite.opcode]

/-! ## The loop -/

/-- What a queue of successful requests does to the worker. -/
def appliedAll (w : Worker) (queue : List Aio) : Worker := queue.foldl Aio.applied w

theorem appliedAll_spec (queue : List Aio) : ∀ w : Worker,
    (w.appliedAll queue).page = w.page ∧ (w.appliedAll queue).disk = w.disk ∧
      ∀ m, (w.withData m).appliedAll queue =
        (w.appliedAll queue).withData (queue.foldl (Aio.onData w.page) m) := by
  induction queue with
  | nil => exact fun _ => ⟨rfl, rfl, fun _ => rfl⟩
  | cons a rest ih =>
      intro w
      obtain ⟨page, disk, frames⟩ := Aio.applied_spec a.callbacks w
      obtain ⟨page', disk', frames'⟩ := ih (a.applied w)
      refine ⟨page'.trans page, disk'.trans disk, fun m => ?_⟩
      simp only [appliedAll, List.foldl_cons] at frames' ⊢
      rw [show Aio.applied (w.withData m) a = (Aio.applied w a).withData (a.onData w.page m) from frames m,
        frames', show (Aio.applied w a).page = w.page from page]

/-- **The finishing loop** of requests that all succeed. -/
theorem finishEach_success (pairs : List (Aio × Option IoEvent)) : ∀ w : Worker,
    (∀ pair ∈ pairs, pair.1.Prepared ∧ (pair.1.given pair.2).success = true) →
      finishEach pairs w =
        (w.appliedAll (pairs.map Prod.fst), reports w.page (pairs.map Prod.fst) w.pagecache.data) := by
  induction pairs with
  | nil => exact fun _ _ => rfl
  | cons pair rest ih =>
      obtain ⟨a, event⟩ := pair
      intro w all
      obtain ⟨prepared, success⟩ := all (a, event) (List.mem_cons_self ..)
      have later := ih (a.applied w) fun pair member => all pair (List.mem_cons_of_mem _ member)
      obtain ⟨page, -, frames⟩ := Aio.applied_spec a.callbacks w
      have data : (a.applied w).pagecache.data = a.onData w.page w.pagecache.data :=
        congrArg (fun w => w.pagecache.data) (frames w.pagecache.data)
      rw [show (Aio.applied w a).page = w.page from page, data] at later
      simp only [finishEach, w.finish_success prepared success, later, List.map_cons, reports]
      rfl

end Worker

/-! ## Orders of execution -/

theorem length_handed (queue : List Aio) : ∀ events : List IoEvent,
    (handed queue events).length = queue.length := by
  induction queue with
  | nil => exact fun _ => rfl
  | cons a rest ih =>
      intro events
      unfold handed
      split
      · rw [List.length_cons, List.length_cons, ih]
      · rw [List.length_cons, List.length_cons, ih]

/-- The event of a request among those of an execution. -/
def Aio.eventIn (a : Aio) (events : List IoEvent) : IoEvent := (a.ownEvent events).getD ⟨a.self, 0⟩

/-- Executes the requests in the order `order`, each in full, and reports their events in
the order `report`. -/
def Kernel.executing (order report : List Aio) : Kernel := fun disk memory _ =>
  let ran := Kernel.inOrder disk memory order
  (ran.1, ran.2.1, report.map fun a => a.eventIn ran.2.2)

namespace Worker

/-- Every request of the round is finished as a success by the events of this execution. -/
def AllSucceed (w : Worker) (order report : List Aio) : Prop :=
  ∀ pair ∈ w.ioQueue.zip (handed w.ioQueue (report.map fun a =>
      a.eventIn (Kernel.inOrder w.disk w.pagecache.data order).2.2)),
    (pair.1.given pair.2).success = true

instance (w : Worker) (order report : List Aio) : Decidable (w.AllSucceed order report) :=
  inferInstanceAs (Decidable (∀ pair ∈ _, _))

/-- The files after an execution. -/
def diskAfter (w : Worker) (order : List Aio) : Disk := order.foldl (fun disk a => a.performDisk disk) w.disk

/-- The frames after an execution, before the finishing loop. -/
def dataAfter (w : Worker) (order : List Aio) : Memory := loads order w.disk w.pagecache.data

section Executing

variable {w : Worker} {order : List Aio} (prepared : ∀ a ∈ w.ioQueue, a.Prepared)
  (perm : order.Perm w.iocbs)

include perm

theorem mem_queue_of_order {a : Aio} (member : a ∈ order) : a ∈ w.ioQueue ∧ a.submit = true := by
  have inIocbs := perm.mem_iff.mp member
  rw [iocbs, List.mem_filter] at inIocbs
  exact inIocbs

include prepared

theorem inOrder_order :
    (Kernel.inOrder w.disk w.pagecache.data order).1 = w.diskAfter order ∧
      (Kernel.inOrder w.disk w.pagecache.data order).2.1 = w.dataAfter order := by
  have spec := inOrder_spec order w.disk w.pagecache.data fun a member =>
    prepared a (mem_queue_of_order perm member).1
  have all : order.filter Aio.submit = order := by
    rw [List.filter_eq_self]
    exact fun a member => (mem_queue_of_order perm member).2
  rwa [all] at spec

/-- **The end of a round**, by the files and the frames the execution leaves. -/
theorem settle_executing (fresh : w.Fresh) {report : List Aio} (reported : report.Perm w.iocbs)
    (succeed : w.AllSucceed order report) :
    w.settle (.executing order report) =
      ((({ w.setDisk (w.diskAfter order) with ioQueue := [] } : Worker).appliedAll w.ioQueue).withData
          (w.ioQueue.foldl (Aio.onData w.page) (w.dataAfter order)),
        reports w.page w.ioQueue (w.dataAfter order)) := by
  obtain ⟨diskIs, dataIs⟩ := inOrder_order prepared perm
  let events : List IoEvent := report.map fun a =>
    a.eventIn (Kernel.inOrder w.disk w.pagecache.data order).2.2
  let base : Worker := { w.setDisk (w.diskAfter order) with ioQueue := [] }
  have performed : w.performIo (.executing order report) = (base.withData (w.dataAfter order), events) := by
    unfold performIo
    by_cases none' : w.iocbs = []
    · rw [none'] at perm reported
      cases perm.eq_nil
      cases reported.eq_nil
      have noIocbs : w.ioQueue.filter Aio.submit = [] := none'
      rw [noIocbs]
      rfl
    · have some' : (w.ioQueue.filter Aio.submit).isEmpty = false :=
        List.isEmpty_eq_false_iff.mpr none'
      simp only [some', Bool.false_eq_true, if_false, Kernel.executing, diskIs, dataIs]
      rfl
  have queue : (w.ioQueue.zip (handed w.ioQueue events)).map Prod.fst = w.ioQueue :=
    List.map_fst_zip (length_handed w.ioQueue events).ge
  rw [settle_eq, finishAll_eq_finishEach _ _ _ fresh.events, performed, finishEach_success, queue]
  · obtain ⟨-, -, frames⟩ := appliedAll_spec w.ioQueue base
    rw [frames]
    rfl
  · exact fun pair member => ⟨prepared pair.1 (List.of_mem_zip member).1, succeed pair member⟩

end Executing

/-- Two executions end a round alike if they leave the same files, the same frames behind the
callbacks, and the same answers. -/
theorem settle_executing_eq_iff {w : Worker} {first second : List Aio}
    (prepared : ∀ a ∈ w.ioQueue, a.Prepared) (fresh : w.Fresh) (perm : first.Perm w.iocbs)
    (perm' : second.Perm w.iocbs) {report report' : List Aio} (reported : report.Perm w.iocbs)
    (reported' : report'.Perm w.iocbs) (succeed : w.AllSucceed first report)
    (succeed' : w.AllSucceed second report') :
    w.settle (.executing first report) = w.settle (.executing second report') ↔
      w.diskAfter first = w.diskAfter second ∧
      w.ioQueue.foldl (Aio.onData w.page) (w.dataAfter first) =
        w.ioQueue.foldl (Aio.onData w.page) (w.dataAfter second) ∧
      reports w.page w.ioQueue (w.dataAfter first) = reports w.page w.ioQueue (w.dataAfter second) := by
  rw [settle_executing prepared perm fresh reported succeed,
    settle_executing prepared perm' fresh reported' succeed']
  constructor
  · intro same
    obtain ⟨workers, effects⟩ := Prod.mk.inj same
    refine ⟨?_, congrArg (fun w => w.pagecache.data) workers, effects⟩
    have disks := congrArg Worker.disk workers
    rw [withData_disk, withData_disk, (appliedAll_spec _ _).2.1, (appliedAll_spec _ _).2.1] at disks
    exact disks
  · rintro ⟨disks, frames, effects⟩
    rw [disks, frames, effects]

end Worker

end KTableFS.Kvengine
