/-
# Kvengine.IoOrder -- the order in which the kernel executes a round's I/O

`io_submit` hands the kernel all the requests of a round at once, and the kernel may
execute them in any order.  `Main_` queues them as if they were executed one after the
other: nothing keeps two requests of a round from touching the same bytes.

* Two writes to a slab (two UPDATEs of a key; a DELETE and the PUT that gets its slab):
  the one that is executed last stays.
* A page load and a write to the page: the frame gets the bytes from before the write or
  from behind it.  A completion callback repairs the frame if the write found the page
  cached; a GET that is finished before it sees what the kernel made of it.

`Worker.Unconflicted` says that neither happens to a round, byte by byte; `Worker.Racy`
are the bytes of the frames that depend on the order.  `io_order_free_iff`: without
conflicts every order ends the round alike, and with one some order can be told from
another, except that a read may find its value at two places (`RacyKeySize`).
-/
import KTableFS.Kvengine.Finishing
import KTableFS.Kvengine.Arrival

namespace KTableFS.Kvengine

open KTableFS.Theory

set_option autoImplicit false

/-! ## Conflicts -/

/-- The request writes byte `i` of the file. -/
def Aio.Covers (a : Aio) (file i : Nat) : Prop :=
  a.opcode = .pwrite ∧ a.fildes = file ∧ a.offset ≤ i ∧ i < a.offset + a.data.length

/-- The bytes a read looks at, for frames `m`: the size of the value, and the size of
the key and the value unless that is empty. -/
def Aio.LooksAt (a : Aio) (m : Memory) (x : Nat) : Prop :=
  let data := a.frame + a.readOff
  let keySize := loadLE (cut m (data + 2) 2)
  let valueSize := loadLE (cut m (data + 4) 2)
  data + 4 ≤ x ∧ x < data + 6 ∨
    valueSize ≠ 0 ∧ (data + 2 ≤ x ∧ x < data + 4 ∨
      data + 6 + keySize ≤ x ∧ x < data + 6 + keySize + valueSize)

namespace Worker

/-- A byte of the frames that some load of the round brings in differently when it is
executed behind some write of the round. -/
def Racy (w : Worker) (x : Nat) : Prop :=
  ∃ r ∈ w.iocbs, ∃ a ∈ w.iocbs,
    r.performMemory (a.performDisk w.disk) w.pagecache.data x ≠ r.performMemory w.disk w.pagecache.data x

/-- A completion callback of these requests writes the byte. -/
def Overwrites (w : Worker) (queue : List Aio) (x : Nat) : Prop :=
  ∃ a ∈ queue, ∃ ent data off, .cacheWrite ent data off ∈ a.callbacks ∧
    w.page ent + off ≤ x ∧ x < w.page ent + off + data.length

/-- The round's requests are not in each other's way. -/
structure Unconflicted (w : Worker) : Prop where
  /-- Writes agree where they overlap. -/
  writes : ∀ a ∈ w.iocbs, ∀ b ∈ w.iocbs, ∀ file i, a.Covers file i → b.Covers file i →
    a.data.getD (i - a.offset) 0 = b.data.getD (i - b.offset) 0
  /-- A callback of the round overwrites what a load may have brought in. -/
  frames : ∀ x, w.Racy x → w.Overwrites w.ioQueue x
  /-- It does so before a read that answers a client looks at it. -/
  reads : ∀ before g after, w.ioQueue = before ++ g :: after → g.opcode = .pread →
    g.batch.requests = [] → ∀ x, g.LooksAt (before.foldl (Aio.onData w.page) w.loadedData) x →
      w.Racy x → w.Overwrites before x

/-- A read that answers a client finds a value, and the size of its key racy. -/
def RacyKeySize (w : Worker) : Prop :=
  ∃ before g after, w.ioQueue = before ++ g :: after ∧ g.opcode = .pread ∧ g.batch.requests = [] ∧
    loadLE (cut (before.foldl (Aio.onData w.page) w.loadedData) (g.frame + g.readOff + 4) 2) ≠ 0 ∧
    ∃ x, g.frame + g.readOff + 2 ≤ x ∧ x < g.frame + g.readOff + 4 ∧ w.Racy x ∧ ¬ w.Overwrites before x

/-- Any two executions in which all requests succeed end the round alike. -/
def OrderFree (w : Worker) : Prop :=
  ∀ first second report report' : List Aio, first.Perm w.iocbs → second.Perm w.iocbs →
    report.Perm w.iocbs → report'.Perm w.iocbs → w.AllSucceed first report →
    w.AllSucceed second report' → w.settle (.executing first report) = w.settle (.executing second report')

end Worker

/-! ## The files -/

/-- Writes that agree where they overlap commute. -/
theorem performDisk_comm {a b : Aio} (agree : ∀ file i, a.Covers file i → b.Covers file i →
      a.data.getD (i - a.offset) 0 = b.data.getD (i - b.offset) 0) (disk : Disk) :
    b.performDisk (a.performDisk disk) = a.performDisk (b.performDisk disk) := by
  cases isA : a.opcode with
  | pread => simp only [Aio.performDisk, isA]
  | pwrite =>
      cases isB : b.opcode with
      | pread => simp only [Aio.performDisk, isB]
      | pwrite =>
          simp only [Aio.performDisk, isA, isB]
          by_cases same : a.fildes = b.fildes
          · rw [same, Function.update_self, Function.update_self, Function.update_idem,
              Function.update_idem]
            congr 1
            apply ByteFile.pwrite_comm
            intro i low high low' high'
            exact agree b.fildes i ⟨isA, same, low, high⟩ ⟨isB, rfl, low', high'⟩
          · rw [Function.update_of_ne (Ne.symm same), Function.update_of_ne same,
              Function.update_comm same]

/-- The files do not depend on the order. -/
theorem diskAfter_eq {w : Worker} {order : List Aio} (perm : order.Perm w.iocbs)
    (agree : ∀ a ∈ w.iocbs, ∀ b ∈ w.iocbs, ∀ file i, a.Covers file i → b.Covers file i →
      a.data.getD (i - a.offset) 0 = b.data.getD (i - b.offset) 0) :
    w.diskAfter order = w.diskAfter w.iocbs :=
  perm.foldl_eq' (fun a inOrder b inOrder' disk =>
    performDisk_comm (agree a (perm.mem_iff.mp inOrder) b (perm.mem_iff.mp inOrder')) disk) w.disk

/-! ## The frames -/

/-- A load changes its frame only. -/
theorem performMemory_outside {r : Aio} {x : Nat} (outside : x < r.frame ∨ r.frame + r.nbytes ≤ x)
    (disk : Disk) (memory : Memory) : r.performMemory disk memory x = memory x := by
  cases opcode : r.opcode with
  | pwrite => simp only [Aio.performMemory, opcode]
  | pread =>
    simp only [Aio.performMemory, opcode]
    have short : (disk r.fildes).preadCount r.nbytes r.offset ≤ r.nbytes := Nat.min_le_left ..
    apply blit_outside
    rw [ByteFile.length_pread]
    omega

/-- What a write does to what is seen of a file. -/
theorem performDisk_seen {a : Aio} {base disk : Disk} {file at' : Nat} {past : UInt8}
    (grown : (base file).size ≤ (disk file).size)
    (same : (disk file).seen at' past = (base file).seen at' past)
    (alone : (a.performDisk base file).seen at' past = (base file).seen at' past) :
    (base file).size ≤ (a.performDisk disk file).size ∧
      (a.performDisk disk file).seen at' past = (base file).seen at' past := by
  cases opcode : a.opcode with
  | pread =>
      simp only [Aio.performDisk, opcode]
      exact ⟨grown, same⟩
  | pwrite =>
      simp only [Aio.performDisk, opcode] at alone ⊢
      by_cases own : file = a.fildes
      · subst own
        rw [Function.update_self] at alone ⊢
        exact ⟨grown.trans (ByteFile.size_le_pwrite ..), ByteFile.seen_pwrite grown same alone⟩
      · rw [Function.update_of_ne own]
        exact ⟨grown, same⟩

/-- What a load brings in to a byte that no single write changes does not depend on the
writes executed before it. -/
theorem performMemory_fold {r : Aio} {disk : Disk} {memory : Memory} {x : Nat} {queue : List Aio}
    (each : ∀ a ∈ queue, r.performMemory (a.performDisk disk) memory x = r.performMemory disk memory x) :
    r.performMemory (queue.foldl (fun disk a => a.performDisk disk) disk) memory x =
      r.performMemory disk memory x := by
  cases opcode : r.opcode with
  | pwrite => simp only [Aio.performMemory, opcode]
  | pread =>
      by_cases inside : r.frame ≤ x ∧ x < r.frame + r.nbytes
      · obtain ⟨i, rfl⟩ := Nat.exists_eq_add_of_le inside.1
        have within : i < r.nbytes := by omega
        simp only [Aio.performMemory, opcode, ByteFile.blit_pread_eq _ _ within] at each ⊢
        have kept : ∀ (queue : List Aio) (now : Disk), (∀ a ∈ queue,
            (a.performDisk disk r.fildes).seen (r.offset + i) (memory (r.frame + i)) =
              (disk r.fildes).seen (r.offset + i) (memory (r.frame + i))) →
            (disk r.fildes).size ≤ (now r.fildes).size →
            (now r.fildes).seen (r.offset + i) (memory (r.frame + i)) =
              (disk r.fildes).seen (r.offset + i) (memory (r.frame + i)) →
            (queue.foldl (fun disk a => a.performDisk disk) now r.fildes).seen (r.offset + i)
                (memory (r.frame + i)) =
              (disk r.fildes).seen (r.offset + i) (memory (r.frame + i)) := by
          intro queue
          induction queue with
          | nil => exact fun _ _ _ same => same
          | cons a rest ih =>
              intro now all grown same
              obtain ⟨grown', same'⟩ := performDisk_seen grown same (all a (List.mem_cons_self ..))
              exact ih _ (fun b member => all b (List.mem_cons_of_mem _ member)) grown' same'
        exact kept queue disk each le_rfl rfl
      · rw [performMemory_outside (by omega), performMemory_outside (by omega)]

/-- The loads of a round fill frames that do not overlap. -/
def Worker.Apart (w : Worker) : Prop :=
  w.iocbs.Pairwise fun a b => a.opcode = .pread → b.opcode = .pread →
    a.frame + a.nbytes ≤ b.frame ∨ b.frame + b.nbytes ≤ a.frame

theorem loads_outside {x : Nat} (queue : List Aio) : ∀ (disk : Disk) (memory : Memory),
    (∀ a ∈ queue, a.opcode = .pread → x < a.frame ∨ a.frame + a.nbytes ≤ x) →
      loads queue disk memory x = memory x := by
  induction queue with
  | nil => exact fun _ _ _ => rfl
  | cons a rest ih =>
      intro disk memory outside
      have here : a.load disk memory x = memory x := by
        unfold Aio.load
        split
        · cases opcode : a.opcode with
          | pread => exact performMemory_outside (outside a (List.mem_cons_self ..) opcode) disk memory
          | pwrite => simp only [Aio.performMemory, opcode]
        · rfl
      rw [loads, ih _ _ fun b member => outside b (List.mem_cons_of_mem _ member), here]

theorem performMemory_congr {r : Aio} {disk : Disk} {memory memory' : Memory} {x : Nat}
    (same : memory x = memory' x) : r.performMemory disk memory x = r.performMemory disk memory' x := by
  cases opcode : r.opcode with
  | pread =>
      simp only [Aio.performMemory, opcode]
      exact blit_congr same
  | pwrite =>
      simp only [Aio.performMemory, opcode]
      exact same

section Frames

variable {w : Worker} {order : List Aio} (perm : order.Perm w.iocbs) (apart : w.Apart)

include perm apart

/-- The bytes of a load's frame come from the files at its turn. -/
theorem dataAfter_load {before after : List Aio} {r : Aio} {x : Nat} (shape : order = before ++ r :: after)
    (isRead : r.opcode = .pread) (inside : r.frame ≤ x ∧ x < r.frame + r.nbytes) :
    w.dataAfter order x =
      r.performMemory (before.foldl (fun disk a => a.performDisk disk) w.disk) w.pagecache.data x := by
  have pairwise : order.Pairwise fun a b => a.opcode = .pread → b.opcode = .pread →
      a.frame + a.nbytes ≤ b.frame ∨ b.frame + b.nbytes ≤ a.frame := by
    refine (List.Perm.pairwise_iff ?_ perm).mpr apart
    intro a b far isB isA
    exact (far isA isB).symm
  rw [shape, List.pairwise_append, List.pairwise_cons] at pairwise
  obtain ⟨-, ⟨behind, -⟩, ahead⟩ := pairwise
  have submitted : r.submit = true :=
    (Worker.mem_queue_of_order perm (by rw [shape]; simp)).2
  rw [Worker.dataAfter, shape, loads_append, loads, loads_outside after, Aio.load, if_pos submitted]
  · apply performMemory_congr
    apply loads_outside before
    intro a member isRead'
    have far := ahead a member r (List.mem_cons_self ..) isRead' isRead
    omega
  · intro a member isRead'
    have far := behind a member isRead isRead'
    omega

/-- A byte that is not racy does not depend on the order. -/
theorem dataAfter_eq {x : Nat} (calm : ¬ w.Racy x) : w.dataAfter order x = w.dataAfter w.iocbs x := by
  by_cases loaded : ∃ r ∈ w.iocbs, r.opcode = .pread ∧ r.frame ≤ x ∧ x < r.frame + r.nbytes
  · obtain ⟨r, member, isRead, inside⟩ := loaded
    have brought : ∀ {order : List Aio}, order.Perm w.iocbs →
        w.dataAfter order x = r.performMemory w.disk w.pagecache.data x := by
      intro order perm
      obtain ⟨before, after, shape⟩ := List.append_of_mem (perm.mem_iff.mpr member)
      rw [dataAfter_load perm apart shape isRead inside]
      apply performMemory_fold
      intro a early
      by_contra differ
      refine calm ⟨r, member, a, perm.mem_iff.mp ?_, differ⟩
      rw [shape]
      exact List.mem_append_left _ early
    rw [brought perm, brought (List.Perm.refl _)]
  · have untouched : ∀ {order : List Aio}, order.Perm w.iocbs →
        w.dataAfter order x = w.pagecache.data x := by
      intro order perm
      apply loads_outside
      intro a member isRead
      by_contra inside
      exact loaded ⟨a, perm.mem_iff.mp member, isRead, by omega, by omega⟩
    rw [untouched perm, untouched (List.Perm.refl _)]

end Frames

/-! ## The finishing loop -/

/-- A request's callbacks make a byte what it was, or what they write. -/
theorem onData_congr {page : Nat → Nat} {x : Nat} (callbacks : List Callback) :
    ∀ {m m' : Memory}, (m x = m' x ∨ ∃ ent data off, .cacheWrite ent data off ∈ callbacks ∧
        page ent + off ≤ x ∧ x < page ent + off + data.length) →
      callbacks.foldl (Callback.onData page) m x = callbacks.foldl (Callback.onData page) m' x := by
  induction callbacks with
  | nil =>
      rintro m m' (same | ⟨_, _, _, member, -⟩)
      · exact same
      · cases member
  | cons c rest ih =>
      intro m m' settled
      rw [List.foldl_cons, List.foldl_cons]
      apply ih
      rcases settled with same | ⟨ent, data, off, member, low, high⟩
      · left
        cases c with
        | cacheWrite ent data off => exact blit_congr same
        | _ => exact same
      · rcases List.mem_cons.mp member with rfl | later
        · left
          simp only [Callback.onData]
          rw [blit_inside _ low high, blit_inside _ low high]
        · exact Or.inr ⟨ent, data, off, later, low, high⟩

/-- Frames that agree on what the callbacks of `queue` do not write agree behind them. -/
theorem foldl_onData_agree {w : Worker} {x : Nat} (queue : List Aio) : ∀ {m m' : Memory},
    (m x = m' x ∨ w.Overwrites queue x) →
      queue.foldl (Aio.onData w.page) m x = queue.foldl (Aio.onData w.page) m' x := by
  induction queue with
  | nil =>
      rintro m m' (same | ⟨_, member, -⟩)
      · exact same
      · cases member
  | cons a rest ih =>
      intro m m' settled
      rw [List.foldl_cons, List.foldl_cons]
      apply ih
      rcases settled with same | ⟨b, member, write⟩
      · exact Or.inl (onData_congr a.callbacks (Or.inl same))
      · rcases List.mem_cons.mp member with rfl | later
        · exact Or.inl (onData_congr b.callbacks (Or.inr write))
        · exact Or.inr ⟨b, later, write⟩

/-- A read depends on the bytes it looks at. -/
theorem valueAt_congr {g : Aio} {m m' : Memory} (same : ∀ x, g.LooksAt m x → m x = m' x) :
    g.valueAt m = g.valueAt m' := by
  have sizes : cut m (g.frame + g.readOff + 4) 2 = cut m' (g.frame + g.readOff + 4) 2 :=
    cut_congr fun i below => same _ (Or.inl ⟨by omega, by omega⟩)
  unfold Aio.valueAt
  simp only [← sizes]
  by_cases empty : loadLE (cut m (g.frame + g.readOff + 4) 2) = 0
  · rw [empty]
    rfl
  · have keys : cut m (g.frame + g.readOff + 2) 2 = cut m' (g.frame + g.readOff + 2) 2 :=
      cut_congr fun i below => same _ (Or.inr ⟨empty, Or.inl ⟨by omega, by omega⟩⟩)
    rw [← keys]
    apply cut_congr
    intro i below
    exact same _ (Or.inr ⟨empty, Or.inr ⟨by omega, by omega⟩⟩)

/-- Answers agree when every read that answers a client delivers the same. -/
theorem reports_eq_iff {page : Nat → Nat} (queue : List Aio) : ∀ {m m' : Memory},
    reports page queue m = reports page queue m' ↔
      ∀ before g after, queue = before ++ g :: after → g.opcode = .pread → g.batch.requests = [] →
        g.valueAt (before.foldl (Aio.onData page) m) = g.valueAt (before.foldl (Aio.onData page) m') := by
  induction queue with
  | nil => simp [reports]
  | cons a rest ih =>
      intro m m'
      have head : a.reply m = a.reply m' ↔
          (a.opcode = .pread → a.batch.requests = [] → a.valueAt m = a.valueAt m') := by
        cases opcode : a.opcode with
        | pread =>
            by_cases answered : a.batch.requests = []
            · simp [Aio.reply, opcode, Batch.finishRequest, answered]
            · simp [Aio.reply, opcode, Batch.finishRequest, answered]
        | pwrite => simp [Aio.reply, opcode]
      rw [reports, reports, List.cons.injEq, head, ih]
      constructor
      · rintro ⟨first, later⟩ before g after shape isRead answered
        cases before with
        | nil =>
            cases shape
            exact first isRead answered
        | cons b before =>
            cases shape
            exact later before g after rfl isRead answered
      · intro each
        refine ⟨each [] a rest rfl, fun before g after shape => ?_⟩
        exact each (a :: before) g after (by rw [shape]; rfl)

/-- The frames of the round as the queue was submitted. -/
theorem loadedData_eq {w : Worker} (prepared : ∀ a ∈ w.ioQueue, a.Prepared) :
    w.loadedData = w.dataAfter w.iocbs :=
  (Worker.inOrder_spec w.ioQueue w.disk w.pagecache.data prepared).2.symm.trans
    (Worker.inOrder_order prepared (List.Perm.refl _)).2

section OrderFree

variable {w : Worker} (prepared : ∀ a ∈ w.ioQueue, a.Prepared) (fresh : w.Fresh) (apart : w.Apart)

include apart in
/-- Behind a part of the queue, bytes that are settled by then do not depend on the order. -/
theorem settled_agree {first second : List Aio} (perm : first.Perm w.iocbs) (perm' : second.Perm w.iocbs)
    {queue : List Aio} {x : Nat} (settled : w.Racy x → w.Overwrites queue x) :
    queue.foldl (Aio.onData w.page) (w.dataAfter first) x =
      queue.foldl (Aio.onData w.page) (w.dataAfter second) x := by
  apply foldl_onData_agree
  by_cases racy : w.Racy x
  · exact Or.inr (settled racy)
  · exact Or.inl ((dataAfter_eq perm apart racy).trans (dataAfter_eq perm' apart racy).symm)

include prepared fresh apart

/-- **Without conflicts the order cannot be seen.** -/
theorem Worker.Unconflicted.orderFree (free : w.Unconflicted) : w.OrderFree := by
  intro first second report report' perm perm' reported reported' succeed succeed'
  refine (settle_executing_eq_iff prepared fresh perm perm' reported reported' succeed succeed').mpr
    ⟨(diskAfter_eq perm free.writes).trans (diskAfter_eq perm' free.writes).symm, ?_, ?_⟩
  · funext x
    exact settled_agree apart perm perm' (free.frames x)
  · -- both executions deliver what the order of submission does
    have submitted : ∀ {order : List Aio}, order.Perm w.iocbs →
        reports w.page w.ioQueue (w.dataAfter w.iocbs) = reports w.page w.ioQueue (w.dataAfter order) := by
      intro order perm
      rw [reports_eq_iff]
      intro before g after shape isRead answered
      apply valueAt_congr
      intro x looks
      rw [← loadedData_eq prepared] at looks
      exact settled_agree apart (.refl _) perm (free.reads before g after shape isRead answered x looks)
    exact (submitted perm).symm.trans (submitted perm')

end OrderFree

/-! ## Conflicts can be seen -/

/-- A write leaves its bytes. -/
theorem performDisk_covered {a : Aio} {file i : Nat} (covers : a.Covers file i) (disk : Disk) :
    (a.performDisk disk file).byte i = a.data.getD (i - a.offset) 0 := by
  obtain ⟨isWrite, rfl, low, high⟩ := covers
  simp only [Aio.performDisk, isWrite, Function.update_self, ByteFile.pwrite_byte]
  exact blit_inside _ low high

/-- A byte that no callback writes stays. -/
theorem foldl_onData_kept {w : Worker} {x : Nat} (queue : List Aio) : ∀ {m : Memory},
    ¬ w.Overwrites queue x → queue.foldl (Aio.onData w.page) m x = m x := by
  have callbacks : ∀ (callbacks : List Callback) (m : Memory),
      (¬ ∃ ent data off, .cacheWrite ent data off ∈ callbacks ∧
        w.page ent + off ≤ x ∧ x < w.page ent + off + data.length) →
      callbacks.foldl (Callback.onData w.page) m x = m x := by
    intro callbacks
    induction callbacks with
    | nil => exact fun _ _ => rfl
    | cons c rest ih =>
        intro m none'
        rw [List.foldl_cons, ih _ fun ⟨ent, data, off, member, inside⟩ =>
          none' ⟨ent, data, off, List.mem_cons_of_mem _ member, inside⟩]
        cases c with
        | cacheWrite ent data off =>
            apply blit_outside
            by_contra inside
            exact none' ⟨ent, data, off, List.mem_cons_self .., by omega, by omega⟩
        | _ => rfl
  induction queue with
  | nil => exact fun _ => rfl
  | cons a rest ih =>
      intro m none'
      rw [List.foldl_cons, ih fun ⟨b, member, write⟩ => none' ⟨b, List.mem_cons_of_mem _ member, write⟩]
      exact callbacks a.callbacks m fun write => none' ⟨a, List.mem_cons_self .., write⟩

/-- What makes a byte racy is a write and a load of it. -/
theorem Worker.Racy.requests {w : Worker} {x : Nat} (racy : w.Racy x) : ∃ r ∈ w.iocbs, ∃ a ∈ w.iocbs,
    r.opcode = .pread ∧ a.opcode = .pwrite ∧ r.frame ≤ x ∧ x < r.frame + r.nbytes ∧
      r.performMemory (a.performDisk w.disk) w.pagecache.data x ≠
        r.performMemory w.disk w.pagecache.data x := by
  obtain ⟨r, member, a, member', differ⟩ := racy
  refine ⟨r, member, a, member', ?_, ?_, ?_, ?_, differ⟩
  · cases opcode : r.opcode with
    | pread => rfl
    | pwrite => simp [Aio.performMemory, opcode] at differ
  · cases opcode : a.opcode with
    | pread => simp [Aio.performDisk, opcode] at differ
    | pwrite => rfl
  · by_contra below
    exact differ (by rw [performMemory_outside (by omega), performMemory_outside (by omega)])
  · by_contra above
    exact differ (by rw [performMemory_outside (by omega), performMemory_outside (by omega)])

/-- Two orders bring different bytes in to a racy byte. -/
theorem Worker.Racy.orders {w : Worker} (apart : w.Apart) {x : Nat} (racy : w.Racy x) :
    ∃ first second, first.Perm w.iocbs ∧ second.Perm w.iocbs ∧ w.dataAfter first x ≠ w.dataAfter second x := by
  obtain ⟨r, member, a, member', isRead, isWrite, low, high, differ⟩ := racy.requests
  have apart' : a ≠ r := by
    rintro rfl
    rw [isRead] at isWrite
    cases isWrite
  obtain ⟨rest, perm⟩ := exists_perm_cons_cons member' member apart'
  have perm' : (r :: a :: rest).Perm w.iocbs := (List.Perm.swap a r rest).trans perm
  refine ⟨a :: r :: rest, r :: a :: rest, perm, perm', ?_⟩
  rw [dataAfter_load perm apart (show _ = [a] ++ r :: rest from rfl) isRead ⟨low, high⟩,
    dataAfter_load perm' apart (show _ = [] ++ r :: a :: rest from rfl) isRead ⟨low, high⟩]
  exact differ

section Seen

variable {w : Worker} (prepared : ∀ a ∈ w.ioQueue, a.Prepared) (fresh : w.Fresh) (apart : w.Apart)
  (succeeding : ∀ order : List Aio, order.Perm w.iocbs → w.AllSucceed order w.iocbs) (free : w.OrderFree)

include prepared fresh succeeding free

/-- What two orders have in common if the round does not depend on the order. -/
theorem Worker.OrderFree.alike {first second : List Aio} (perm : first.Perm w.iocbs)
    (perm' : second.Perm w.iocbs) :
    w.diskAfter first = w.diskAfter second ∧
      w.ioQueue.foldl (Aio.onData w.page) (w.dataAfter first) =
        w.ioQueue.foldl (Aio.onData w.page) (w.dataAfter second) ∧
      reports w.page w.ioQueue (w.dataAfter first) = reports w.page w.ioQueue (w.dataAfter second) := by
  have done := succeeding first perm
  have done' := succeeding second perm'
  have whole : w.iocbs.Perm w.iocbs := .refl _
  exact (settle_executing_eq_iff prepared fresh perm perm' whole whole done done').mp
    (free first second _ _ perm perm' whole whole done done')

/-- Of two writes that disagree, the last stays. -/
theorem Worker.OrderFree.writes {a b : Aio} (member : a ∈ w.iocbs) (member' : b ∈ w.iocbs) {file i : Nat}
    (covers : a.Covers file i) (covers' : b.Covers file i) :
    a.data.getD (i - a.offset) 0 = b.data.getD (i - b.offset) 0 := by
  by_cases same : a = b
  · rw [same]
  · obtain ⟨rest, perm⟩ := exists_perm_cons_cons member member' same
    have first : (rest ++ [b, a]).Perm w.iocbs :=
      List.perm_append_comm.trans ((List.Perm.swap a b rest).trans perm)
    have second : (rest ++ [a, b]).Perm w.iocbs := List.perm_append_comm.trans perm
    obtain ⟨disks, -, -⟩ := free.alike prepared fresh succeeding first second
    have bytes := congrArg (fun disk : Disk => (disk file).byte i) disks
    simp only [Worker.diskAfter, List.foldl_append, List.foldl_cons, List.foldl_nil,
      performDisk_covered covers, performDisk_covered covers'] at bytes
    exact bytes

include apart

/-- A racy byte is overwritten. -/
theorem Worker.OrderFree.frames {x : Nat} (racy : w.Racy x) : w.Overwrites w.ioQueue x := by
  by_contra kept
  obtain ⟨first, second, perm, perm', differ⟩ := racy.orders apart
  obtain ⟨-, frames, -⟩ := free.alike prepared fresh succeeding perm perm'
  have bytes := congrFun frames x
  rw [foldl_onData_kept _ kept, foldl_onData_kept _ kept] at bytes
  exact differ bytes

variable {before after : List Aio} {g : Aio} (shape : w.ioQueue = before ++ g :: after)
  (isRead : g.opcode = .pread) (answered : g.batch.requests = [])

include shape isRead answered

/-- The size of a value a client gets is settled when the read looks at it. -/
theorem Worker.OrderFree.valueSize {x : Nat} (low : g.frame + g.readOff + 4 ≤ x)
    (high : x < g.frame + g.readOff + 6) (racy : w.Racy x) : w.Overwrites before x := by
  by_contra kept
  obtain ⟨first, second, perm, perm', differ⟩ := racy.orders apart
  obtain ⟨-, -, answers⟩ := free.alike prepared fresh succeeding perm perm'
  have values := (reports_eq_iff _).mp answers before g after shape isRead answered
  have lengths := congrArg List.length values
  simp only [Aio.valueAt, length_cut] at lengths
  have sizes := loadLE_inj (by rw [length_cut, length_cut]) lengths
  have bytes := cut_inj sizes low (by omega)
  rw [foldl_onData_kept _ kept, foldl_onData_kept _ kept] at bytes
  exact differ bytes

/-- So are its bytes, if the size of its key is. -/
theorem Worker.OrderFree.value
    (keySize : ∀ x, g.frame + g.readOff + 2 ≤ x → x < g.frame + g.readOff + 4 → w.Racy x →
      w.Overwrites before x)
    {x : Nat} (looks : g.LooksAt (before.foldl (Aio.onData w.page) w.loadedData) x) (racy : w.Racy x) :
    w.Overwrites before x := by
  have valueSize : ∀ x, g.frame + g.readOff + 4 ≤ x → x < g.frame + g.readOff + 6 → w.Racy x →
      w.Overwrites before x :=
    fun x low high => free.valueSize prepared fresh apart succeeding shape isRead answered low high
  rcases looks with ⟨low, high⟩ | ⟨-, ⟨low, high⟩ | ⟨low, high⟩⟩
  · exact valueSize x low high racy
  · exact keySize x low high racy
  · by_contra kept
    obtain ⟨first, second, perm, perm', differ⟩ := racy.orders apart
    obtain ⟨-, -, answers⟩ := free.alike prepared fresh succeeding perm perm'
    have values := (reports_eq_iff _).mp answers before g after shape isRead answered
    -- every order finds the sizes that the order of submission finds
    have sizes : ∀ {order : List Aio}, order.Perm w.iocbs →
        cut (before.foldl (Aio.onData w.page) (w.dataAfter order)) (g.frame + g.readOff + 2) 2 =
          cut (before.foldl (Aio.onData w.page) w.loadedData) (g.frame + g.readOff + 2) 2 ∧
        cut (before.foldl (Aio.onData w.page) (w.dataAfter order)) (g.frame + g.readOff + 4) 2 =
          cut (before.foldl (Aio.onData w.page) w.loadedData) (g.frame + g.readOff + 4) 2 := by
      intro order perm
      rw [loadedData_eq prepared]
      constructor
      · apply cut_congr
        intro i below
        exact settled_agree apart perm (.refl _) (keySize _ (by omega) (by omega))
      · apply cut_congr
        intro i below
        exact settled_agree apart perm (.refl _) (valueSize _ (by omega) (by omega))
    obtain ⟨key, value⟩ := sizes perm
    obtain ⟨key', value'⟩ := sizes perm'
    simp only [Aio.valueAt, key, value, key', value'] at values
    have bytes := cut_inj values (i := x) (by omega) (by omega)
    rw [foldl_onData_kept _ kept, foldl_onData_kept _ kept] at bytes
    exact differ bytes

end Seen

/-- **Conflicts can be seen**, unless a client's read finds the size of its key racy. -/
theorem Worker.OrderFree.unconflicted {w : Worker} (prepared : ∀ a ∈ w.ioQueue, a.Prepared)
    (fresh : w.Fresh) (apart : w.Apart)
    (succeeding : ∀ order : List Aio, order.Perm w.iocbs → w.AllSucceed order w.iocbs)
    (free : w.OrderFree) (keySizes : ¬ w.RacyKeySize) : w.Unconflicted where
  writes _ member _ member' _ _ covers covers' :=
    free.writes prepared fresh succeeding member member' covers covers'
  frames _ racy := free.frames prepared fresh apart succeeding racy
  reads before g after shape isRead answered x looks racy := by
    by_cases empty : loadLE (cut (before.foldl (Aio.onData w.page) w.loadedData)
        (g.frame + g.readOff + 4) 2) = 0
    · -- only the size of the value is looked at
      rcases looks with ⟨low, high⟩ | ⟨some', -⟩
      · exact free.valueSize prepared fresh apart succeeding shape isRead answered low high racy
      · exact absurd empty some'
    · refine free.value prepared fresh apart succeeding shape isRead answered ?_ looks racy
      intro x low high racy
      by_contra kept
      exact keySizes ⟨before, g, after, shape, isRead, answered, empty, x, low, high, racy, kept⟩

/-! ## The queue of a round -/

/-- The queued loads fill the frames of entries that wait, each its own. -/
structure Worker.Loading (w : Worker) : Prop where
  filed : w.pagecache.Filed
  prepared : ∀ a ∈ w.ioQueue, a.Prepared
  waits : ∀ a ∈ w.iocbs, a.opcode = .pread → ∃ e < w.pagecache.usedPage,
    a.frame = e * pageSize ∧ a.nbytes = pageSize ∧ (w.pagecache.entry e).wait = true
  apart : w.Apart

namespace Worker.Loading

variable {w : Worker} (loading : w.Loading)

include loading

/-- One more request; a load goes to an entry that did not wait. -/
theorem queue {fs : FileSlab} {a : Aio} (filed : fs.fileSet.pagecache.Filed) (prepared : a.Prepared)
    (waiting : ∀ e < w.pagecache.usedPage, (w.pagecache.entry e).wait = true →
      e < fs.fileSet.pagecache.usedPage ∧ (fs.fileSet.pagecache.entry e).wait = true)
    (load : a.submit = true → a.opcode = .pread → ∃ e < fs.fileSet.pagecache.usedPage,
      a.frame = e * pageSize ∧ a.nbytes = pageSize ∧ (fs.fileSet.pagecache.entry e).wait = true ∧
      (w.pagecache.usedPage ≤ e ∨ (w.pagecache.entry e).wait = false)) :
    (w.queue fs a).Loading := by
  have iocbs : (w.queue fs a).iocbs = w.iocbs ++ [a].filter Aio.submit := List.filter_append ..
  refine ⟨filed, fun b member => ?_, fun b member isRead => ?_, ?_⟩
  · rcases List.mem_append.mp member with old | new
    · exact loading.prepared b old
    · rw [List.mem_singleton.mp new]
      exact prepared
  · rw [iocbs] at member
    rcases List.mem_append.mp member with old | new
    · obtain ⟨e, allocated, frame, nbytes, wait⟩ := loading.waits b old isRead
      obtain ⟨allocated', wait'⟩ := waiting e allocated wait
      exact ⟨e, allocated', frame, nbytes, wait'⟩
    · rw [List.mem_filter, List.mem_singleton] at new
      obtain ⟨rfl, submitted⟩ := new
      obtain ⟨e, allocated, frame, nbytes, wait, -⟩ := load submitted isRead
      exact ⟨e, allocated, frame, nbytes, wait⟩
  · unfold Worker.Apart
    rw [iocbs, List.pairwise_append]
    refine ⟨loading.apart, List.Pairwise.filter _ (List.pairwise_singleton ..), ?_⟩
    intro b old a' new isRead isRead'
    rw [List.mem_filter, List.mem_singleton] at new
    obtain ⟨rfl, submitted⟩ := new
    obtain ⟨e, allocated, frame, nbytes, wait⟩ := loading.waits b old isRead
    obtain ⟨e', -, frame', nbytes', -, idle⟩ := load submitted isRead'
    have other : e ≠ e' := by
      rintro rfl
      rcases idle with beyond | idle
      · omega
      · rw [idle] at wait
        cases wait
    rw [frame, nbytes, frame', nbytes', ← Nat.succ_mul, ← Nat.succ_mul]
    rcases Nat.lt_or_gt_of_ne other with less | more
    · exact Or.inl (Nat.mul_le_mul_right _ less)
    · exact Or.inr (Nat.mul_le_mul_right _ more)

/-- A write moves entries about in the recency list. -/
theorem write {fs : LocalFileSet} {slabs : List SingleFileSlab} {file off : Nat} {data : Slice}
    {aio a : Aio} {files : LocalFileSet} (cache : fs.pagecache = w.pagecache)
    (queued : fs.write file data off aio = some (a, files)) : (w.queue ⟨files, slabs⟩ a).Loading := by
  obtain ⟨-, hit, c, looked, rfl, rfl⟩ := LocalFileSet.write_eq_some queued
  rw [cache] at looked
  obtain ⟨sane, relinked⟩ := loading.filed.toSane.lookup looked
  refine loading.queue (loading.filed.relinked relinked sane) (Or.inr (Worker.toWrite_isWrite ..)) ?_ ?_
  · intro e allocated wait
    exact ⟨relinked.usedPage ▸ allocated, (relinked.wait e).trans wait⟩
  · intro _ isRead
    cases isRead

/-- A read takes the frame of the entry found, or loads the page into a new one. -/
theorem read {aio a : Aio} {file size off : Nat} {files : LocalFileSet} (blank : aio.opcode = .pread)
    (event : aio.event = none) (callbacks : aio.callbacks = [.fileSlabRead])
    (queued : w.slab.fileSet.read file size off aio = some (a, files)) :
    (w.queue { w.slab with fileSet := files } a).Loading := by
  obtain ⟨-, hit, c, c', looked, rfl, kind⟩ := LocalFileSet.read_eq_some queued
  obtain ⟨sane, relinked⟩ := loading.filed.toSane.lookup looked
  have filed := loading.filed.relinked relinked sane
  rcases kind with ⟨ent, -, rfl, rfl⟩ | ⟨ent, rfl, made, rfl⟩
  · refine loading.queue filed (Or.inl ⟨blank, event, Or.inl ⟨rfl, callbacks⟩⟩) ?_ ?_
    · intro e allocated wait
      exact ⟨relinked.usedPage ▸ allocated, (relinked.wait e).trans wait⟩
    · intro submitted
      cases submitted
  · obtain ⟨rfl, -⟩ := PageCache.lookup_miss looked
    have took := loading.filed.toSane.newEntry made
    obtain ⟨filed', -⟩ := loading.filed.newEntry made
    have isRead : (aio.toLoad file size off ent (c'.entry ent).page).IsRead := by
      refine ⟨rfl, event, Or.inr ⟨rfl, ent, ?_⟩⟩
      simp only [Aio.toLoad, callbacks]
      rfl
    refine loading.queue filed' (Or.inl isRead) ?_ ?_
    · intro e allocated wait
      have other : e ≠ ent := by
        rintro rfl
        rcases took.free with beyond | idle
        · omega
        · rw [idle] at wait
          cases wait
      exact ⟨allocated.trans_le took.more, (took.others e other).1.trans wait⟩
    · intro _ _
      exact ⟨ent, took.allocated, filed'.page ent took.allocated, rfl, took.marked.1, took.free⟩

/-- **A point request keeps it.** -/
theorem processRequest {batch : Batch} {w' : Worker} {effects : List Effect}
    (points : ∀ req ∈ batch.requests.head?, req.isPoint = true)
    (taken : w.processRequest batch = some (w', effects)) : w'.Loading := by
  have enqueued : ∀ {prepared : Option (Aio × FileSlab)}, w.enqueue prepared = some (w', effects) →
      (∀ a fs, prepared = some (a, fs) → (w.queue fs a).Loading) → w'.Loading := by
    intro prepared queued each
    simp only [Worker.enqueue, Option.map_eq_some_iff] at queued
    obtain ⟨⟨a, fs⟩, found, same⟩ := queued
    obtain ⟨rfl, -⟩ := Prod.mk.inj same
    exact each a fs found
  unfold Worker.processRequest at taken
  split at taken
  · cases taken
    exact loading
  · next req rest isFront =>
    have point : req.isPoint = true := points req (by rw [isFront]; rfl)
    split at taken
    · split at taken
      · cases taken
        exact loading
      · refine enqueued taken fun a fs queued => ?_
        simp only [FileSlab.read, Option.map_eq_some_iff] at queued
        obtain ⟨⟨b, files⟩, read, same⟩ := queued
        obtain ⟨rfl, rfl⟩ := Prod.mk.inj same
        exact loading.read rfl rfl rfl read
    · split at taken
      · cases taken
        exact loading
      · split at taken
        · cases taken
        · next slab fs created =>
          refine enqueued taken fun a fs' queued => ?_
          simp only [FileSlab.create, Option.map_eq_some_iff] at created
          obtain ⟨⟨slab', slabs, files⟩, made, same⟩ := created
          obtain ⟨rfl, rfl⟩ := Prod.mk.inj same
          simp only [FileSlab.write, Option.map_eq_some_iff] at queued
          obtain ⟨⟨b, files'⟩, wrote, same⟩ := queued
          obtain ⟨rfl, rfl⟩ := Prod.mk.inj same
          exact loading.write (createIn_files made).1 wrote
    · split at taken
      · cases taken
        exact loading
      · refine enqueued taken fun a fs queued => ?_
        simp only [FileSlab.write, Option.map_eq_some_iff] at queued
        obtain ⟨⟨b, files⟩, wrote, same⟩ := queued
        obtain ⟨rfl, rfl⟩ := Prod.mk.inj same
        exact loading.write rfl wrote
    · split at taken
      · cases taken
        exact loading
      · refine enqueued taken fun a fs queued => ?_
        unfold FileSlab.delete at queued
        split at queued
        · cases queued
        · simp only [Option.map_eq_some_iff] at queued
          obtain ⟨⟨b, files⟩, wrote, same⟩ := queued
          obtain ⟨rfl, rfl⟩ := Prod.mk.inj same
          exact loading.write rfl wrote
    · cases point

end Worker.Loading

/-- A round of point requests keeps it. -/
theorem Worker.Loading.processAll {batches : List Batch} : ∀ {w w' : Worker} {effects : List Effect},
    w.Loading → (∀ batch ∈ batches, ∀ req ∈ batch.requests.head?, req.isPoint = true) →
      w.processAll batches = some (w', effects) → w'.Loading := by
  induction batches with
  | nil =>
      intro w w' effects loading _ processed
      cases processed
      exact loading
  | cons batch rest ih =>
      intro w w' effects loading points processed
      unfold Worker.processAll at processed
      split at processed
      · cases processed
      · next mid first taken =>
          simp only [Option.map_eq_some_iff] at processed
          obtain ⟨out, later, same⟩ := processed
          obtain ⟨rfl, -⟩ := Prod.mk.inj same
          have here := loading.processRequest (points batch (List.mem_cons_self ..)) taken
          exact ih here (fun b member => points b (List.mem_cons_of_mem _ member)) later

/-! ## The round -/

/-- The outcome of a round does not depend on the order in which the kernel executes its
requests: any two executions in which all succeed end with the same files, the same page
cache and the same responses.  `mid` is the worker as it calls `io_submit`. -/
def Worker.RoundOrderFree (w mid : Worker) (batches : List Batch) : Prop :=
  ∀ first second report report' : List Aio, first.Perm mid.iocbs → second.Perm mid.iocbs →
    report.Perm mid.iocbs → report'.Perm mid.iocbs → mid.AllSucceed first report →
    mid.AllSucceed second report' →
      w.round (.executing first report) batches = w.round (.executing second report') batches

theorem roundOrderFree_iff {w mid : Worker} {batches : List Batch} {early : List Effect}
    (processed : w.processAll batches = some (mid, early)) :
    w.RoundOrderFree mid batches ↔ mid.OrderFree := by
  have same : ∀ kernel kernel' : Kernel, w.round kernel batches = w.round kernel' batches ↔
      mid.settle kernel = mid.settle kernel' := by
    intro kernel kernel'
    simp only [Worker.round, processed, Option.map_some, Option.some.injEq, Prod.mk.injEq,
      List.append_cancel_left_eq]
    exact Prod.ext_iff.symm
  simp only [Worker.RoundOrderFree, Worker.OrderFree, same]

/-- **The order of a round's I/O cannot be seen if its requests do not conflict**, and can
if they do: for every worker between rounds and every round of GETs, PUTs, UPDATEs and
DELETEs. -/
theorem io_order_free_iff {w mid : Worker} {batches : List Batch} {early : List Effect}
    (reached : w.Reached) (points : ∀ batch ∈ batches, ∀ req ∈ batch.requests.head?, req.isPoint = true)
    (processed : w.processAll batches = some (mid, early)) :
    (mid.Unconflicted → w.RoundOrderFree mid batches) ∧
      ((∀ order : List Aio, order.Perm mid.iocbs → mid.AllSucceed order mid.iocbs) →
        w.RoundOrderFree mid batches → mid.Unconflicted ∨ mid.RacyKeySize) := by
  obtain ⟨orderly, between⟩ := reached.orderly
  have noIocbs : w.iocbs = [] := by
    rw [Worker.iocbs, between]
    rfl
  have start : w.Loading := by
    refine ⟨orderly.filed, by simp [between], by simp [noIocbs], ?_⟩
    unfold Worker.Apart
    rw [noIocbs]
    exact List.Pairwise.nil
  have empty : w.Fresh := ⟨by simp [between], by simp [between]⟩
  have loading := start.processAll points processed
  have fresh := empty.processAll processed
  rw [roundOrderFree_iff processed]
  refine ⟨fun calm => calm.orderFree loading.prepared fresh loading.apart, fun succeeding free => ?_⟩
  by_cases keySizes : mid.RacyKeySize
  · exact Or.inr keySizes
  · exact Or.inl (free.unconflicted loading.prepared fresh loading.apart succeeding keySizes)

/-- Requests of different files do not conflict. -/
theorem unconflicted_of_files {w : Worker}
    (loads : ∀ r ∈ w.iocbs, ∀ a ∈ w.iocbs, r.opcode = .pread → a.opcode = .pwrite → r.fildes ≠ a.fildes)
    (writes : ∀ a ∈ w.iocbs, ∀ b ∈ w.iocbs, a.opcode = .pwrite → b.opcode = .pwrite →
      a.fildes = b.fildes → a.offset = b.offset ∧ a.data = b.data) : w.Unconflicted := by
  have calm : ∀ x, ¬ w.Racy x := by
    intro x racy
    obtain ⟨r, member, a, member', isRead, isWrite, -, -, differ⟩ := racy.requests
    apply differ
    have other := loads r member a member' isRead isWrite
    simp only [Aio.performMemory, isRead, Aio.performDisk, isWrite, Function.update_of_ne other]
  refine ⟨?_, fun x racy => absurd racy (calm x), fun _ _ _ _ _ _ x _ racy => absurd racy (calm x)⟩
  rintro a member b member' file i ⟨isA, rfl, -⟩ ⟨isB, same, -⟩
  obtain ⟨offset, data⟩ := writes a member b member' isA isB same.symm
  rw [offset, data]

/-- A GET of a small item and a PUT of a larger one, in either order. -/
theorem io_order_free_iff_example : ∃ (w mid : Worker) (batches : List Batch) (early : List Effect),
    w.Reached ∧ w.processAll batches = some (mid, early) ∧ mid.iocbs.length = 2 ∧
    mid.AllSucceed mid.iocbs mid.iocbs ∧ mid.AllSucceed mid.iocbs.reverse mid.iocbs ∧
    w.RoundOrderFree mid batches := by
  have runs : ∃ out ∈ (Worker.new 0 "db" 2 fun _ => 9).round .inOrder (batchesFrom 0 [.put [1] [2]]),
      ∃ out' ∈ out.1.processAll (batchesFrom 0 [.get [1], .put [3] (List.replicate 90 7)]),
      out'.1.iocbs.length = 2 ∧ out'.1.AllSucceed out'.1.iocbs out'.1.iocbs ∧
      out'.1.AllSucceed out'.1.iocbs.reverse out'.1.iocbs ∧
      out'.1.iocbs.map (fun a => (decide (a.opcode = .pread), a.fildes)) = [(true, 1), (false, 2)] := by
    decide +kernel
  obtain ⟨⟨w, effects⟩, ran, ⟨mid, early⟩, processed, two, forth, back, files⟩ := runs
  obtain ⟨r, a, queue⟩ := List.length_eq_two.mp two
  simp only at queue
  simp only [queue, List.map_cons, List.map_nil, List.cons.injEq, Prod.mk.injEq, decide_eq_true_eq,
    decide_eq_false_iff_not, and_true] at files
  obtain ⟨⟨isRead, file⟩, notRead, file'⟩ := files
  have reached : w.Reached := .round (.new 0 "db" 2 fun _ => 9) ran
  refine ⟨w, mid, _, early, reached, processed, two, forth, back, ?_⟩
  refine (io_order_free_iff reached (by simp [batchesFrom, Request.isPoint]) processed).1
    (unconflicted_of_files ?_ ?_)
  · simp [queue, isRead, notRead, file, file']
  · simp [queue, isRead, file']

/-- Two UPDATEs of a key: the item that is written last stays. -/
theorem io_order_seen :
    ¬ ∀ (w mid : Worker) (batches : List Batch) (early : List Effect), w.Reached →
      batches.length ≤ maxEvent →
      (∀ batch ∈ batches, ∀ req ∈ batch.requests.head?, req.isPoint = true) →
      w.processAll batches = some (mid, early) → w.RoundOrderFree mid batches := by
  intro always
  have runs : ∃ out ∈ (Worker.new 0 "db" 2 fun _ => 9).round .inOrder (batchesFrom 0 [.put [1] [2]]),
      ∃ out' ∈ out.1.processAll (batchesFrom 0 [.update [1] [3], .update [1] [4]]),
      out'.1.AllSucceed out'.1.iocbs out'.1.iocbs ∧
      out'.1.AllSucceed out'.1.iocbs.reverse out'.1.iocbs ∧
      ((out'.1.settle (.executing out'.1.iocbs out'.1.iocbs)).1.disk 1).byte 7 ≠
        ((out'.1.settle (.executing out'.1.iocbs.reverse out'.1.iocbs)).1.disk 1).byte 7 := by
    decide +kernel
  obtain ⟨⟨w, effects⟩, ran, ⟨mid, early⟩, processed, forth, back, differ⟩ := runs
  have reached : w.Reached := .round (.new 0 "db" 2 fun _ => 9) ran
  have free := (roundOrderFree_iff processed).mp
    (always w mid _ early reached (by decide) (by simp [batchesFrom, Request.isPoint]) processed)
  have same := free _ _ _ _ (.refl _) (List.reverse_perm _) (.refl _) (.refl _) forth back
  apply differ
  rw [same]

end KTableFS.Kvengine
