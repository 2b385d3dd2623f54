/-
# Kvengine.Partition -- the scans of the workers together are one scan

`DB` cuts the keys over the workers with `split_func_`, and a SCAN visits the workers one
after the other.  Of the reads such a scan makes, this module shows that nothing is missed
and nothing read twice, however the keys are cut:

* `Worker.Parted` -- a worker holds keys that are routed to it only, in slabs whose file it
  has; without GETs no page of its cache ever waits for data between two steps
  (`PageCache.Still`), so that every `ReadSync` succeeds (`Worker.Readable.reads`);
* `Db.slabReads_made` -- the reads that a step is said to make (`Journal.observe`) are the calls of
  the source's loop;
* `Scanning` -- the system while a scan visits the workers: those it has left have read
  their range (`Worker.rangeReads`), and no index has changed;
* `scan_partitioned` -- the reads are the keys of the range over all workers
  (`Db.ReadsRange`), in whatever order the threads take their steps.
-/
import KTableFS.Kvengine.BatchOrder
import KTableFS.Kvengine.Survival

namespace KTableFS.Kvengine

open KTableFS.Theory

set_option autoImplicit false

/-! ## A cache in which nothing waits -/

namespace PageCache

/-- A cache with two pages or more, whose pointers are in range and lead somewhere, and in
which no entry waits for data. -/
structure Still (c : PageCache) : Prop extends Sane c where
  live : c.Live
  two : 2 ≤ c.maxPage
  idle : ∀ e < c.usedPage, (c.entry e).wait = false

theorem Still.new {pages : Nat} (two : 2 ≤ pages) (junk : Memory) : (PageCache.new pages junk).Still where
  toSane := new_sane pages junk
  live := new_live pages junk
  two := two
  idle e allocated := absurd allocated (Nat.not_lt_zero e)

theorem Still.completed {c c' : PageCache} (still : c.Still) (done : c.Completed c') : c'.Still where
  toSane := still.toSane.completed done
  live := still.live.completed done
  two := done.maxPage ▸ still.two
  idle e allocated := by
    cases waits : (c'.entry e).wait with
    | false => rfl
    | true =>
        rw [← done.wait e waits]
        exact still.idle e (done.usedPage ▸ allocated)

/-- **Every lookup succeeds**, and nothing waits afterwards. -/
theorem Still.lookup {c : PageCache} (still : c.Still) (hash : Nat) :
    ∃ hit c', c.lookup hash = some (hit, c') ∧ c'.Still := by
  have found : ∃ hit c', c.lookup hash = some (hit, c') ∧ c'.Live := by
    unfold PageCache.lookup
    split
    · exact ⟨none, c, rfl, still.live⟩
    · next ent found =>
        obtain ⟨c', updated, live⟩ := update_live still.live (still.toSane.find found)
        exact ⟨some ent, c', by rw [updated]; rfl, live⟩
  obtain ⟨hit, c', looked, live⟩ := found
  obtain ⟨sane, relinked⟩ := still.toSane.lookup looked
  refine ⟨hit, c', looked, sane, live, relinked.maxPage ▸ still.two, fun e allocated => ?_⟩
  rw [relinked.wait]
  exact still.idle e (relinked.usedPage ▸ allocated)

end PageCache

/-! ## Synchronous reads -/

/-- **`ReadSync` of a slab in a file the worker has succeeds**, and nothing waits
afterwards: the page it may load has arrived. -/
theorem LocalFileSet.HasFile.readSync {fs : LocalFileSet} {file : Nat} (has : fs.HasFile file)
    (still : fs.pagecache.Still) (size off : Nat) :
    ∃ bytes c, fs.readSync file size off = some (bytes, { fs with pagecache := c }) ∧ c.Still := by
  obtain ⟨hit, c, looked, still'⟩ := still.lookup (pageHash file (off / pageSize))
  unfold LocalFileSet.readSync
  simp only [if_pos has, looked]
  cases hit with
  | some ent => exact ⟨_, c, rfl, still'⟩
  | none =>
      obtain ⟨ent, mid, made, live⟩ := PageCache.newEntry_live still'.toSane.toLinked still'.live
        still'.two still'.idle (pageHash file (off / pageSize))
      have took := still'.toSane.newEntry made
      have loaded := fs.loadPage_completed file (off / pageSize) ent mid
      simp only [made]
      refine ⟨_, fs.loadPage file (off / pageSize) ent mid, rfl, took.sane.completed loaded,
        live.completed loaded, ?_, fun e allocated => ?_⟩
      · rw [loaded.maxPage, PageCache.newEntry_maxPage made]
        exact still'.two
      · by_cases same : e = ent
        · rw [same, loadPage, PageCache.modify_entry, if_pos rfl]
        · rw [loadPage, PageCache.modify_entry, if_neg same]
          have old : e < c.usedPage := by
            rcases (PageCache.newEntry_usedPage made e).mp (loaded.usedPage ▸ allocated) with
              old | ⟨new, -⟩
            · exact old
            · exact absurd new same
          exact ((took.others e same).1).trans (still'.idle e old)

/-- A worker whose index leads to slabs in its files, with a cache in which nothing waits. -/
structure Worker.Readable (w : Worker) : Prop where
  still : w.pagecache.Still
  index : ∀ (key : Slice) (s : SlabT), w.index[key]? = some s → w.slab.fileSet.HasFile s.file

/-- The loop of a SCAN reads all it visits. -/
theorem Worker.Readable.reads {w : Worker} (readable : w.Readable) (minKey maxKey : Slice) :
    ∃ c pairs, Run.run scanReads w.slab (scanRange w.index minKey maxKey) =
      some ({ w.slab with fileSet := { w.slab.fileSet with pagecache := c } }, pairs) ∧ c.Still := by
  have step : ∀ (fs : FileSlab) (entry : Slice × SlabT),
      (∃ c : PageCache, fs = { w.slab with fileSet := { w.slab.fileSet with pagecache := c } } ∧
        c.Still) → w.slab.fileSet.HasFile entry.2.file →
      ∃ fs' pair, scanReads fs entry = some (fs', pair) ∧
        ∃ c : PageCache, fs' = { w.slab with fileSet := { w.slab.fileSet with pagecache := c } } ∧
          c.Still := by
    rintro fs entry ⟨c, rfl, still⟩ has
    obtain ⟨bytes, c', read, still'⟩ :=
      (show LocalFileSet.HasFile { w.slab.fileSet with pagecache := c } entry.2.file from has).readSync
        still entry.2.size entry.2.off
    exact ⟨_, _, congrArg (fun read => (Option.map _ read).map Prod.swap) read, c', rfl, still'⟩
  have along : Run.Along scanReads (fun _ entry => w.slab.fileSet.HasFile entry.2.file) w.slab
      (scanRange w.index minKey maxKey) := Run.Along.of_forall fun entry member =>
    readable.index entry.1 entry.2 (mem_scanRange member)
  obtain ⟨fs, pairs, ran, c, rfl, still⟩ := Run.total step ⟨w.pagecache, rfl, readable.still⟩ along
  exact ⟨c, pairs, ran, still⟩

/-! ## What a worker keeps -/

/-- A request other than a GET. -/
def Request.NotGet : Request → Prop
  | .get _ => False
  | _ => True

variable {n : Nat} {split : Slice → Nat → Nat}

/-- Worker `i` holds, and is about to hold, keys that are routed to it only; its cache
waits for nothing. -/
structure Worker.Parted (split : Slice → Nat → Nat) (i : Fin n) (w : Worker) (owed : List Aio) :
    Prop where
  stocked : w.Stocked owed
  still : w.pagecache.Still
  index : ∀ (key : Slice) (s : SlabT), w.index[key]? = some s → split key n = i
  puts : ∀ a ∈ w.ioQueue ++ owed, ∀ key s, .put key s ∈ a.callbacks → split key n = i

namespace Worker.Parted

theorem readable {i : Fin n} {w : Worker} {owed : List Aio} (parted : w.Parted split i owed) :
    w.Readable :=
  ⟨parted.still, parted.stocked.index⟩

/-- A write is queued behind the others. -/
theorem queue {i : Fin n} {w : Worker} (parted : w.Parted split i []) {fs : FileSlab}
    {files : LocalFileSet} {file off : Nat} {data : Slice} {aio a : Aio}
    (stocked : (w.queue fs a).Stocked []) (cache : files.pagecache = w.pagecache)
    (wrote : files.write file data off aio = some (a, fs.fileSet))
    (own : ∀ key s, .put key s ∈ aio.callbacks → split key n = i) :
    (w.queue fs a).Parted split i [] := by
  obtain ⟨-, hit, c, looked, rfl, files'⟩ := LocalFileSet.write_eq_some wrote
  obtain ⟨hit', c', looked', still⟩ := parted.still.lookup (pageHash file (off / pageSize))
  rw [cache, looked'] at looked
  cases looked
  refine ⟨stocked, ?_, parted.index, fun b member key s put => ?_⟩
  · rw [show (w.queue fs _).pagecache = c from congrArg LocalFileSet.pagecache files']
    exact still
  · rw [List.append_nil] at member
    rcases List.mem_append.mp member with old | new
    · exact parted.puts b (List.mem_append_left _ old) key s put
    · rw [List.mem_singleton.mp new] at put
      exact own key s (put_of_toWrite put)

/-- A request that is routed to the worker. -/
theorem processRequest {i : Fin n} {w w' : Worker} (parted : w.Parted split i []) {batch : Batch}
    {req : Request} {rest : List Request} {effects : List Effect} (shape : batch.requests = req :: rest)
    (routed : route split n req = i) (notGet : req.NotGet)
    (taken : w.processRequest batch = some (w', effects)) : w'.Parted split i [] := by
  have stocked := parted.stocked.processRequest taken
  cases processRequest_handled shape taken with
  | refused reason => exact parted
  | get found queued => exact notGet.elim
  | put absent created queued =>
      refine parted.queue stocked (createIn_files created).1 queued fun key s put => ?_
      simp only [Aio.addCallback, Aio.new, List.nil_append, List.mem_singleton] at put
      cases put
      exact routed
  | update found queued => exact parted.queue stocked rfl queued fun key s put => absurd put List.not_mem_nil
  | delete found freed queued =>
      refine parted.queue stocked rfl queued fun key s put => ?_
      simp [Aio.addCallback, Aio.new] at put
  | @scan minKey maxKey callback tag fs last effects scanned =>
      obtain ⟨c, pairs, read, still⟩ := parted.readable.reads minKey maxKey
      simp only [scanLoop_eq_scanShare, read, Option.map_some, Option.some.injEq,
        Prod.mk.injEq] at scanned
      obtain ⟨rfl, -⟩ := scanned
      exact ⟨stocked, still, parted.index, parted.puts⟩

theorem performIo {i : Fin n} {w : Worker} (parted : w.Parted split i []) (kernel : Kernel) :
    (w.performIo kernel).1.Parted split i w.ioQueue where
  stocked := parted.stocked.performIo kernel
  still := parted.still.completed (PageCache.data_completed ..)
  index := parted.index
  puts a member := parted.puts a (List.mem_append_left _ member)

theorem finish {i : Fin n} {w : Worker} {a : Aio} {owed : List Aio} (event : Option Int)
    (parted : w.Parted split i (a :: owed)) :
    (w.finish { a with event := event }).1.Parted split i owed := by
  have stocked := parted.stocked.finish event
  obtain ⟨data, finished⟩ := w.finish_eq { a with event := event }
  rw [finished] at stocked ⊢
  have fewer : ∀ b ∈ w.ioQueue ++ owed, b ∈ w.ioQueue ++ a :: owed := by
    intro b member
    rcases List.mem_append.mp member with old | left
    · exact List.mem_append_left _ old
    · exact List.mem_append_right _ (List.mem_cons_of_mem _ left)
  cases verdict : ({ a with event := event } : Aio).success with
  | false =>
      rw [runCallbacks_failure _ verdict] at stocked ⊢
      exact ⟨stocked, parted.still, parted.index, fun b member => parted.puts b (fewer b member)⟩
  | true =>
      obtain ⟨advanced, -⟩ := runCallbacks_spec a.callbacks w _ verdict
      refine ⟨stocked, parted.still.completed advanced.cache, fun key s found => ?_,
        fun b member key s put => ?_⟩
      · rw [advanced.index] at found
        rcases onIndex_source found with old | new
        · exact parted.index key s old
        · exact parted.puts a (List.mem_append_right _ (List.mem_cons_self ..)) key s new
      · rw [advanced.ioQueue] at member
        exact parted.puts b (fewer b member) key s put

end Worker.Parted

/-- **Every worker holds keys of its own only**, in every state of every run without GETs. -/
theorem parted_of_run {kernel : Kernel} {workDir : String} {pages : Nat} (two : 2 ≤ pages)
    {junk : Memory} {acts : List (Act n)} {j : Journal n} {outs : List Unit}
    (notGets : ∀ act ∈ acts, act.Submits Request.NotGet)
    (ran : Run.run (Journal.next split kernel) (.new n workDir pages junk) acts = some (j, outs))
    (i : Fin n) : (j.db.nodes i).worker.Parted split i (j.db.nodes i).phase.owed := by
  have rule : Threadwise split Request.NotGet fun (i : Fin n) w owed => w.Parted split i owed := {
    copies := by
      intro req _ copy member
      unfold scanCopies at member
      split at member
      · obtain ⟨k, -, rfl⟩ := List.mem_map.mp member
        trivial
      · cases member
    request := fun shape routed notGet parted taken => parted.processRequest shape routed notGet taken
    io := fun kernel parted => parted.performIo kernel
    completion := fun event parted => parted.finish event }
  refine (rule.of_run (fun i => ⟨.new i workDir pages junk, .new two junk, ?_, ?_⟩) notGets ran).inv i
  · intro key s found
    simp [Worker.new] at found
  · exact fun a member => absurd member List.not_mem_nil

/-! ## The reads of a scan -/

/-- A call of `FileSlab::ReadSync` for an entry of a worker's index. -/
structure SlabRead where
  worker : Nat
  key : Slice
  slab : SlabT

/-- The calls the loop of the SCAN case makes, one for each entry, as far as it comes. -/
def readsMade (worker : Nat) : List (Slice × SlabT) → FileSlab → List SlabRead
  | [], _ => []
  | entry :: rest, fs =>
      ⟨worker, entry.1, entry.2⟩ ::
        match fs.readSync entry.2 with
        | none => []
        | some out => readsMade worker rest out.2

/-- The calls of a step: a worker makes them when it takes a scan off its queue. -/
def Db.slabReads (db : Db n) : Act n → List SlabRead
  | .pop i =>
      let node := db.nodes i
      match node.batchQueue with
      | ⟨_, .scan minKey maxKey _ _ :: _, _⟩ :: _ =>
          readsMade i (Worker.scanRange node.worker.index minKey maxKey) node.worker.slab
      | _ => []
  | _ => []

/-- A step, with the slabs it reads for scans. -/
def Journal.observe (split : Slice → Nat → Nat) (kernel : Kernel) (j : Journal n) (act : Act n) :
    Option (Journal n × List SlabRead) :=
  (j.next split kernel act).map fun out => (out.1, j.db.slabReads act)

/-- The slabs of a worker's keys from `minKey` to before `maxKey`. -/
def Node.rangeReads (node : Node) (i : Nat) (minKey maxKey : Slice) : List SlabRead :=
  (Worker.scanRange node.worker.index minKey maxKey).map fun entry => ⟨i, entry.1, entry.2⟩

/-- Those of the first `count` workers, one worker after the other. -/
def Db.rangeReads (db : Db n) (minKey maxKey : Slice) (count : Nat) : List SlabRead :=
  ((List.finRange n).take count).flatMap fun i => (db.nodes i).rangeReads i minKey maxKey

theorem Db.rangeReads_succ (db : Db n) (minKey maxKey : Slice) (i : Fin n) :
    db.rangeReads minKey maxKey (i + 1) =
      db.rangeReads minKey maxKey i ++ (db.nodes i).rangeReads i minKey maxKey := by
  have next : (List.finRange n).take (i + 1) = (List.finRange n).take i ++ [i] := by
    rw [List.take_add_one]
    simp
  rw [rangeReads, next, List.flatMap_append, List.flatMap_singleton]
  rfl

/-- The call itself. -/
def SlabRead.call (fs : FileSlab) (read : SlabRead) : Option (FileSlab × (Slice × Slice)) :=
  (fs.readSync read.slab).map Prod.swap

/-- The calls `readsMade` lists are those of the loop, up to the first that fails. -/
theorem run_readsMade (worker : Nat) : ∀ (entries : List (Slice × SlabT)) (fs : FileSlab),
    Run.run SlabRead.call fs (readsMade worker entries fs) = Run.run scanReads fs entries
  | [], _ => rfl
  | entry :: rest, fs => by
      cases read : fs.readSync entry.2 with
      | none =>
          simp only [readsMade, read, Run.run, SlabRead.call, scanReads, Option.map_none]
      | some out =>
          simp only [readsMade, read, Run.run, SlabRead.call, scanReads, Option.map_some, Prod.fst_swap,
            run_readsMade worker rest out.2]

/-- **The loop makes the calls `readsMade` lists** and no others, in this order, and calls back for
what they return. -/
theorem scanLoop_eq_readsMade (callback : ScanCallback) (worker : Nat) (entries : List (Slice × SlabT))
    (fs : FileSlab) (batch : Batch) :
    Worker.scanLoop callback entries fs batch = (Run.run SlabRead.call fs (readsMade worker entries fs)).map
      fun out => (out.1, scanShare callback out.2 batch) := by
  rw [run_readsMade, scanLoop_eq_scanShare]

/-- **A worker that takes a scan makes the calls of `Db.slabReads`**, and then calls back and finishes
the request. -/
theorem Db.slabReads_made {db : Db n} {i : Fin n} {batch : Batch} {tail : List Batch} {minKey maxKey : Slice}
    {callback : ScanCallback} {tag : Nat} {rest : List Request} (queue : (db.nodes i).batchQueue = batch :: tail)
    (shape : batch.requests = .scan minKey maxKey callback tag :: rest) :
    (db.nodes i).worker.processRequest batch =
      (Run.run SlabRead.call (db.nodes i).worker.slab (db.slabReads (.pop i))).map fun out =>
        let share := scanShare callback out.2 { batch with requests := rest }
        ({ (db.nodes i).worker with slab := out.1 }, share.2 ++ [share.1.finishRequest none 0]) := by
  have calls : db.slabReads (.pop i) = readsMade i
      (Worker.scanRange (db.nodes i).worker.index minKey maxKey) (db.nodes i).worker.slab := by
    obtain ⟨id, requests, delivered⟩ := batch
    subst shape
    rw [Db.slabReads, queue]
  rw [Worker.processRequest, shape, calls]
  simp only [scanLoop_eq_readsMade callback i, Option.map_map]
  rfl

/-- A loop that comes to its end has read every entry. -/
theorem readsMade_of_run (worker : Nat) : ∀ {entries : List (Slice × SlabT)} {fs fs' : FileSlab}
    {pairs : List (Slice × Slice)}, Run.run scanReads fs entries = some (fs', pairs) →
      readsMade worker entries fs = entries.map fun entry => ⟨worker, entry.1, entry.2⟩
  | [], _, _, _, _ => rfl
  | entry :: rest, fs, fs', pairs, ran => by
      obtain ⟨mid, pair, pairs', taken, later, -⟩ := Run.run_cons_eq_some.mp ran
      obtain ⟨out, read, same⟩ := Option.map_eq_some_iff.mp taken
      cases same
      rw [readsMade, read, List.map_cons]
      exact congrArg _ (readsMade_of_run worker later)

/-! ## A scan on its way -/

/-- A worker at rest, with the index it had. -/
structure Node.Resting (node : Node) (index : Std.TreeMap Slice SlabT) : Prop where
  index : node.worker.index = index
  readable : node.worker.Readable
  between : node.worker.ioQueue = []
  free : node.phase.Free

/-- A scan has left the first `i` workers, whose ranges have been read, and waits on the
queue of worker `i`; behind the last worker it has been answered. -/
structure Scanning (j₀ : Journal n) (minKey maxKey : Slice) (callback : ScanCallback) (i : Nat)
    (reads : List SlabRead) (j : Journal n) : Prop where
  within : i ≤ n
  resting : ∀ k, (j.db.nodes k).Resting (j₀.db.nodes k).worker.index
  holds : ∀ k : Fin n, k.val = i → ∃ batch, (j.db.nodes k).batchQueue = [batch] ∧
    batch.id = j₀.submitted.length ∧ batch.requests = scanTags minKey maxKey callback i (n - i)
  others : ∀ k : Fin n, k.val ≠ i → (j.db.nodes k).batchQueue = []
  reads : reads = j₀.db.rangeReads minKey maxKey i
  log : ∃ new, j.log = j₀.log ++ new ∧
    answeredIn new = if i = n then [j₀.submitted.length] else []

section Scan

variable {j₀ j : Journal n} {minKey maxKey : Slice} {callback : ScanCallback} {i : Nat}
  {reads : List SlabRead}

/-- A thread that goes round its loop without I/O changes nothing. -/
theorem Scanning.turned (scanning : Scanning j₀ minKey maxKey callback i reads j) {k : Fin n}
    {node : Node} (resting : node.Resting (j₀.db.nodes k).worker.index)
    (queue : node.batchQueue = (j.db.nodes k).batchQueue) :
    Scanning j₀ minKey maxKey callback i reads (j.record (j.db.set k node, [])) := by
  have queues : ∀ l, ((j.db.set k node).nodes l).batchQueue = (j.db.nodes l).batchQueue := by
    intro l
    by_cases same : l = k
    · rw [same, Db.set_same, queue]
    · rw [Db.set_other _ _ same]
  refine ⟨scanning.within, fun l => ?_, fun l here => ?_, fun l there => ?_, scanning.reads, ?_⟩
  · show ((j.db.set k node).nodes l).Resting _
    by_cases same : l = k
    · subst same
      rw [Db.set_same]
      exact resting
    · rw [Db.set_other _ _ same]
      exact scanning.resting l
  · rw [show (j.record (j.db.set k node, [])).db = j.db.set k node from rfl, queues]
    exact scanning.holds l here
  · rw [show (j.record (j.db.set k node, [])).db = j.db.set k node from rfl, queues]
    exact scanning.others l there
  · obtain ⟨new, log, answers⟩ := scanning.log
    exact ⟨new, by rw [Journal.record, log, List.append_nil], answers⟩

/-- The step makes the reads of the worker's range. -/
theorem Scanning.slabReads (scanning : Scanning j₀ minKey maxKey callback i reads j) {here : Fin n}
    (isHere : here.val = i) :
    j.db.slabReads (.pop here) = (j₀.db.nodes here).rangeReads here minKey maxKey := by
  obtain ⟨⟨id, requests, delivered⟩, queue, -, shape⟩ := scanning.holds here isHere
  have resting := scanning.resting here
  obtain ⟨c, pairs, read, -⟩ := resting.readable.reads minKey maxKey
  obtain ⟨left, more⟩ : ∃ left, n - i = left + 1 := ⟨n - i - 1, by omega⟩
  simp only at shape
  simp only [Db.slabReads, queue, shape, more, scanTags, List.range'_succ, List.map_cons]
  rw [readsMade_of_run here read, resting.index]
  rfl

/-- **The worker that has the scan takes it**: it reads its range, and hands the scan to the
next worker or answers it. -/
theorem Scanning.popped (split : Slice → Nat → Nat) (unstopped : ∀ delivered, callback delivered = true)
    (scanning : Scanning j₀ minKey maxKey callback i reads j) {here : Fin n} (isHere : here.val = i)
    {cnt : Nat} (phase : (j.db.nodes here).phase = .popping cnt) (room : cnt < maxEvent) :
    ∃ out, j.db.pop split here = some out ∧
      Scanning j₀ minKey maxKey callback (i + 1) (reads ++ j.db.slabReads (.pop here))
        (j.record out) := by
  have made := scanning.slabReads isHere
  subst isHere
  obtain ⟨batch, queue, named, shape⟩ := scanning.holds here rfl
  have resting := scanning.resting here
  obtain ⟨c, pairs, read, still⟩ := resting.readable.reads minKey maxKey
  obtain ⟨left, more⟩ : ∃ left, n - here.val = left + 1 := ⟨n - here.val - 1, by omega⟩
  rw [more] at shape
  have popped := pop_scan split queue phase room shape read
  simp only [scanShare_of_unstopped unstopped] at popped
  let node : Node := ⟨{ (j.db.nodes here).worker with slab := { (j.db.nodes here).worker.slab with
    fileSet := { (j.db.nodes here).worker.slab.fileSet with pagecache := c } } }, [],
    .popping (cnt + 1)⟩
  let last : Batch := ⟨batch.id, batch.requests.tail, batch.delivered ++ pairs⟩
  have tail : last.requests = scanTags minKey maxKey callback (here + 1) left := by
    show batch.requests.tail = _
    rw [shape, scanTags, List.range'_succ, List.map_cons]
    rfl
  have rested : ∀ k, ((j.db.set here node).nodes k).Resting (j₀.db.nodes k).worker.index := by
    intro k
    by_cases same : k = here
    · subst same
      rw [Db.set_same]
      exact ⟨resting.index, ⟨still, resting.readable.index⟩, resting.between, room⟩
    · rw [Db.set_other _ _ same]
      exact scanning.resting k
  have empty : ∀ k, ((j.db.set here node).nodes k).batchQueue = [] := by
    intro k
    by_cases same : k = here
    · rw [same, Db.set_same]
    · rw [Db.set_other _ _ same]
      exact scanning.others k fun equal => same (Fin.ext equal)
  have gathered : reads ++ j.db.slabReads (.pop here) = j₀.db.rangeReads minKey maxKey (here + 1) := by
    rw [made, scanning.reads, Db.rangeReads_succ]
  -- what the scan's calls leave in the log
  have answers : answeredIn (.executed here batch.id (.scan minKey maxKey callback here) ::
      ((pairs.map fun pair => Effect.scanned batch.id pair.1 pair.2 true) ++
        [last.finishRequest none 0]).map .effect) =
      if here.val + 1 = n then [j₀.submitted.length] else [] := by
    have silent : answeredIn (.executed here batch.id (.scan minKey maxKey callback here) ::
        (pairs.map fun pair => Effect.scanned batch.id pair.1 pair.2 true).map .effect) = [] := by
      simp [answeredIn, List.filterMap_map]
    rw [List.map_append, ← List.cons_append, answeredIn_append, silent, List.nil_append,
      List.map_singleton, answeredIn_finishRequest, tail]
    cases left with
    | zero =>
        rw [if_pos (by omega : here.val + 1 = n)]
        exact (if_pos rfl).trans (congrArg (fun id => [id]) named)
    | succ left =>
        rw [if_neg (by omega : here.val + 1 ≠ n), if_neg]
        simp [Stage.after, scanTags, List.range'_succ]
  obtain ⟨new, log, none'⟩ := scanning.log
  rw [if_neg (Nat.ne_of_lt here.isLt)] at none'
  have logged : ∀ db : Db n, ∃ new', (j.record (db, .executed here batch.id
      (.scan minKey maxKey callback here) ::
      ((pairs.map fun pair => Effect.scanned batch.id pair.1 pair.2 true) ++
        [last.finishRequest none 0]).map .effect)).log = j₀.log ++ new' ∧
      answeredIn new' = if here.val + 1 = n then [j₀.submitted.length] else [] := by
    intro db
    refine ⟨new ++ _, by rw [Journal.record, log, List.append_assoc], ?_⟩
    rw [answeredIn_append, none', List.nil_append, answers]
  cases left with
  | zero =>
      -- the last worker answers the batch
      have performed : Db.perform split (j.db.set here node) [last.finishRequest none 0] =
          some (j.db.set here node) := by
        have nothing : last.requests.isEmpty = true := by
          rw [tail]
          rfl
        simp only [Batch.finishRequest, nothing, if_true, Db.perform]
      rw [performed, Option.map_some] at popped
      refine ⟨_, popped, by omega, rested, fun k isNext => absurd k.isLt (by omega), fun k _ => empty k,
        gathered, logged _⟩
  | succ left =>
      have inRange : here.val + 1 < n := by omega
      have performed : Db.perform split (j.db.set here node) [last.finishRequest none 0] =
          some ((j.db.set here node).push ⟨here + 1, inRange⟩ last) := by
        have more : last.requests.isEmpty = false := by
          rw [tail]
          rfl
        simp only [Batch.finishRequest, more, Bool.false_eq_true, if_false, Db.perform,
          submit_scanTags split inRange tail, Option.bind_some]
      rw [performed, Option.map_some] at popped
      have pushed : ∀ k, (((j.db.set here node).push ⟨here + 1, inRange⟩ last).nodes k) =
          { (j.db.set here node).nodes k with
            batchQueue := if k.val = here.val + 1 then [last] else [] } := by
        intro k
        by_cases same : k = ⟨here + 1, inRange⟩
        · subst same
          rw [Db.push, Db.set_same, empty, if_pos rfl]
          rfl
        · rw [Db.push, Db.set_other _ _ same, if_neg fun equal => same (Fin.ext equal), ← empty k]
      refine ⟨_, popped, by omega, fun k => ?_, fun k isNext => ⟨last, ?_, named, ?_⟩, fun k other => ?_,
        gathered, logged _⟩
      · show (((j.db.set here node).push ⟨here + 1, inRange⟩ last).nodes k).Resting _
        rw [pushed]
        exact ⟨(rested k).index, (rested k).readable, (rested k).between, (rested k).free⟩
      · show (((j.db.set here node).push ⟨here + 1, inRange⟩ last).nodes k).batchQueue = _
        rw [pushed]
        exact if_pos isNext
      · rw [tail, show n - (here.val + 1) = left + 1 by omega]
      · show (((j.db.set here node).push ⟨here + 1, inRange⟩ last).nodes k).batchQueue = _
        rw [pushed]
        exact if_neg other

theorem observe_eq_some {kernel : Kernel} {act : Act n} {j' : Journal n} {made : List SlabRead} :
    j.observe split kernel act = some (j', made) ↔
      j.next split kernel act = some (j', ()) ∧ made = j.db.slabReads act := by
  simp only [Journal.observe, Option.map_eq_some_iff, Prod.mk.injEq]
  constructor
  · rintro ⟨⟨_, _⟩, taken, rfl, rfl⟩
    exact ⟨taken, rfl⟩
  · rintro ⟨taken, rfl⟩
    exact ⟨_, taken, rfl, rfl⟩

/-- **Any step of any thread** keeps the scan on its way. -/
theorem Scanning.next {kernel : Kernel} (unstopped : ∀ delivered, callback delivered = true)
    (scanning : Scanning j₀ minKey maxKey callback i reads j) {act : Act n} (thread : act.IsThread)
    {j' : Journal n} {made : List SlabRead} (taken : j.observe split kernel act = some (j', made)) :
    ∃ i', Scanning j₀ minKey maxKey callback i' (reads ++ made) j' := by
  obtain ⟨stepped, rfl⟩ := observe_eq_some.mp taken
  -- a step without I/O or requests leaves the worker as it is
  have turned : ∀ {k : Fin n} {node : Node}, node.Idle (j.db.nodes k).worker (j.db.nodes k).batchQueue →
      Scanning j₀ minKey maxKey callback i (reads ++ []) (j.record (j.db.set k node, [])) := by
    intro k node idle
    obtain ⟨index, readable, between, -⟩ := scanning.resting k
    rw [List.append_nil]
    exact scanning.turned ⟨idle.worker ▸ index, idle.worker ▸ readable, idle.worker ▸ between, idle.free⟩
      idle.queue
  have idle : ∀ k, (j.db.nodes k).Idle (j.db.nodes k).worker (j.db.nodes k).batchQueue := fun k =>
    ⟨rfl, (scanning.resting k).between, rfl, (scanning.resting k).free⟩
  cases act with
  | submit requests => exact thread.elim
  | pop k =>
      obtain ⟨out, popped, same⟩ := Option.map_eq_some_iff.mp stepped
      cases same
      obtain ⟨cnt, batch, tail, -, -, -, -, -, phase, queue, -, room, -⟩ := Db.pop_eq_some popped
      have isHere : k.val = i := by
        by_contra other
        rw [scanning.others k other] at queue
        cases queue
      obtain ⟨out', popped', scanning'⟩ := scanning.popped split unstopped isHere phase room
      rw [popped] at popped'
      cases popped'
      exact ⟨i + 1, scanning'⟩
  | flush k =>
      obtain ⟨out, flushed, same⟩ := Option.map_eq_some_iff.mp stepped
      cases same
      obtain ⟨node, rfl, idle'⟩ := (idle k).flushed flushed
      exact ⟨i, turned idle'⟩
  | finish k =>
      obtain ⟨out, finished, same⟩ := Option.map_eq_some_iff.mp stepped
      cases same
      obtain ⟨node, rfl, idle'⟩ := (idle k).finished finished
      exact ⟨i, turned idle'⟩

theorem Scanning.run {kernel : Kernel} (unstopped : ∀ delivered, callback delivered = true) :
    ∀ {acts : List (Act n)} {i : Nat} {reads : List SlabRead} {j j' : Journal n}
      {made : List (List SlabRead)}, Scanning j₀ minKey maxKey callback i reads j →
      (∀ act ∈ acts, act.IsThread) → Run.run (Journal.observe split kernel) j acts = some (j', made) →
      ∃ i', Scanning j₀ minKey maxKey callback i' (reads ++ made.flatten) j'
  | [], i, reads, _, _, _, scanning, _, ran => by
      cases ran
      exact ⟨i, by rwa [List.flatten_nil, List.append_nil]⟩
  | act :: acts, _, _, _, _, _, scanning, threads, ran => by
      obtain ⟨mid, here, later, taken, rest, rfl⟩ := Run.run_cons_eq_some.mp ran
      obtain ⟨i', scanning'⟩ := scanning.next unstopped (threads act (List.mem_cons_self ..)) taken
      obtain ⟨i'', scanning''⟩ := Scanning.run unstopped scanning'
        (fun act member => threads act (List.mem_cons_of_mem _ member)) rest
      exact ⟨i'', by rwa [List.flatten_cons, ← List.append_assoc]⟩

/-- The worker that has the scan gets room in its round. -/
theorem Scanning.room (split : Slice → Nat → Nat) (kernel : Kernel)
    (scanning : Scanning j₀ minKey maxKey callback i reads j) (here : Fin n) :
    ∃ acts j' made cnt, (∀ act ∈ acts, Act.IsThread act) ∧
      Run.run (Journal.observe split kernel) j acts = some (j', made) ∧
      Scanning j₀ minKey maxKey callback i (reads ++ made.flatten) j' ∧
      (j'.db.nodes here).phase = .popping cnt ∧ cnt < maxEvent := by
  -- the end of a round without I/O
  have ends : ∀ {j : Journal n} {events : List IoEvent},
      Scanning j₀ minKey maxKey callback i reads j → (j.db.nodes here).phase = .finishing [] events →
      ∃ j', j.observe split kernel (.finish here) = some (j', []) ∧
        Scanning j₀ minKey maxKey callback i reads j' ∧ (j'.db.nodes here).phase = .popping 0 := by
    intro j events scanning phase
    have resting := scanning.resting here
    have finished : j.db.finish split here =
        some (j.db.set here { j.db.nodes here with phase := .popping 0 }, []) := by
      simp only [Db.finish, phase]
    exact ⟨j.record (j.db.set here { j.db.nodes here with phase := .popping 0 }, []),
      observe_eq_some.mpr ⟨by rw [Journal.next, finished]; rfl, rfl⟩,
      scanning.turned ⟨resting.index, resting.readable, resting.between, Nat.zero_le _⟩ rfl,
      congrArg Node.phase (Db.set_same ..)⟩
  have resting := scanning.resting here
  cases phase : (j.db.nodes here).phase with
  | popping cnt =>
      have free := resting.free
      rw [phase] at free
      rcases Nat.lt_or_eq_of_le free with room | full
      · exact ⟨[], j, [], cnt, by simp, rfl, by rwa [List.flatten_nil, List.append_nil], phase, room⟩
      · have flushed : j.db.flush kernel here = some (j.db.set here ⟨(j.db.nodes here).worker,
            (j.db.nodes here).batchQueue, .finishing [] []⟩, []) := by
          simp only [Db.flush, phase]
          rw [if_pos ⟨by rw [full]; decide, Or.inr full⟩,
            Worker.performIo_between resting.between kernel, resting.between]
        let mid : Journal n := j.record (j.db.set here ⟨(j.db.nodes here).worker,
          (j.db.nodes here).batchQueue, .finishing [] []⟩, [])
        have turned : Scanning j₀ minKey maxKey callback i reads mid :=
          scanning.turned ⟨resting.index, resting.readable, resting.between, rfl⟩ rfl
        obtain ⟨j', taken, ended, phase'⟩ := ends turned
          (show (mid.db.nodes here).phase = .finishing [] [] from congrArg Node.phase (Db.set_same ..))
        refine ⟨[.flush here, .finish here], j', [[], []], 0, by simp [Act.IsThread],
          Run.run_cons_eq_some.mpr ⟨mid, [], [[]], observe_eq_some.mpr ⟨?_, rfl⟩,
            Run.run_cons_eq_some.mpr ⟨j', [], [], taken, rfl, rfl⟩, rfl⟩, ?_, phase', by decide⟩
        · rw [Journal.next, flushed]
          rfl
        · simpa using ended
  | finishing left events =>
      have free : left = [] := by
        have free := resting.free
        rwa [phase] at free
      subst free
      obtain ⟨j', taken, ended, phase'⟩ := ends scanning phase
      refine ⟨[.finish here], j', [[]], 0, by simp [Act.IsThread],
        Run.run_cons_eq_some.mpr ⟨j', [], [], taken, rfl, rfl⟩, ?_, phase', by decide⟩
      simpa using ended

/-- **The threads can bring the scan to its end**, from wherever it is. -/
theorem Scanning.completes (split : Slice → Nat → Nat) (kernel : Kernel)
    (unstopped : ∀ delivered, callback delivered = true) :
    ∀ {left i : Nat} {reads : List SlabRead} {j : Journal n}, i + left = n →
      Scanning j₀ minKey maxKey callback i reads j →
      ∃ acts j' made, (∀ act ∈ acts, Act.IsThread act) ∧
        Run.run (Journal.observe split kernel) j acts = some (j', made) ∧
        Scanning j₀ minKey maxKey callback n (reads ++ made.flatten) j'
  | 0, i, reads, j, ends, scanning => by
      obtain rfl : i = n := ends
      exact ⟨[], j, [], by simp, rfl, by rwa [List.flatten_nil, List.append_nil]⟩
  | left + 1, i, reads, j, ends, scanning => by
      let here : Fin n := ⟨i, by omega⟩
      obtain ⟨acts, mid, made, cnt, threads, ran, waits, phase, room⟩ := scanning.room split kernel here
      obtain ⟨out, popped, moved⟩ := waits.popped split unstopped (show here.val = i from rfl) phase room
      obtain ⟨acts', j', made', threads', ran', ended⟩ :=
        Scanning.completes split kernel unstopped (show i + 1 + left = n by omega) moved
      have taken : mid.observe split kernel (.pop here) =
          some (mid.record out, mid.db.slabReads (.pop here)) :=
        observe_eq_some.mpr ⟨by rw [Journal.next, popped]; rfl, rfl⟩
      refine ⟨acts ++ .pop here :: acts', j', made ++ mid.db.slabReads (.pop here) :: made', ?_,
        Run.run_append_eq_some.mpr ⟨mid, made, _, ran,
          Run.run_cons_eq_some.mpr ⟨_, _, made', taken, ran', rfl⟩, rfl⟩, ?_⟩
      · intro act member
        rcases List.mem_append.mp member with early | late
        · exact threads act early
        · rcases List.mem_cons.mp late with rfl | late
          · trivial
          · exact threads' act late
      · rw [List.flatten_append, List.flatten_cons, ← List.append_assoc, ← List.append_assoc]
        exact ended

end Scan

/-! ## All workers together -/

/-- The reads are the slabs of the keys from `minKey` to before `maxKey` over all workers,
each key once, by worker and on a worker in the order of the keys. -/
structure Db.ReadsRange (db : Db n) (minKey maxKey : Slice) (reads : List SlabRead) : Prop where
  covers : ∀ read : SlabRead, read ∈ reads ↔ ∃ i : Fin n, read.worker = i ∧
    (db.nodes i).worker.index[read.key]? = some read.slab ∧
    read.key.lt minKey = false ∧ read.key.lt maxKey = true
  once : (reads.map SlabRead.key).Nodup
  ordered : reads.Pairwise fun read read' => read.worker < read'.worker ∨
    read.worker = read'.worker ∧ read.key.lt read'.key = true

/-- What a worker reads of the range, by key. -/
theorem Node.mem_rangeReads {node : Node} {i : Nat} {minKey maxKey : Slice} {read : SlabRead} :
    read ∈ node.rangeReads i minKey maxKey ↔ read.worker = i ∧
      node.worker.index[read.key]? = some read.slab ∧
      read.key.lt minKey = false ∧ read.key.lt maxKey = true := by
  simp only [rangeReads, scanRange_eq_filter, List.mem_map, List.mem_filter, Bool.and_eq_true,
    Bool.not_eq_true']
  constructor
  · rintro ⟨⟨key, slab⟩, ⟨found, above, below⟩, rfl⟩
    exact ⟨rfl, Std.TreeMap.mem_toList_iff_getElem?_eq_some.mp found, above, below⟩
  · rintro ⟨rfl, found, above, below⟩
    exact ⟨(read.key, read.slab), ⟨Std.TreeMap.mem_toList_iff_getElem?_eq_some.mpr found, above, below⟩,
      rfl⟩

theorem Db.mem_rangeReads {db : Db n} {minKey maxKey : Slice} {read : SlabRead} :
    read ∈ db.rangeReads minKey maxKey n ↔ ∃ i : Fin n, read.worker = i ∧
      (db.nodes i).worker.index[read.key]? = some read.slab ∧
      read.key.lt minKey = false ∧ read.key.lt maxKey = true := by
  have all : (List.finRange n).take n = List.finRange n := by
    rw [List.take_of_length_le (by simp)]
  simp only [rangeReads, all, List.mem_flatMap, List.mem_finRange, true_and, Node.mem_rangeReads]

/-- **The ranges of the workers, one after the other, are the range.** -/
theorem Db.readsRange {db : Db n} (routed : ∀ (i : Fin n) (key : Slice) (s : SlabT),
    (db.nodes i).worker.index[key]? = some s → split key n = i) (minKey maxKey : Slice) :
    db.ReadsRange minKey maxKey (db.rangeReads minKey maxKey n) := by
  have ordered : (db.rangeReads minKey maxKey n).Pairwise fun read read' =>
      read.worker < read'.worker ∨ read.worker = read'.worker ∧ read.key.lt read'.key = true := by
    rw [rangeReads, List.take_of_length_le (by simp), List.pairwise_flatMap]
    constructor
    · intro i _
      have sorted : (db.nodes i).worker.index.toList.Pairwise fun a b => compare a.1 b.1 = .lt :=
        Std.TreeMap.ordered_keys_toList
      rw [Node.rangeReads, scanRange_eq_filter, List.pairwise_map]
      refine (sorted.sublist List.filter_sublist).imp fun {a b} less => Or.inr ⟨rfl, ?_⟩
      exact (Slice.lt_iff a.1 b.1).mpr less
    · refine (List.pairwise_lt_finRange n).imp fun {i k} before read member read' member' => Or.inl ?_
      rw [(Node.mem_rangeReads.mp member).1, (Node.mem_rangeReads.mp member').1]
      exact before
  refine ⟨fun read => Db.mem_rangeReads, ?_, ordered⟩
  rw [List.Nodup, List.pairwise_map]
  refine ordered.imp_of_mem fun {read read'} member member' before same => ?_
  obtain ⟨i, worker, found, -⟩ := Db.mem_rangeReads.mp member
  obtain ⟨k, worker', found', -⟩ := Db.mem_rangeReads.mp member'
  rcases before with apart | ⟨-, less⟩
  · -- a key belongs to one worker
    have here := routed i read.key read.slab found
    have there := routed k read'.key read'.slab found'
    rw [same, there] at here
    omega
  · have self : compare read'.key read'.key = .eq := Std.ReflCmp.compare_self
    rw [same, Slice.lt_iff, self] at less
    cases less

/-- No batch is in progress: none is queued, and no worker has I/O to do or to finish. -/
def Db.Settled (db : Db n) : Prop :=
  ∀ k, (db.nodes k).batchQueue = [] ∧ (db.nodes k).worker.ioQueue = [] ∧ (db.nodes k).phase.owed = []

/-- A round takes `maxEvent` batches at most. -/
def Db.Rounds (db : Db n) : Prop := ∀ k cnt, (db.nodes k).phase = .popping cnt → cnt ≤ maxEvent

theorem Db.Rounds.set {db : Db n} (rounds : db.Rounds) {i : Fin n} {node : Node}
    (here : ∀ cnt, node.phase = .popping cnt → cnt ≤ maxEvent) : (db.set i node).Rounds := by
  intro k cnt phase
  by_cases same : k = i
  · subst same
    rw [Db.set_same] at phase
    exact here cnt phase
  · rw [Db.set_other _ _ same] at phase
    exact rounds k cnt phase

theorem Db.Rounds.submit {db db' : Db n} (rounds : db.Rounds) {batch : Batch}
    (submitted : db.submit split batch = some db') : db'.Rounds := by
  unfold Db.submit at submitted
  split at submitted
  · cases submitted
  · split at submitted
    · cases submitted
      exact rounds.set fun cnt phase => rounds _ cnt phase
    · cases submitted

theorem Db.Rounds.perform {effects : List Effect} : ∀ {db db' : Db n}, db.Rounds →
    Db.perform split db effects = some db' → db'.Rounds := by
  induction effects with
  | nil =>
      rintro db db' rounds ⟨⟩
      exact rounds
  | cons effect rest ih =>
      intro db db' rounds performed
      cases effect with
      | submit batch =>
          obtain ⟨mid, submitted, later⟩ := Option.bind_eq_some_iff.mp performed
          exact ih (rounds.submit submitted) later
      | respond id data res => exact ih rounds performed
      | scanned id key value answer => exact ih rounds performed

theorem rounds_of_run {kernel : Kernel} {j₀ j : Journal n} {acts : List (Act n)} {outs : List Unit}
    (start : j₀.db.Rounds) (ran : Run.run (Journal.next split kernel) j₀ acts = some (j, outs)) :
    j.db.Rounds := by
  refine @Run.invariant _ _ _ _ (fun j : Journal n => j.db.Rounds) (fun _ _ => True) ?_ _ _ _ _ start
    (Run.Along.of_forall fun _ _ => trivial) ran
  intro j act j' _ rounds _ taken
  cases act with
  | submit requests =>
      obtain ⟨db, submitted, same⟩ := Option.map_eq_some_iff.mp taken
      cases same
      exact rounds.submit submitted
  | pop i =>
      obtain ⟨out, popped, same⟩ := Option.map_eq_some_iff.mp taken
      cases same
      obtain ⟨cnt, batch, tail, req, rest, w, effects, db', -, -, -, room, -, performed, rfl⟩ :=
        Db.pop_eq_some popped
      refine Db.Rounds.perform (rounds.set fun cnt' phase => ?_) performed
      cases phase
      exact room
  | flush i =>
      obtain ⟨out, flushed, same⟩ := Option.map_eq_some_iff.mp taken
      cases same
      obtain ⟨cnt, -, rfl⟩ := Db.flush_eq_some flushed
      exact rounds.set fun cnt' phase => by cases phase
  | finish i =>
      obtain ⟨out, finished, same⟩ := Option.map_eq_some_iff.mp taken
      cases same
      rcases Db.finish_eq_some finished with ⟨events, -, rfl⟩ |
        ⟨aio, rest, events, aio', events', db', -, -, performed, rfl⟩
      · refine rounds.set fun cnt' phase => ?_
        cases phase
        exact Nat.zero_le _
      · exact Db.Rounds.perform (rounds.set fun cnt' phase => by cases phase) performed

/-- A scan that is submitted while no batch is in progress starts at the first worker. -/
theorem Scanning.start (split : Slice → Nat → Nat) (kernel : Kernel) {j₀ : Journal n} (some' : 0 < n)
    (settled : j₀.db.Settled) (readable : ∀ k, (j₀.db.nodes k).worker.Readable)
    (rounds : j₀.db.Rounds) (minKey maxKey : Slice) (callback : ScanCallback) :
    ∃ j₁, j₀.next split kernel (.submit [.scan minKey maxKey callback 0]) = some (j₁, ()) ∧
      Scanning j₀ minKey maxKey callback 0 [] j₁ := by
  let batch : Batch := ⟨j₀.submitted.length,
    .scan minKey maxKey callback 0 :: scanCopies n (.scan minKey maxKey callback 0), []⟩
  have submitted : j₀.db.submit split ⟨j₀.submitted.length, [.scan minKey maxKey callback 0], []⟩ =
      some (j₀.db.push ⟨0, some'⟩ batch) := by
    unfold Db.submit
    exact dif_pos some'
  have resting : ∀ k, (j₀.db.nodes k).Resting (j₀.db.nodes k).worker.index := by
    intro k
    obtain ⟨-, between, owed⟩ := settled k
    refine ⟨rfl, readable k, between, ?_⟩
    cases phase : (j₀.db.nodes k).phase with
    | popping cnt => exact rounds k cnt phase
    | finishing left events =>
        rw [phase] at owed
        exact owed
  have pushed : ∀ k, (j₀.db.push ⟨0, some'⟩ batch).nodes k =
      { j₀.db.nodes k with batchQueue := if k.val = 0 then [batch] else [] } := by
    intro k
    by_cases same : k = ⟨0, some'⟩
    · subst same
      rw [Db.push, Db.set_same, (settled _).1, if_pos rfl]
      rfl
    · rw [Db.push, Db.set_other _ _ same, if_neg fun equal => same (Fin.ext equal), ← (settled k).1]
  refine ⟨{ j₀ with
      db := j₀.db.push ⟨0, some'⟩ batch
      submitted := j₀.submitted ++ [[.scan minKey maxKey callback 0]] },
    by rw [Journal.next, submitted]; rfl, Nat.zero_le _, fun k => ?_, fun k first => ?_,
    fun k other => ?_, rfl, [], (List.append_nil _).symm, (if_neg (Nat.ne_of_lt some')).symm⟩
  · show ((j₀.db.push ⟨0, some'⟩ batch).nodes k).Resting _
    rw [pushed]
    exact ⟨rfl, (resting k).readable, (resting k).between, (resting k).free⟩
  · refine ⟨batch, ?_, rfl, requests_submitted some'⟩
    show ((j₀.db.push ⟨0, some'⟩ batch).nodes k).batchQueue = _
    rw [pushed]
    exact if_pos first
  · show ((j₀.db.push ⟨0, some'⟩ batch).nodes k).batchQueue = _
    rw [pushed]
    exact if_neg other

/-- **The scans of the workers are one scan.**  In every run without GETs the keys of a
worker's index are routed to it; and a scan that goes on to its end, submitted while no
other batch is in progress, reads the range over all workers, whatever steps the threads
take until it is answered, which they can always bring about. -/
theorem scan_partitioned (routed : ∀ key, split key n < n) {kernel : Kernel} {workDir : String}
    {pages : Nat} (two : 2 ≤ pages) {junk : Memory} {acts : List (Act n)} {j₀ : Journal n}
    {outs : List Unit} (notGets : ∀ act ∈ acts, act.Submits Request.NotGet)
    (ran : Run.run (Journal.next split kernel) (.new n workDir pages junk) acts = some (j₀, outs)) :
    (∀ (i : Fin n) (key : Slice) (s : SlabT),
      (j₀.db.nodes i).worker.index[key]? = some s → split key n = i) ∧
    (j₀.db.Settled → ∀ (minKey maxKey : Slice) (callback : ScanCallback),
      (∀ delivered, callback delivered = true) →
      ∃ j₁, j₀.next split kernel (.submit [.scan minKey maxKey callback 0]) = some (j₁, ()) ∧
        ∀ (steps : List (Act n)) (j : Journal n) (reads : List (List SlabRead)),
          (∀ act ∈ steps, act.IsThread) →
          Run.run (Journal.observe split kernel) j₁ steps = some (j, reads) →
          (j₀.submitted.length ∈ answeredIn (j.since j₀) →
            j₀.db.ReadsRange minKey maxKey reads.flatten) ∧
          ∃ more j' later, (∀ act ∈ more, Act.IsThread act) ∧
            Run.run (Journal.observe split kernel) j more = some (j', later) ∧
            j₀.submitted.length ∈ answeredIn (j'.since j₀)) := by
  have parted := parted_of_run two notGets ran
  have own : ∀ (i : Fin n) (key : Slice) (s : SlabT),
      (j₀.db.nodes i).worker.index[key]? = some s → split key n = i := fun i => (parted i).index
  refine ⟨own, fun settled minKey maxKey callback unstopped => ?_⟩
  have rounds : j₀.db.Rounds := rounds_of_run (fun k cnt phase => by cases phase; exact Nat.zero_le _) ran
  obtain ⟨j₁, submitted, start⟩ := Scanning.start split kernel (Nat.zero_lt_of_lt (routed [])) settled
    (fun k => (parted k).readable) rounds minKey maxKey callback
  refine ⟨j₁, submitted, fun steps j reads threads stepped => ?_⟩
  obtain ⟨i, scanning⟩ := start.run unstopped threads stepped
  rw [List.nil_append] at scanning
  constructor
  · intro answered
    obtain ⟨i', log, answers⟩ := scanning.log
    rw [Journal.since, log, List.drop_left, answers] at answered
    split at answered
    · next atEnd =>
        rw [scanning.reads, atEnd]
        exact Db.readsRange own minKey maxKey
    · cases answered
  · obtain ⟨more, j', later, threads', ran', ended⟩ := scanning.completes split kernel unstopped
      (Nat.add_sub_of_le scanning.within)
    obtain ⟨new, log, answers⟩ := ended.log
    refine ⟨more, j', later, threads', ran', ?_⟩
    rw [Journal.since, log, List.drop_left, answers, if_pos rfl]
    exact List.mem_singleton_self _

/-- Two workers with a key each; the one with the greater key is visited first. -/
theorem scan_partitioned_example :
    ∃ (j₀ j₁ j : Journal 2) (reads : List (List SlabRead)),
      j₀.next defaultSplitFunc .inOrder (.submit [.scan [] [99] (fun _ => true) 0]) = some (j₁, ()) ∧
      Run.run (Journal.observe defaultSplitFunc .inOrder) j₁ [.pop 0, .pop 1] = some (j, reads) ∧
      reads.flatten.map (fun read => (read.worker, read.key)) = [(0, [16]), (1, [6])] ∧
      j₀.db.ReadsRange [] [99] reads.flatten := by
  let start : Journal 2 := .new 2 "db" 4 fun _ => 0
  let acts : List (Act 2) := [.submit [.put [6] [2]], .submit [.put [16] [3]], .pop 1, .pop 0,
    .flush 0, .flush 1, .finish 1, .finish 0, .finish 0, .finish 1]
  let scan : Act 2 := .submit [.scan [] [99] (fun _ => true) 0]
  have ran : ∃ out, Run.run (Journal.next defaultSplitFunc .inOrder) start acts = some out ∧
      (∀ k, (out.1.db.nodes k).batchQueue.length = 0 ∧ (out.1.db.nodes k).worker.ioQueue.length = 0 ∧
        (out.1.db.nodes k).phase.owed.length = 0) ∧
      ∃ next ∈ out.1.next defaultSplitFunc .inOrder scan,
        ∃ last ∈ Run.run (Journal.observe defaultSplitFunc .inOrder) next.1 [.pop 0, .pop 1],
          out.1.submitted.length ∈ answeredIn (last.1.since out.1) ∧
          last.2.flatten.map (fun read => (read.worker, read.key)) = [(0, [16]), (1, [6])] := by
    refine ⟨(Run.run (Journal.next defaultSplitFunc .inOrder) start acts).get (by decide +kernel),
      (Option.some_get _).symm, ?_⟩
    decide +kernel
  obtain ⟨out, ran, lengths, next, submitted, last, stepped, answered, keys⟩ := ran
  have settled : out.1.db.Settled := by
    intro k
    obtain ⟨queue, io, owed⟩ := lengths k
    exact ⟨List.length_eq_zero_iff.mp queue, List.length_eq_zero_iff.mp io,
      List.length_eq_zero_iff.mp owed⟩
  obtain ⟨-, scans⟩ := scan_partitioned (fun key => Nat.mod_lt _ (by decide)) (by decide : 2 ≤ 4)
    (by simp [acts, Act.Submits, Request.NotGet]) ran
  obtain ⟨j₁, submitted', reach⟩ := scans settled [] [99] (fun _ => true) fun _ => rfl
  obtain rfl : next = (j₁, ()) := Option.some.inj (submitted.symm.trans submitted')
  exact ⟨out.1, j₁, last.1, last.2, submitted', stepped, keys,
    (reach [.pop 0, .pop 1] last.1 last.2 (by simp [Act.IsThread]) stepped).1 answered⟩

end KTableFS.Kvengine
