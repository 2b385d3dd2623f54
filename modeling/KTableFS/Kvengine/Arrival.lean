/-
# Kvengine.Arrival -- scans among the page reads of a round

`Worker::ProcessRequest_` only queues the page read of a GET; the entry is valid from
then on and waits for its data (`wait`).  A SCAN reads synchronously and takes any
valid entry `Lookup` finds, waiting or not: of a page that an earlier GET of the round
has missed it delivers what the frame held before.

* `scan_arrived_iff`: in a round of GETs and SCANs over pages and items in order, every
  pair a SCAN delivers is the item on disk of a key in its range, and no byte comes from
  an entry whose read is still queued, if and only if no SCAN's `Lookup` returns a
  waiting entry.

The entries are followed by what holds whatever has been looked up (`Filed`), so the
result covers workers whose recency list has lost entries.
-/
import KTableFS.Kvengine.EarlyStop
import KTableFS.Kvengine.FailedRead
import KTableFS.Kvengine.Outgrown

namespace KTableFS.Kvengine

open KTableFS.Theory

set_option autoImplicit false

/-! ## The entries of the cache -/

namespace PageCache

/-- A sane cache whose entries have their own frames, and whose index leads to entries
of the hash looked for. -/
structure Filed (c : PageCache) : Prop extends Sane c where
  page : ∀ e < c.usedPage, (c.entry e).page = e * pageSize
  hash : ∀ h e, c.index h = some e → (c.entry e).hash = h

theorem new_filed (pages : Nat) (junk : Memory) : (new pages junk).Filed where
  toSane := new_sane pages junk
  page _ allocated := absurd allocated (Nat.not_lt_zero _)
  hash _ _ found := by cases found

namespace Filed

variable {c c' : PageCache}

/-- What `Lookup` finds is an entry of the page. -/
theorem find (filed : c.Filed) {h ent : Nat} (found : c.find h = some ent) :
    ent < c.usedPage ∧ (c.entry ent).hash = h := by
  refine ⟨filed.toSane.find found, ?_⟩
  unfold PageCache.find at found
  split at found
  · next p hit =>
      cases found
      exact (walk_hit filed.toLinked 20 filed.newest hit).2
  · cases found
  · split at found
    · cases found
    · next e indexed =>
        split at found
        · cases found
          exact filed.hash h ent indexed
        · cases found

theorem relinked (filed : c.Filed) (same : Relinked c c') (sane : c'.Sane) : c'.Filed where
  toSane := sane
  page e allocated := (same.page e).trans (filed.page e (same.usedPage ▸ allocated))
  hash h e indexed := (same.hash e).trans (filed.hash h e (same.index ▸ indexed))

theorem completed (filed : c.Filed) (done : c.Completed c') : c'.Filed where
  toSane := filed.toSane.completed done
  page e allocated := (done.page e).trans (filed.page e (done.usedPage ▸ allocated))
  hash h e indexed := (done.hash e).trans (filed.hash h e (done.index ▸ indexed))

end Filed

/-- An entry no hash leads to is installed under its new one. -/
theorem install_filed {c c' : PageCache} {ent hash : Nat}
    (updated : (c.install ent hash).update ent = some c') (sane : c'.Sane)
    (page : ∀ e < c.usedPage, (c.entry e).page = e * pageSize)
    (unfiled : ∀ h e, c.index h = some e → e ≠ ent ∧ (c.entry e).hash = h) :
    c'.Filed ∧ c'.data = c.data := by
  have relinked := update_relinked updated
  refine ⟨⟨sane, fun e allocated => ?_, fun h e indexed => ?_⟩, relinked.data⟩
  · rw [relinked.page, install_entry]
    have old := page e (relinked.usedPage ▸ allocated)
    split
    · next same => exact same ▸ old
    · exact old
  · rw [relinked.index] at indexed
    rw [relinked.hash, install_entry]
    simp only [PageCache.install] at indexed
    split at indexed
    · obtain ⟨other, kept⟩ := unfiled h e indexed
      rw [if_neg other]
      exact kept
    · rw [Function.update_apply] at indexed
      split at indexed
      · next isHash =>
          cases indexed
          rw [if_pos rfl]
          exact isHash.symm
      · obtain ⟨other, kept⟩ := unfiled h e indexed
        rw [if_neg other]
        exact kept

theorem Filed.newEntry {c c' : PageCache} (filed : c.Filed) {hash ent : Nat}
    (made : c.newEntry hash = some (ent, c')) : c'.Filed ∧ c'.data = c.data := by
  have took := filed.toSane.newEntry made
  unfold PageCache.newEntry at made
  split at made
  · simp only [Option.map_eq_some_iff, Prod.mk.injEq] at made
    obtain ⟨_, updated, rfl, rfl⟩ := made
    refine And.imp_right (fun same => same.trans rfl)
      (install_filed updated took.sane (fun e allocated => ?_) fun h e indexed => ?_)
    · rw [modify_entry]
      split
      · next same => rw [same]
      · next other =>
          have allocated : e < c.usedPage + 1 := allocated
          exact filed.page e (by omega)
    · have older := filed.index h e indexed
      have other : e ≠ c.usedPage := by omega
      rw [modify_entry, if_neg other]
      exact ⟨other, filed.hash h e indexed⟩
  · split at made
    · cases made
    · next victim found =>
        split at made
        · cases made
        · next mid unlinked =>
            simp only [Option.map_eq_some_iff, Prod.mk.injEq] at made
            obtain ⟨_, updated, rfl, rfl⟩ := made
            have relinked := unlink_relinked unlinked
            refine And.imp_right (fun same => same.trans relinked.data)
              (install_filed updated took.sane (fun e allocated => ?_) fun h e indexed => ?_)
            · exact (relinked.page e).trans (filed.page e (relinked.usedPage ▸ allocated))
            · simp only [Function.update_apply] at indexed
              split at indexed
              · cases indexed
              · next other =>
                  rw [relinked.index] at indexed
                  have kept := filed.hash h e indexed
                  refine ⟨?_, (relinked.hash e).trans kept⟩
                  rintro rfl
                  exact other (((relinked.hash e).trans kept).symm)

theorem newEntry_usedPage {c c' : PageCache} {hash ent : Nat}
    (made : c.newEntry hash = some (ent, c')) (e : Nat) :
    e < c'.usedPage ↔ e < c.usedPage ∨ e = ent ∧ ent < c'.usedPage := by
  unfold PageCache.newEntry at made
  split at made
  · simp only [Option.map_eq_some_iff, Prod.mk.injEq] at made
    obtain ⟨_, updated, rfl, rfl⟩ := made
    have used : _ = c.usedPage + 1 := (update_relinked updated).usedPage
    omega
  · split at made
    · cases made
    · next victim found =>
        split at made
        · cases made
        · next mid unlinked =>
            simp only [Option.map_eq_some_iff, Prod.mk.injEq] at made
            obtain ⟨_, updated, rfl, rfl⟩ := made
            have used : _ = c.usedPage :=
              (update_relinked updated).usedPage.trans (unlink_relinked unlinked).usedPage
            omega

end PageCache

/-! ## Synchronous reads -/

theorem PageCache.filed_stable : PageCache.Stable PageCache.Filed where
  lookup filed looked := by
    obtain ⟨sane, relinked⟩ := filed.toSane.lookup looked
    exact filed.relinked relinked sane
  newEntry filed made := (filed.newEntry made).1
  completed filed done := filed.completed done

/-- A step of a scan is a synchronous read. -/
theorem scanReads_eq_some {fs fs' : FileSlab} {entry : Slice × SlabT} {pair : Slice × Slice}
    (read : scanReads fs entry = some (fs', pair)) :
    ∃ bytes files, fs.fileSet.readSync entry.2.file entry.2.size entry.2.off = some (bytes, files) ∧
      fs' = { fs with fileSet := files } ∧ pair = (decodeItem bytes).2 := by
  simp only [scanReads, FileSlab.readSync, Option.map_map, Option.map_eq_some_iff] at read
  obtain ⟨⟨bytes, files⟩, read, same⟩ := read
  cases same
  exact ⟨bytes, files, read, rfl, rfl⟩

/-- A scan reads the slabs of its range one after another, and passes on what it
reads. -/
theorem scanLoop_reads {callback : ScanCallback} : ∀ {entries : List (Slice × SlabT)}
    {fs fs' : FileSlab} {batch batch' : Batch} {effects : List Effect},
    Worker.scanLoop callback entries fs batch = some (fs', batch', effects) →
      ∃ pairs, Run.run scanReads fs entries = some (fs', pairs) ∧
        ∀ id key value answer, .scanned id key value answer ∈ effects →
          id = batch.id ∧ (key, value) ∈ pairs := by
  intro entries
  induction entries with
  | nil =>
      intro fs fs' batch batch' effects scanned
      cases scanned
      exact ⟨[], rfl, by simp⟩
  | cons entry rest ih =>
      intro fs fs' batch batch' effects scanned
      unfold Worker.scanLoop at scanned
      split at scanned
      · cases scanned
      · next pair mid read =>
          obtain ⟨⟨fs₂, last, later⟩, looped, same⟩ := Option.map_eq_some_iff.mp scanned
          cases same
          obtain ⟨pairs, ran, delivered⟩ := ih looped
          have step : scanReads fs entry = some (mid, pair) := by
            simp only [scanReads, read, Option.map_some, Prod.swap_prod_mk]
          have called : (Worker.deliver callback batch pair).1.id = batch.id ∧
              ∀ id key value answer, .scanned id key value answer ∈ (Worker.deliver callback batch pair).2 →
                id = batch.id ∧ (key, value) = pair := by
            unfold Worker.deliver
            simp only
            split
            · refine ⟨rfl, fun id key value answer member => ?_⟩
              cases List.mem_singleton.mp member
              exact ⟨rfl, rfl⟩
            · refine ⟨rfl, fun id key value answer member => ?_⟩
              rcases List.mem_cons.mp member with first | second
              · cases first
                exact ⟨rfl, rfl⟩
              · exact absurd (List.mem_singleton.mp second).symm (finishRequest_ne_scanned _ _ _ _ _ _ _)
          refine ⟨pair :: pairs, Run.run_cons_eq_some.mpr ⟨mid, pair, pairs, step, ran, rfl⟩, ?_⟩
          intro id key value answer member
          rcases List.mem_append.mp member with now | then'
          · obtain ⟨named, isPair⟩ := called.2 id key value answer now
            exact ⟨named, isPair ▸ List.mem_cons_self ..⟩
          · obtain ⟨named, isPair⟩ := delivered id key value answer then'
            exact ⟨named.trans called.1, List.mem_cons_of_mem _ isPair⟩

/-! ## The workers between rounds -/

/-- A worker between two rounds of any requests, however their I/O ended. -/
inductive Worker.Reached : Worker → Prop where
  | new (id : Nat) (workDir : String) (pages : Nat) (junk : Memory) :
      Reached (.new id workDir pages junk)
  | round {w w' : Worker} {kernel : Kernel} {reqs : List Request} {effects : List Effect}
      (reached : Reached w) (ran : w.round kernel (batchesFrom 0 reqs) = some (w', effects)) :
      Reached w'

/-- The cache and the slabs are in order, those of queued requests included. -/
structure Worker.Orderly (w : Worker) : Prop where
  filed : w.pagecache.Filed
  classes : ∀ c ∈ w.slab.slabs, c.Regular
  index : ∀ (key : Slice) (s : SlabT), w.index[key]? = some s → s.Regular
  queued : ∀ a ∈ w.ioQueue, ∀ key s, .put key s ∈ a.callbacks → s.Regular

namespace Worker.Orderly

variable {w : Worker} (orderly : w.Orderly)

include orderly

theorem cache {c : PageCache} (filed : c.Filed) : (w.setPagecache c).Orderly :=
  ⟨filed, orderly.classes, orderly.index, orderly.queued⟩

theorem queue {fs : FileSlab} {a : Aio} (filed : fs.fileSet.pagecache.Filed)
    (classes : ∀ c ∈ fs.slabs, c.Regular) (puts : ∀ key s, .put key s ∈ a.callbacks → s.Regular) :
    (w.queue fs a).Orderly := by
  refine ⟨filed, classes, orderly.index, fun b member => ?_⟩
  rcases List.mem_append.mp member with old | new
  · exact orderly.queued b old
  · rw [List.mem_singleton.mp new]
    exact puts

/-- A queued write that puts nothing but `given`. -/
theorem write {fs fs' : LocalFileSet} {slabs : List SingleFileSlab} {file off : Nat} {data : Slice}
    {aio a : Aio} (cache : fs.pagecache = w.pagecache) (classes : ∀ c ∈ slabs, c.Regular)
    (puts : ∀ key s, .put key s ∈ aio.callbacks → s.Regular)
    (queued : fs.write file data off aio = some (a, fs')) : (w.queue ⟨fs', slabs⟩ a).Orderly := by
  obtain ⟨-, hit, c, looked, rfl, rfl⟩ := LocalFileSet.write_eq_some queued
  rw [cache] at looked
  obtain ⟨sane, relinked⟩ := orderly.filed.toSane.lookup looked
  refine orderly.queue (orderly.filed.relinked relinked sane) classes fun key s member => ?_
  rcases List.mem_append.mp member with old | new
  · exact puts key s old
  · cases hit with
    | none => cases new
    | some ent => simp at new

theorem processed {w' : Worker} {id : Nat} {req : Request} {effects : List Effect}
    (processed : Processed w id req w' effects) : w'.Orderly := by
  cases processed with
  | refused reason => exact orderly
  | get found queued =>
      obtain ⟨-, hit, c, c', looked, rfl, kind⟩ := LocalFileSet.read_eq_some queued
      obtain ⟨sane, relinked⟩ := orderly.filed.toSane.lookup looked
      have kept := orderly.filed.relinked relinked sane
      rcases kind with ⟨ent, -, rfl, rfl⟩ | ⟨ent, -, made, rfl⟩
      · exact orderly.queue kept orderly.classes (by simp [Aio.toFake, Worker.blankAio, Aio.addCallback, Aio.new])
      · exact orderly.queue (kept.newEntry made).1 orderly.classes
          (by simp [Aio.toLoad, Worker.blankAio, Aio.addCallback, Aio.new])
  | put absent created queued =>
      obtain ⟨classes, regular, -⟩ := createIn_regular orderly.classes created
      refine orderly.write (createIn_files created).1 classes (fun key s member => ?_) queued
      have same : Callback.put key s = Callback.put _ _ := List.mem_singleton.mp member
      cases same
      exact regular
  | update found queued => exact orderly.write rfl orderly.classes (by simp [Worker.blankAio, Aio.new]) queued
  | delete found freed queued =>
      exact orderly.write rfl (freeIn_regular orderly.classes (orderly.index _ _ found) freed)
        (by simp [Worker.blankAio, Aio.addCallback, Aio.new]) queued
  | scan scanned =>
      have filed := PageCache.filed_stable.scanLoop orderly.filed scanned
      obtain ⟨c, rfl⟩ := scanLoop_frame scanned
      exact orderly.cache filed

end Worker.Orderly

/-- What the callbacks enter in the index are the slabs of their PUTs. -/
theorem onIndex_source {callbacks : List Callback} : ∀ {index : Std.TreeMap Slice SlabT} {key : Slice}
    {s : SlabT}, (callbacks.foldl Callback.onIndex index)[key]? = some s →
      index[key]? = some s ∨ .put key s ∈ callbacks := by
  induction callbacks with
  | nil => exact fun found => Or.inl found
  | cons callback rest ih =>
      intro index key s found
      rcases ih found with earlier | later
      · cases callback with
        | put key' slab =>
            simp only [Callback.onIndex, getElem?_insertIfNew] at earlier
            split at earlier
            · next isNew =>
                cases earlier
                rw [isNew.1]
                exact Or.inr (List.mem_cons_self ..)
            · exact Or.inl earlier
        | delete key' =>
            simp only [Callback.onIndex, getElem?_erase] at earlier
            split at earlier
            · cases earlier
            · exact Or.inl earlier
        | fileSlabRead => exact Or.inl earlier
        | cacheWrite ent data off => exact Or.inl earlier
        | cacheRead ent => exact Or.inl earlier
      · exact Or.inr (List.mem_cons_of_mem _ later)

theorem foldl_index_source {pairs : List (Aio × Option IoEvent)} :
    ∀ {index : Std.TreeMap Slice SlabT} {key : Slice} {s : SlabT},
      (pairs.foldl (fun index pair => if (pair.1.given pair.2).success then pair.1.onIndex index
        else index) index)[key]? = some s →
      index[key]? = some s ∨ ∃ pair ∈ pairs, .put key s ∈ pair.1.callbacks := by
  induction pairs with
  | nil => exact fun found => Or.inl found
  | cons pair rest ih =>
      intro index key s found
      rcases ih found with earlier | ⟨later, member, puts⟩
      · simp only at earlier
        split at earlier
        · rcases onIndex_source earlier with old | new
          · exact Or.inl old
          · exact Or.inr ⟨pair, List.mem_cons_self .., new⟩
        · exact Or.inl earlier
      · exact Or.inr ⟨later, List.mem_cons_of_mem _ member, puts⟩

/-- The end of a round keeps it, whatever the kernel does. -/
theorem Worker.Orderly.settled {w : Worker} (orderly : w.Orderly) (fresh : w.Fresh) (kernel : Kernel) :
    (w.settle kernel).1.Orderly ∧ (w.settle kernel).1.ioQueue = [] := by
  obtain ⟨done, queue, -⟩ := Worker.settle_cache fresh kernel
  have books := Worker.finishEach_books (w.finishing kernel) (w.performIo kernel).1
  rw [Worker.finishing, ← finishAll_eq_finishEach _ _ _ fresh.events, ← Worker.settle_eq] at books
  obtain ⟨slabs, index, -⟩ := books
  refine ⟨⟨orderly.filed.completed done, ?_, fun key s found => ?_, by simp [queue]⟩, queue⟩
  · rw [slabs]
    exact orderly.classes
  · rw [index] at found
    rcases foldl_index_source found with old | ⟨pair, member, puts⟩
    · exact orderly.index key s old
    · exact orderly.queued pair.1 (List.of_mem_zip member).1 key s puts

/-- What every request keeps, a round of them keeps. -/
theorem processAll_invariant {Inv : Worker → Prop}
    (step : ∀ {w w' : Worker} {id : Nat} {req : Request} {effects : List Effect}, Inv w →
      Processed w id req w' effects → Inv w') {reqs : List Request} :
    ∀ {n : Nat} {w w' : Worker} {effects : List Effect}, Inv w →
      w.processAll (batchesFrom n reqs) = some (w', effects) → Inv w' := by
  induction reqs with
  | nil =>
      intro n w w' effects inv processed
      cases processed
      exact inv
  | cons req rest ih =>
      intro n w w' effects inv processed
      obtain ⟨mid, first, later, taken, others, -⟩ := processAll_cons processed
      exact ih (step inv (Worker.processRequest_processed taken)) others

theorem Worker.Reached.orderly {w : Worker} (reached : w.Reached) : w.Orderly ∧ w.ioQueue = [] := by
  induction reached with
  | new id workDir pages junk =>
      have geometry := Geometry.new id workDir pages junk
      exact ⟨⟨PageCache.new_filed pages junk, geometry.classes, geometry.index, by simp [Worker.new]⟩, rfl⟩
  | @round w w' kernel reqs effects reached ran ih =>
      obtain ⟨orderly, between⟩ := ih
      obtain ⟨⟨mid, early⟩, processed, same⟩ := Option.map_eq_some_iff.mp ran
      cases same
      have empty : w.Fresh := ⟨by simp [between], by simp [between]⟩
      have step : ∀ {w w' : Worker} {id : Nat} {req : Request} {effects : List Effect}, w.Orderly →
          Processed w id req w' effects → w'.Orderly := fun orderly => orderly.processed
      exact (processAll_invariant step orderly processed).settled (empty.processAll processed) _

/-! ## What a SCAN reads -/

/-- The entry `Lookup` finds for the page of a slab. -/
def FileSlab.cached (fs : FileSlab) (slab : SlabT) : Option Nat :=
  fs.fileSet.pagecache.find (pageHash slab.file (slab.off / pageSize))

/-- The entry a synchronous read takes its bytes from: the one found, or a new one. -/
def FileSlab.syncEntry (fs : FileSlab) (slab : SlabT) : Option Nat :=
  match fs.cached slab with
  | some ent => some ent
  | none => (fs.fileSet.pagecache.newEntry (pageHash slab.file (slab.off / pageSize))).map Prod.fst

/-- A read into the entry's frame is queued. -/
def Worker.Awaits (w : Worker) (ent : Nat) : Prop := ∃ a ∈ w.ioQueue, .cacheRead ent ∈ a.callbacks

/-- No synchronous read of the request takes its bytes from an entry whose read is still
queued. -/
def Worker.ReadsArrived (w : Worker) : Request → Prop
  | .scan minKey maxKey _ _ =>
      Run.Along scanReads (fun fs entry => ∀ ent ∈ fs.syncEntry entry.2, ¬ w.Awaits ent) w.slab
        (Worker.scanRange w.index minKey maxKey)
  | _ => True

/-- No `Lookup` of a SCAN returns an entry that waits for its data. -/
def Worker.FindsArrived (w : Worker) : Request → Prop
  | .scan minKey maxKey _ _ =>
      Run.Along scanReads
        (fun fs entry => ∀ ent ∈ fs.cached entry.2, (fs.fileSet.pagecache.entry ent).wait = false) w.slab
        (Worker.scanRange w.index minKey maxKey)
  | _ => True

instance (w : Worker) : (req : Request) → Decidable (w.FindsArrived req)
  | .scan .. => inferInstanceAs (Decidable (Run.Along ..))
  | .get _ => .isTrue trivial
  | .put .. => .isTrue trivial
  | .update .. => .isTrue trivial
  | .delete _ => .isTrue trivial

/-- The frame of an entry holds the page on disk, as far as the file goes. -/
def Worker.HoldsPage (w : Worker) (ent f p : Nat) : Prop :=
  ∀ i < pageSize, pageSize * p + i < (w.disk f).size →
    w.pagecache.data (ent * pageSize + i) = (w.disk f).byte (pageSize * p + i)

/-- Every indexed slab holds a valid item on disk, and every cached page has arrived and
equals its page on disk. -/
structure Worker.Synced (w : Worker) : Prop where
  items : ∀ (key : Slice) (slab : SlabT), w.index[key]? = some slab → ∃ value,
    ItemAt (w.disk slab.file).byte slab.off key value ∧ itemSize key value ≤ slab.size ∧
      slab.off + itemSize key value ≤ (w.disk slab.file).size
  arrived : ∀ e < w.pagecache.usedPage, (w.pagecache.entry e).wait = false
  pages : ∀ e < w.pagecache.usedPage, ∀ f < 2 ^ 16, ∀ p < 2 ^ 40,
    (w.pagecache.entry e).hash = pageHash f p → w.HoldsPage e f p

/-- Every pair a SCAN of the round passes to its callback is the item on disk of an
indexed slab, of a key in its range; and no synchronous read returns bytes of an entry
whose read has not completed yet. -/
structure ScansArrived (w : Worker) (reqs : List Request) (effects : List Effect) : Prop where
  delivered : ∀ i key value answer, .scanned i key value answer ∈ effects →
    ∃ minKey maxKey callback tag slab, reqs[i]? = some (.scan minKey maxKey callback tag) ∧
      key.lt minKey = false ∧ key.lt maxKey = true ∧ w.index[key]? = some slab ∧
      w.itemIn slab = (validTag, key, value)
  reads : RoundOk Worker.ReadsArrived w reqs

/-! ## While requests are taken -/

/-- A worker that has taken GETs and SCANs since it was `w₀`: the entries that wait are
those with a queued read, the others hold their pages. -/
structure Arriving (w₀ w : Worker) : Prop where
  filed : w.pagecache.Filed
  disk : w.disk = w₀.disk
  index : w.index = w₀.index
  awaited : ∀ e, w.Awaits e ↔ e < w.pagecache.usedPage ∧ (w.pagecache.entry e).wait = true
  pages : ∀ e < w.pagecache.usedPage, (w.pagecache.entry e).wait = false → ∀ f < 2 ^ 16, ∀ p < 2 ^ 40,
    (w.pagecache.entry e).hash = pageHash f p → w.HoldsPage e f p

theorem Worker.Synced.arriving {w : Worker} (synced : w.Synced) (orderly : w.Orderly)
    (between : w.ioQueue = []) : Arriving w w where
  filed := orderly.filed
  disk := rfl
  index := rfl
  awaited e := by
    refine iff_of_false (by simp [Worker.Awaits, between]) fun waits => ?_
    rw [synced.arrived e waits.1] at waits
    cases waits.2
  pages e allocated _ := synced.pages e allocated

/-- An indexed slab that is read from its page gives the item it holds. -/
theorem decodeItem_of_page {content : ByteFile} {slab : SlabT} {key value bytes : Slice}
    {memory : Memory} {addr : Nat} (regular : slab.Regular)
    (item : ItemAt content.byte slab.off key value) (fits : itemSize key value ≤ slab.size)
    (written : slab.off + itemSize key value ≤ content.size)
    (isCut : bytes = cut memory (addr + slab.off % pageSize) slab.size)
    (holds : ∀ i < pageSize, pageSize * (slab.off / pageSize) + i < content.size →
      memory (addr + i) = content.byte (pageSize * (slab.off / pageSize) + i)) :
    decodeItem bytes = (validTag, key, value) := by
  rw [isCut]
  refine decodeItem_of_itemAt (item.congr fun i inside => ?_) fits
  have inPage := SlabT.in_page regular.divides
  have parts := Nat.div_add_mod slab.off pageSize
  have place : slab.off + i = pageSize * (slab.off / pageSize) + (slab.off % pageSize + i) := by omega
  rw [place, Nat.add_assoc]
  exact holds _ (by omega) (by omega)

namespace Arriving

variable {w₀ w : Worker} (arriving : Arriving w₀ w)

include arriving

/-- Moving entries about in the recency list changes nothing. -/
theorem relinked {c : PageCache} (same : PageCache.Relinked w.pagecache c) (sane : c.Sane) :
    Arriving w₀ (w.setPagecache c) where
  filed := arriving.filed.relinked same sane
  disk := arriving.disk
  index := arriving.index
  awaited e := by
    refine (arriving.awaited e).trans ?_
    show _ ↔ e < c.usedPage ∧ (c.entry e).wait = true
    rw [same.usedPage, same.wait]
  pages e allocated arrived f file p page isPage := by
    have allocated : e < c.usedPage := allocated
    have arrived : (c.entry e).wait = false := arrived
    have isPage : (c.entry e).hash = pageHash f p := isPage
    rw [same.usedPage] at allocated
    rw [same.wait] at arrived
    rw [same.hash] at isPage
    have holds := arriving.pages e allocated arrived f file p page isPage
    intro i inside below
    show c.data _ = _
    rw [same.data]
    exact holds i inside below

/-- An entry that is taken anew was not awaited. -/
theorem fresh {hash ent : Nat} {c : PageCache} (took : PageCache.Took w.pagecache hash ent c) :
    ¬ w.Awaits ent := by
  intro awaits
  obtain ⟨allocated, waits⟩ := (arriving.awaited ent).mp awaits
  rcases took.free with beyond | idle
  · omega
  · rw [idle] at waits
    cases waits

/-- The pages of the other entries stay when one is taken anew and its frame filled. -/
theorem others {hash ent : Nat} {c : PageCache} {bytes : Slice}
    (made : w.pagecache.newEntry hash = some (ent, c)) (short : bytes.length ≤ pageSize) {e : Nat}
    (other : e ≠ ent) (allocated : e < c.usedPage) (arrived : (c.entry e).wait = false) {f p : Nat}
    (file : f < 2 ^ 16) (page : p < 2 ^ 40) (isPage : (c.entry e).hash = pageHash f p) :
    ∀ i < pageSize, pageSize * p + i < (w.disk f).size →
      blit c.data (ent * pageSize) bytes (e * pageSize + i) = (w.disk f).byte (pageSize * p + i) := by
  have took := arriving.filed.toSane.newEntry made
  have same := (arriving.filed.newEntry made).2
  intro i inside below
  have apart : e * pageSize + i < ent * pageSize ∨ ent * pageSize + bytes.length ≤ e * pageSize + i := by
    simpa using frame_apart other inside (show 0 + bytes.length ≤ pageSize by omega)
  rw [blit_outside _ apart, same]
  obtain ⟨wait, -, kept⟩ := took.others e other
  rw [wait] at arrived
  rw [kept] at isPage
  have old : e < w.pagecache.usedPage := by
    rcases (PageCache.newEntry_usedPage made e).mp allocated with old | ⟨isNew, -⟩
    · exact old
    · exact absurd isNew other
  exact arriving.pages e old arrived f file p page isPage i inside below

/-- An entry taken anew for a page, once its frame holds the page. -/
theorem loaded {f p ent : Nat} {mid c : PageCache} (file : f < 2 ^ 16) (page : p < 2 ^ 40)
    (made : w.pagecache.newEntry (pageHash f p) = some (ent, mid)) (done : mid.Completed c)
    (data : c.data = blit mid.data (ent * pageSize) ((w.disk f).pread pageSize (pageSize * p)))
    (wait : ∀ e, (c.entry e).wait = if e = ent then false else (mid.entry e).wait) :
    Arriving w₀ (w.setPagecache c) := by
  have took := arriving.filed.toSane.newEntry made
  obtain ⟨filed, -⟩ := arriving.filed.newEntry made
  have short : ((w.disk f).pread pageSize (pageSize * p)).length ≤ pageSize := by
    rw [ByteFile.length_pread]
    exact Nat.min_le_left ..
  refine ⟨filed.completed done, arriving.disk, arriving.index, fun e => ?_, ?_⟩
  · show w.Awaits e ↔ e < c.usedPage ∧ (c.entry e).wait = true
    rw [done.usedPage, wait]
    by_cases isNew : e = ent
    · subst isNew
      simpa using arriving.fresh took
    · rw [if_neg isNew, (took.others e isNew).1, arriving.awaited, PageCache.newEntry_usedPage made]
      simp [isNew]
  · intro e allocated arrived f' file' p' page' isPage i inside below
    have allocated : e < c.usedPage := allocated
    have arrived : (c.entry e).wait = false := arrived
    have isPage : (c.entry e).hash = pageHash f' p' := isPage
    rw [done.usedPage] at allocated
    rw [wait] at arrived
    rw [done.hash] at isPage
    show c.data _ = _
    rw [data]
    by_cases isNew : e = ent
    · subst isNew
      rw [took.marked.2.2] at isPage
      obtain ⟨rfl, rfl⟩ := pageHash_inj file page file' page' isPage
      exact ByteFile.blit_pread _ _ inside below
    · rw [if_neg isNew] at arrived
      exact arriving.others made short isNew allocated arrived file' page' isPage i inside below

/-- **A synchronous read keeps it**, and returns the file's bytes unless it found an
entry that waits. -/
theorem readSync {slab : SlabT} {bytes : Slice} {files : LocalFileSet} (file : slab.file < 2 ^ 16)
    (read : w.slab.fileSet.readSync slab.file slab.size slab.off = some (bytes, files)) :
    (∃ c, files = { w.slab.fileSet with pagecache := c } ∧ Arriving w₀ (w.setPagecache c)) ∧
      ((∀ ent ∈ w.slab.cached slab, (w.pagecache.entry ent).wait = false) →
        ∃ memory addr, bytes = cut memory (addr + slab.off % pageSize) slab.size ∧
          ∀ i < pageSize, pageSize * (slab.off / pageSize) + i < (w.disk slab.file).size →
            memory (addr + i) = (w.disk slab.file).byte (pageSize * (slab.off / pageSize) + i)) := by
  obtain ⟨-, hit, c, c', ent, looked, rfl, rfl, kind⟩ := LocalFileSet.readSync_eq_some read
  have page := slab.page_lt
  rcases kind with ⟨rfl, rfl⟩ | ⟨mid, rfl, made, rfl⟩
  · obtain ⟨sane, relinked⟩ := arriving.filed.toSane.lookup looked
    have kept := arriving.relinked relinked sane
    refine ⟨⟨c', rfl, kept⟩, fun arrived => ⟨c'.data, (c'.entry ent).page, rfl, ?_⟩⟩
    have found : w.slab.cached slab = some ent := by
      unfold PageCache.lookup at looked
      unfold FileSlab.cached
      split at looked
      · cases looked
      · next e isFound =>
          simp only [Option.map_eq_some_iff, Prod.mk.injEq, Option.some.injEq] at looked
          obtain ⟨_, -, rfl, -⟩ := looked
          exact isFound
    obtain ⟨allocated, isPage⟩ := arriving.filed.find found
    have holds := arriving.pages ent allocated (arrived ent found) slab.file file _ page isPage
    rw [relinked.page, arriving.filed.page ent allocated, relinked.data]
    exact holds
  · obtain ⟨rfl, -⟩ := PageCache.lookup_miss looked
    have allocated := (arriving.filed.toSane.newEntry made).allocated
    have frame : (mid.entry ent).page = ent * pageSize :=
      (arriving.filed.newEntry made).1.page ent allocated
    have done := w.slab.fileSet.loadPage_completed slab.file (slab.off / pageSize) ent mid
    have data : (w.slab.fileSet.loadPage slab.file (slab.off / pageSize) ent mid).data =
        blit mid.data (ent * pageSize)
          ((w.disk slab.file).pread pageSize (pageSize * (slab.off / pageSize))) := by
      rw [← frame]
      rfl
    have wait : ∀ e, ((w.slab.fileSet.loadPage slab.file (slab.off / pageSize) ent mid).entry e).wait =
        if e = ent then false else (mid.entry e).wait := by
      intro e
      rw [LocalFileSet.loadPage, PageCache.modify_entry]
      split
      · rfl
      · rfl
    refine ⟨⟨_, rfl, arriving.loaded file page made done data wait⟩, fun _ => ⟨_, _, rfl, ?_⟩⟩
    intro i inside below
    rw [done.page, frame, data]
    exact ByteFile.blit_pread _ _ inside below

/-- **A GET keeps it**: a page that is missed is awaited from now on. -/
theorem get {id : Nat} {slab : SlabT} {a : Aio} {files : LocalFileSet}
    (queued : w.slab.fileSet.read slab.file slab.size slab.off
      ((w.blankAio id).addCallback .fileSlabRead) = some (a, files)) :
    Arriving w₀ (w.queue { w.slab with fileSet := files } a) := by
  obtain ⟨-, hit, c, c', looked, rfl, kind⟩ := LocalFileSet.read_eq_some queued
  have awaits : ∀ (fs : FileSlab) (b : Aio) (e : Nat), (w.queue fs b).Awaits e ↔
      w.Awaits e ∨ .cacheRead e ∈ b.callbacks := by
    intro fs b e
    simp only [Worker.Awaits, Worker.queue_ioQueue, List.mem_append, List.mem_singleton]
    constructor
    · rintro ⟨d, old | rfl, loads⟩
      · exact Or.inl ⟨d, old, loads⟩
      · exact Or.inr loads
    · rintro (⟨d, old, loads⟩ | loads)
      · exact ⟨d, Or.inl old, loads⟩
      · exact ⟨b, Or.inr rfl, loads⟩
  rcases kind with ⟨ent, -, rfl, rfl⟩ | ⟨ent, rfl, made, rfl⟩
  · obtain ⟨sane, relinked⟩ := arriving.filed.toSane.lookup looked
    have kept := arriving.relinked relinked sane
    refine ⟨kept.filed, kept.disk, kept.index, fun e => ?_, kept.pages⟩
    rw [awaits]
    refine Iff.trans ?_ (kept.awaited e)
    simp [Aio.toFake, Worker.blankAio, Aio.addCallback, Aio.new, Worker.Awaits, Worker.setPagecache]
  · obtain ⟨rfl, -⟩ := PageCache.lookup_miss looked
    have took := arriving.filed.toSane.newEntry made
    obtain ⟨filed, -⟩ := arriving.filed.newEntry made
    refine ⟨filed, arriving.disk, arriving.index, fun e => ?_, ?_⟩
    · rw [awaits]
      have loads : .cacheRead e ∈ (((w.blankAio id).addCallback .fileSlabRead).toLoad slab.file slab.size
          slab.off ent (c'.entry ent).page).callbacks ↔ e = ent := by
        simp [Aio.toLoad, Worker.blankAio, Aio.addCallback, Aio.new]
      rw [loads]
      show _ ↔ e < c'.usedPage ∧ (c'.entry e).wait = true
      by_cases isNew : e = ent
      · subst isNew
        simp [took.allocated, took.marked.1]
      · rw [(took.others e isNew).1, arriving.awaited, PageCache.newEntry_usedPage made]
        simp [isNew]
    · intro e allocated arrived f file p page isPage i inside below
      have idle : (c'.entry e).wait = false := arrived
      have other : e ≠ ent := by
        rintro rfl
        rw [took.marked.1] at idle
        cases idle
      have nothing : ([] : Slice).length ≤ pageSize := Nat.zero_le _
      have holds := arriving.others made nothing other allocated idle file page isPage i inside below
      rw [blit_nil] at holds
      exact holds

/-- A synchronous read may take what it needs exactly if `Lookup` returns no waiting
entry. -/
theorem syncEntry_iff (slab : SlabT) : (∀ ent ∈ w.slab.syncEntry slab, ¬ w.Awaits ent) ↔
    ∀ ent ∈ w.slab.cached slab, (w.pagecache.entry ent).wait = false := by
  unfold FileSlab.syncEntry
  cases found : w.slab.cached slab with
  | some ent =>
      obtain ⟨allocated, -⟩ := arriving.filed.find found
      simp [arriving.awaited ent, allocated]
  | none =>
      refine iff_of_true (fun ent taken => ?_) (by simp)
      obtain ⟨⟨_, c⟩, made, rfl⟩ := Option.map_eq_some_iff.mp taken
      exact arriving.fresh (arriving.filed.toSane.newEntry made)

end Arriving

/-- A step of a scan, between other requests of the round. -/
theorem Arriving.scanStep {w₀ w : Worker} {fs fs' : FileSlab} {entry : Slice × SlabT}
    {pair : Slice × Slice} (arriving : Arriving w₀ { w with slab := fs }) (regular : entry.2.Regular)
    (step : scanReads fs entry = some (fs', pair)) : Arriving w₀ { w with slab := fs' } := by
  obtain ⟨bytes, files, read, rfl, -⟩ := scanReads_eq_some step
  obtain ⟨⟨c, rfl, kept⟩, -⟩ := @Arriving.readSync _ { w with slab := fs } arriving _ _ _ regular.file read
  exact kept

/-- The pairs of a scan whose reads find no waiting entry. -/
theorem Arriving.scanned {w₀ w : Worker} (synced : w₀.Synced)
    (regular : ∀ (key : Slice) (s : SlabT), w₀.index[key]? = some s → s.Regular)
    {entries : List (Slice × SlabT)} : ∀ {fs fs' : FileSlab} {pairs : List (Slice × Slice)},
    Arriving w₀ { w with slab := fs } → (∀ entry ∈ entries, w₀.index[entry.1]? = some entry.2) →
    Run.Along scanReads (fun fs entry => ∀ ent ∈ fs.cached entry.2,
      (fs.fileSet.pagecache.entry ent).wait = false) fs entries →
    Run.run scanReads fs entries = some (fs', pairs) →
    ∀ pair ∈ pairs, ∃ entry ∈ entries, pair.1 = entry.1 ∧
      w₀.itemIn entry.2 = (validTag, pair.1, pair.2) := by
  induction entries with
  | nil =>
      intro fs fs' pairs _ _ _ ran
      cases ran
      simp
  | cons entry rest ih =>
      intro fs fs' pairs arriving indexed finds ran pair member
      have here := indexed entry (List.mem_cons_self ..)
      obtain ⟨mid, first, later, step, others, rfl⟩ := Run.run_cons_eq_some.mp ran
      rcases List.mem_cons.mp member with rfl | member
      · obtain ⟨value, item, fits, written⟩ := synced.items entry.1 entry.2 here
        have onDisk : w₀.itemIn entry.2 = (validTag, entry.1, value) := decodeItem_of_itemAt item fits
        obtain ⟨bytes, files, read, rfl, isPair⟩ := scanReads_eq_some step
        obtain ⟨-, returns⟩ := @Arriving.readSync _ { w with slab := fs } arriving _ _ _
          (regular _ _ here).file read
        obtain ⟨memory, addr, isCut, holds⟩ := returns finds.1
        rw [arriving.disk] at holds
        have decoded := decodeItem_of_page (regular _ _ here) item fits written isCut holds
        refine ⟨entry, List.mem_cons_self .., ?_⟩
        rw [isPair, decoded]
        exact ⟨rfl, onDisk⟩
      · obtain ⟨entry', inRest, isItem⟩ := ih (arriving.scanStep (regular _ _ here) step)
          (fun e inRest => indexed e (List.mem_cons_of_mem _ inRest)) (finds.2 _ _ step) others pair member
        exact ⟨entry', List.mem_cons_of_mem _ inRest, isItem⟩

/-! ## The round -/

/-- The requests of the round: no writes. -/
def Request.Reads : Request → Prop
  | .get _ => True
  | .scan .. => True
  | _ => False

section Round

variable {w₀ : Worker} (regular : ∀ (key : Slice) (s : SlabT), w₀.index[key]? = some s → s.Regular)

include regular

theorem Arriving.scanRange {w : Worker} (arriving : Arriving w₀ w) {minKey maxKey : Slice} :
    ∀ entry ∈ Worker.scanRange w.index minKey maxKey, entry.2.Regular := by
  intro entry member
  exact regular entry.1 entry.2 (arriving.index ▸ mem_scanRange member)

theorem Arriving.processed {w w' : Worker} {id : Nat} {req : Request} {effects : List Effect}
    (arriving : Arriving w₀ w) (reads : req.Reads) (processed : Processed w id req w' effects) :
    Arriving w₀ w' := by
  cases processed with
  | refused reason => exact arriving
  | get found queued => exact arriving.get queued
  | put absent created queued => exact reads.elim
  | update found queued => exact reads.elim
  | delete found freed queued => exact reads.elim
  | scan scanned =>
      obtain ⟨pairs, ran, -⟩ := scanLoop_reads scanned
      have preserved : ∀ (fs : FileSlab) (entry : Slice × SlabT) (fs' : FileSlab) (pair : Slice × Slice),
          Arriving w₀ { w with slab := fs } → entry.2.Regular → scanReads fs entry = some (fs', pair) →
            Arriving w₀ { w with slab := fs' } :=
        fun fs entry fs' pair arriving regular step => arriving.scanStep regular step
      exact Run.invariant preserved arriving (.of_forall (arriving.scanRange regular)) ran

/-- What a SCAN reads has arrived exactly if its lookups return no waiting entry. -/
theorem Arriving.readsArrived_iff {w : Worker} (arriving : Arriving w₀ w) (req : Request) :
    w.ReadsArrived req ↔ w.FindsArrived req := by
  cases req with
  | scan minKey maxKey callback tag =>
      have preserved : ∀ (fs : FileSlab) (entry : Slice × SlabT) (fs' : FileSlab) (pair : Slice × Slice),
          Arriving w₀ { w with slab := fs } → entry.2.Regular → scanReads fs entry = some (fs', pair) →
            Arriving w₀ { w with slab := fs' } :=
        fun fs entry fs' pair arriving regular step => arriving.scanStep regular step
      exact Run.Along.congr preserved (fun fs entry arriving _ => arriving.syncEntry_iff entry.2) arriving
        (arriving.scanRange regular)
  | get key => exact Iff.rfl
  | put key value => exact Iff.rfl
  | update key value => exact Iff.rfl
  | delete key => exact Iff.rfl

theorem Arriving.round_iff {reqs : List Request} (start : Arriving w₀ w₀)
    (reads : ∀ req ∈ reqs, req.Reads) :
    RoundOk Worker.ReadsArrived w₀ reqs ↔ RoundOk Worker.FindsArrived w₀ reqs := by
  have preserved : ∀ (t : Taking) (req : Request) (t' : Taking) (u : Unit), Arriving w₀ t.worker →
      req.Reads → t.next req = some (t', u) → Arriving w₀ t'.worker := by
    intro t req t' u arriving reads taken
    obtain ⟨new, processed, -, -⟩ := Taking.next_eq_some taken
    exact arriving.processed regular reads processed
  exact Run.Along.congr preserved (fun t req arriving _ => arriving.readsArrived_iff regular req) start reads

end Round

/-- The pairs a request delivers are items on disk of its range, if its lookups return no
waiting entry. -/
theorem Arriving.delivers {w₀ w w' : Worker} {id : Nat} {req : Request} {effects : List Effect}
    (synced : w₀.Synced) (regular : ∀ (key : Slice) (s : SlabT), w₀.index[key]? = some s → s.Regular)
    (arriving : Arriving w₀ w) (finds : w.FindsArrived req) (processed : Processed w id req w' effects)
    {i : Nat} {key value : Slice} {answer : Bool} (member : .scanned i key value answer ∈ effects) :
    i = id ∧ ∃ minKey maxKey callback tag slab, req = .scan minKey maxKey callback tag ∧
      key.lt minKey = false ∧ key.lt maxKey = true ∧ w₀.index[key]? = some slab ∧
      w₀.itemIn slab = (validTag, key, value) := by
  cases processed with
  | refused reason => simp at member
  | get found queued => cases member
  | put absent created queued => cases member
  | update found queued => cases member
  | delete found freed queued => cases member
  | scan scanned =>
      obtain ⟨pairs, ran, delivered⟩ := scanLoop_reads scanned
      rcases List.mem_append.mp member with early | last
      · obtain ⟨named, inPairs⟩ := delivered i key value answer early
        have indexed : ∀ minKey maxKey, ∀ entry ∈ Worker.scanRange w.index minKey maxKey,
            w₀.index[entry.1]? = some entry.2 :=
          fun _ _ entry inRange => arriving.index ▸ mem_scanRange inRange
        obtain ⟨entry, inRange, isKey, isItem⟩ :=
          arriving.scanned synced regular (indexed _ _) finds ran _ inPairs
        have range := inRange
        rw [scanRange_eq_filter, List.mem_filter] at range
        simp only at isKey
        subst isKey
        simp only [Bool.and_eq_true, Bool.not_eq_true'] at range
        exact ⟨named, _, _, _, _, entry.2, rfl, range.2.1, range.2.2, indexed _ _ entry inRange,
          isItem⟩
      · exact absurd (List.mem_singleton.mp last).symm (finishRequest_ne_scanned _ _ _ _ _ _ _)

/-- The end of a round calls no scan callback. -/
theorem finishAll_silent {queue : List Aio} : ∀ {events : List IoEvent} {w : Worker} {i : Nat}
    {key value : Slice} {answer : Bool},
    .scanned i key value answer ∉ (Worker.finishAll queue events w).2 := by
  induction queue with
  | nil => exact List.not_mem_nil
  | cons aio rest ih =>
      intro events w i key value answer member
      rcases List.mem_cons.mp member with first | later
      · obtain ⟨-, data, effect⟩ := finish_hands w
          (if aio.submit then { aio with event := events.head?.map IoEvent.res } else aio)
        rw [effect] at first
        exact finishRequest_ne_scanned _ _ _ _ _ _ _ first.symm
      · exact ih later

/-- **A SCAN delivers only data that has arrived, exactly if `Lookup` never returns it an
entry that waits.**  For every worker between rounds whose indexed slabs hold their items
and whose cached pages equal the files, and every round of GETs and SCANs. -/
theorem scan_arrived_iff {w w' : Worker} {reqs : List Request} {effects : List Effect}
    (reached : w.Reached) (synced : w.Synced) (reads : ∀ req ∈ reqs, req.Reads)
    (served : w.serve reqs = some (w', effects)) :
    ScansArrived w reqs effects ↔ RoundOk Worker.FindsArrived w reqs := by
  obtain ⟨orderly, between⟩ := reached.orderly
  have regular := orderly.index
  have start := synced.arriving orderly between
  constructor
  · intro arrived
    exact (start.round_iff regular reads).mp arrived.reads
  · intro finds
    refine ⟨?_, (start.round_iff regular reads).mpr finds⟩
    let Inv : Taking → Prop := fun t => Arriving w t.worker ∧
      ∀ i key value answer, .scanned i key value answer ∈ t.effects →
        ∃ minKey maxKey callback tag slab, t.seen[i]? = some (.scan minKey maxKey callback tag) ∧
          key.lt minKey = false ∧ key.lt maxKey = true ∧ w.index[key]? = some slab ∧
          w.itemIn slab = (validTag, key, value)
    have step : ∀ {t t' : Taking} {req : Request} {new : List Effect}, Inv t →
        t.worker.FindsArrived req ∧ req.Reads → Processed t.worker t.seen.length req t'.worker new →
        t'.seen = t.seen ++ [req] → t'.effects = t.effects ++ new → Inv t' := by
      rintro t t' req new ⟨arriving, delivered⟩ ⟨finds, reads⟩ processed seen effects
      refine ⟨arriving.processed regular reads processed, fun i key value answer member => ?_⟩
      rw [effects] at member
      rw [seen]
      rcases List.mem_append.mp member with old | now
      · obtain ⟨minKey, maxKey, callback, tag, slab, isScan, rest⟩ := delivered i key value answer old
        refine ⟨minKey, maxKey, callback, tag, slab, ?_, rest⟩
        rw [List.getElem?_append_left (List.getElem?_eq_some_iff.mp isScan).1]
        exact isScan
      · obtain ⟨rfl, minKey, maxKey, callback, tag, slab, rfl, rest⟩ :=
          arriving.delivers synced regular finds processed now
        exact ⟨minKey, maxKey, callback, tag, slab, List.getElem?_concat_length .., rest⟩
    have both : RoundOk (fun w req => w.FindsArrived req ∧ req.Reads) w reqs := finds.and_forall reads
    obtain ⟨t, ⟨-, delivered⟩, rfl, -, rfl⟩ :=
      @serve_induction _ Inv step w w' reqs effects ⟨start, by simp [Worker.taking]⟩ both served
    intro i key value answer member
    rcases List.mem_append.mp member with early | late
    · exact delivered i key value answer early
    · rw [Worker.settle_eq] at late
      exact absurd late finishAll_silent

/-- A worker that has stored one key and cached no page. -/
theorem oneKey_synced {w : Worker} {outs : List (List Effect)}
    (ran : Run.run Worker.serve (Worker.new 0 "db" 2 fun _ => 9) [[.put [1] [2]]] = some (w, outs)) :
    w.Reached ∧ w.Synced := by
  have facts : ∀ out ∈ Run.run Worker.serve (Worker.new 0 "db" 2 fun _ => 9) [[.put [1] [2]]],
      (∀ entry ∈ out.1.index.toList, entry = ([1], ⟨64, 1, 0⟩)) ∧
      cut (out.1.disk 1).byte 0 8 = itemBytes [1] [2] ∧ 8 ≤ (out.1.disk 1).size ∧
      out.1.pagecache.usedPage = 0 := by
    decide +kernel
  obtain ⟨entries, item, written, unused⟩ := facts _ ran
  have none' : ∀ e, ¬ e < w.pagecache.usedPage := by
    intro e allocated
    have unused : w.pagecache.usedPage = 0 := unused
    omega
  refine ⟨?_, ⟨fun key slab found => ?_, fun e allocated => absurd allocated (none' e),
    fun e allocated => absurd allocated (none' e)⟩⟩
  · obtain ⟨w', b, bs, served, done, -⟩ := Run.run_cons_eq_some.mp ran
    cases done
    exact .round (.new 0 "db" 2 fun _ => 9) served
  · have member : (key, slab) ∈ w.index.toList := Std.TreeMap.mem_toList_iff_getElem?_eq_some.mpr found
    cases entries _ member
    exact ⟨[2], ⟨⟨by decide, by decide⟩, item⟩, by decide, written⟩

/-- A SCAN, a GET of the page it has loaded, and another SCAN. -/
theorem scan_arrived_iff_example : ∃ (w w' : Worker) (effects : List Effect),
    w.serve [.scan [] [9] (fun _ => true) 0, .get [1], .scan [] [9] (fun _ => true) 0] =
      some (w', effects) ∧
    ScansArrived w [.scan [] [9] (fun _ => true) 0, .get [1], .scan [] [9] (fun _ => true) 0] effects := by
  have runs : ∃ out ∈ Run.run Worker.serve (Worker.new 0 "db" 2 fun _ => 9) [[.put [1] [2]]],
      RoundOk Worker.FindsArrived out.1
        [.scan [] [9] (fun _ => true) 0, .get [1], .scan [] [9] (fun _ => true) 0] ∧
      (out.1.serve [.scan [] [9] (fun _ => true) 0, .get [1], .scan [] [9] (fun _ => true) 0]).isSome := by
    decide +kernel
  obtain ⟨⟨w, outs⟩, ran, finds, some'⟩ := runs
  obtain ⟨⟨w', effects⟩, served⟩ := Option.isSome_iff_exists.mp some'
  obtain ⟨reached, synced⟩ := oneKey_synced ran
  exact ⟨w, w', effects, served,
    (scan_arrived_iff reached synced (by simp [Request.Reads]) served).mpr finds⟩

/-- A SCAN delivers another key than the one that is stored. -/
def deliversOther : Effect → Bool
  | .scanned _ key _ _ => key != [1]
  | _ => false

/-- The GET first: the SCAN finds the entry it waits for, and delivers what the frame
held before. -/
theorem scan_delivers_junk :
    ¬ ∀ (w w' : Worker) (reqs : List Request) (effects : List Effect), w.Reached → w.Synced →
      (∀ req ∈ reqs, req.Reads) → w.serve reqs = some (w', effects) → ScansArrived w reqs effects := by
  intro always
  have runs : ∃ out ∈ Run.run Worker.serve (Worker.new 0 "db" 2 fun _ => 9) [[.put [1] [2]]],
      (∀ entry ∈ out.1.index.toList, entry.1 = [1]) ∧
      ∃ out' ∈ out.1.serve [.get [1], .scan [] [9] (fun _ => true) 0], out'.2.any deliversOther := by
    decide +kernel
  obtain ⟨⟨w, outs⟩, ran, keys, ⟨w', effects⟩, served, wrong⟩ := runs
  obtain ⟨reached, synced⟩ := oneKey_synced ran
  have arrived := always w w' _ effects reached synced (by simp [Request.Reads]) served
  obtain ⟨effect, member, isOther⟩ := List.any_eq_true.mp wrong
  cases effect with
  | scanned i key value answer =>
      obtain ⟨_, _, _, _, slab, -, -, -, found, -⟩ := arrived.delivered i key value answer member
      have isKey := keys (key, slab) (Std.TreeMap.mem_toList_iff_getElem?_eq_some.mpr found)
      simp only at isKey
      simp [deliversOther, isKey] at isOther
  | respond batch data res => simp [deliversOther] at isOther
  | submit batch => simp [deliversOther] at isOther

end KTableFS.Kvengine
