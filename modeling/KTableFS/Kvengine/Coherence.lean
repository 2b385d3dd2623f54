/-
# Kvengine.Coherence -- the page cache agrees with the files

`Worker.CacheCoherent`: whatever entry `Lookup` would return for a page of a file
holds the file's bytes, at every offset below the file's end.

This is `Cached` with the region below the ends of the files.  Nothing about keys
is needed, so the invariant that accompanies it, `Geometry`, says of the slabs only
that they lie inside one page each; it holds in every run, whatever the requests of
a round do to each other's keys.  `Worker.CacheSafe` collects what a request has to
meet when it is processed:

* its lookups are truthful;
* a page load takes no frame a queued callback writes to;
* a page a SCAN loads reads the same after the queued writes;
* a write past the end of a file finds the cached bytes of the gap zero;
* the item of an UPDATE stays in the page its slab starts in.
-/
import KTableFS.Kvengine.Ownership
import KTableFS.Kvengine.Frames

namespace KTableFS.Kvengine

open KTableFS.Theory

set_option autoImplicit false

/-! ## Slabs inside pages -/

/-- A slab a class of the worker has handed out: it lies in one page of a file. -/
structure SlabT.Regular (s : SlabT) : Prop where
  divides : s.size ∣ pageSize
  room : 8 ≤ s.size
  file : s.file < 2 ^ 16

/-- A slab class whose free slabs are its own. -/
structure SingleFileSlab.Regular (c : SingleFileSlab) : Prop where
  divides : c.slabSize ∣ pageSize
  room : 8 ≤ c.slabSize
  free : ∀ s ∈ c.freeSlab, s.size = c.slabSize ∧ s.file < 2 ^ 16

theorem SingleFileSlab.Regular.small {c : SingleFileSlab} (regular : c.Regular) :
    c.slabSize ≤ pageSize :=
  Nat.le_of_dvd (by decide) regular.divides

structure Geometry (w : Worker) : Prop where
  classes : ∀ c ∈ w.slab.slabs, c.Regular
  index : ∀ (key : Slice) (s : SlabT), w.index[key]? = some s → s.Regular
  pending : ∀ (key : Slice) (s : SlabT), w.pendIndex[key]? = some s → s.Regular
  narrow : w.files < 2 ^ 16
  blank : ∀ f, w.files < f → w.disk f = .empty
  blankPending : ∀ f, w.files < f → w.pendDisk f = .empty
  bounded : ∀ f, (w.pendDisk f).size ≤ 2 ^ 40

theorem SlabT.off_lt (s : SlabT) : s.off < 2 ^ 32 := Nat.mod_lt _ (by decide)

theorem mem_replace {α : Type} {P : α → Prop} {before after : List α} {c c' : α}
    (all : ∀ d ∈ before ++ c :: after, P d) (here : P c') : ∀ d ∈ before ++ c' :: after, P d := by
  intro d member
  rcases List.mem_append.mp member with inBefore | inAfter
  · exact all d (List.mem_append_left _ inBefore)
  · rcases List.mem_cons.mp inAfter with rfl | inAfter
    · exact here
    · exact all d (List.mem_append_right _ (List.mem_cons_of_mem _ inAfter))

/-- `Create` hands out a regular slab that holds the item. -/
theorem createIn_regular {size : Nat} {slabs slabs' : List SingleFileSlab} {fs fs' : LocalFileSet}
    {s : SlabT} (classes : ∀ c ∈ slabs, c.Regular)
    (created : FileSlab.createIn size slabs fs = some (s, slabs', fs')) :
    (∀ c ∈ slabs', c.Regular) ∧ s.Regular ∧ size ≤ s.size := by
  obtain ⟨before, c, after, c', rfl, rfl, fits, served⟩ := createIn_split created
  have regular := classes c (by simp)
  rcases served with ⟨free, shape, rfl, rfl⟩ | ⟨shape, rfl, rfl, rfl⟩
  · have inFree : ∀ x ∈ free, x ∈ c.freeSlab := fun x member => by
      rw [shape]
      exact List.mem_cons_of_mem _ member
    obtain ⟨sizeOf, file⟩ := regular.free s (by rw [shape]; exact List.mem_cons_self ..)
    refine ⟨mem_replace classes ⟨regular.divides, regular.room, fun x member =>
      regular.free x (inFree x member)⟩, ⟨?_, ?_, file⟩, ?_⟩
    · rw [sizeOf]
      exact regular.divides
    · rw [sizeOf]
      exact regular.room
    · rw [sizeOf]
      exact fits
  · have sameSize : (c.bump fs).1.slabSize = c.slabSize := by
      unfold SingleFileSlab.bump
      split <;> rfl
    have sameFree : (c.bump fs).1.freeSlab = c.freeSlab := by
      unfold SingleFileSlab.bump
      split <;> rfl
    have sizeOf : (c.bump fs).1.current.size = c.slabSize := by
      have small := regular.small
      simp only [SingleFileSlab.current, SlabT.pack, sameSize]
      exact Nat.mod_eq_of_lt (by simp only [pageSize] at small; omega)
    have file : (c.bump fs).1.current.file < 2 ^ 16 := Nat.mod_lt _ (by decide)
    refine ⟨mem_replace classes ⟨sameSize ▸ regular.divides, sameSize ▸ regular.room,
      fun x member => sameSize ▸ regular.free x (sameFree ▸ member)⟩, ⟨?_, ?_, file⟩, ?_⟩
    · rw [sizeOf]
      exact regular.divides
    · rw [sizeOf]
      exact regular.room
    · rw [sizeOf]
      exact fits

theorem freeIn_regular {s : SlabT} {slabs slabs' : List SingleFileSlab}
    (classes : ∀ c ∈ slabs, c.Regular) (regular : s.Regular)
    (freed : FileSlab.freeIn s slabs = some slabs') : ∀ c ∈ slabs', c.Regular := by
  obtain ⟨before, c, after, rfl, size, rfl⟩ := freeIn_split freed
  have own := classes c (by simp)
  refine mem_replace classes ⟨own.divides, own.room, fun x member => ?_⟩
  rcases List.mem_append.mp member with old | new
  · exact own.free x old
  · rw [List.mem_singleton.mp new]
    exact ⟨size.symm, regular.file⟩

/-- One queued write: the files grow by at most a page past the last slab. -/
theorem bounded_write {disk : Disk} (bounded : ∀ f, (disk f).size ≤ 2 ^ 40) {off : Nat} {data : Slice}
    (offset : off < 2 ^ 32) (short : data.length ≤ pageSize) (file : Nat) :
    ∀ f, (Function.update disk file ((disk file).pwrite data off) f).size ≤ 2 ^ 40 := by
  intro f
  rw [Function.update_apply]
  split
  · have old := bounded file
    simp only [pageSize] at short
    by_cases empty : data = []
    · rw [empty]
      exact old
    · rw [ByteFile.pwrite_size _ empty]
      omega
  · exact bounded f

/-! ## What a request has to meet -/

/-- The cached bytes between the end of the file and `off` are what a hole reads as. -/
def Worker.GapClean (w : Worker) (f off : Nat) : Prop :=
  ∀ o < off, (w.pendDisk f).size ≤ o → CoherentAt w f o

def Worker.WriteSafe (w : Worker) (f off : Nat) : Prop :=
  w.pagecache.Truthful (pageHash f (off / pageSize)) ∧ w.GapClean f off

/-- A synchronous load reads now what it would read after the queued writes. -/
def Worker.SyncSafe (w : Worker) (s : SlabT) : Prop :=
  w.PageSafe s.file (s.off / pageSize) ∧
    (w.pagecache.find (pageHash s.file (s.off / pageSize)) = none →
      (w.disk s.file).pread pageSize (pageSize * (s.off / pageSize)) =
        (w.pendDisk s.file).pread pageSize (pageSize * (s.off / pageSize)))

/-- The reads of a scan, one after another. -/
def scanReads (fs : FileSlab) (entry : Slice × SlabT) : Option (FileSlab × (Slice × Slice)) :=
  (fs.readSync entry.2).map Prod.swap

def Worker.ScanSafe (w : Worker) (minKey maxKey : Slice) : Prop :=
  Run.Along scanReads (fun fs entry => Worker.SyncSafe { w with slab := fs } entry.2) w.slab
    (Worker.scanRange w.index minKey maxKey)

/-- The condition under which a request keeps the cache coherent. -/
def Worker.CacheSafe (w : Worker) : Request → Prop
  | .get key => ∀ s ∈ w.index[key]?, w.PageSafe s.file (s.off / pageSize)
  | .put key value => w.index[key]? = none →
      ∀ out ∈ FileSlab.createIn (itemSize key value) w.slab.slabs w.slab.fileSet,
        w.WriteSafe out.1.file out.1.off
  | .update key value => ∀ s ∈ w.index[key]?, w.WriteSafe s.file s.off ∧
      s.off % pageSize + (itemBytes key value).length ≤ pageSize
  | .delete key => ∀ s ∈ w.index[key]?, w.WriteSafe s.file s.off
  | .scan minKey maxKey _ _ => w.ScanSafe minKey maxKey

instance (w : Worker) (f off : Nat) : Decidable (w.WriteSafe f off) :=
  inferInstanceAs (Decidable (_ ∧ ∀ o < off, (w.pendDisk f).size ≤ o → CoherentAt w f o))

instance (w : Worker) (s : SlabT) : Decidable (w.SyncSafe s) := inferInstanceAs (Decidable (_ ∧ _))

instance (w : Worker) : (req : Request) → Decidable (w.CacheSafe req)
  | .get key => inferInstanceAs (Decidable (∀ s ∈ w.index[key]?, _))
  | .put key _ => inferInstanceAs (Decidable (w.index[key]? = none → ∀ out ∈ FileSlab.createIn .., _))
  | .update key _ => inferInstanceAs (Decidable (∀ s ∈ w.index[key]?, _ ∧ _))
  | .delete key => inferInstanceAs (Decidable (∀ s ∈ w.index[key]?, _))
  | .scan .. => inferInstanceAs (Decidable (Run.Along ..))

/-! ## One request -/

/-- The region below the ends of the files, as the round will leave them. -/
def Below (w : Worker) (f o : Nat) : Prop := f < 2 ^ 16 ∧ o < (w.pendDisk f).size

theorem Geometry.write {w : Worker} (geometry : Geometry w) (fs : LocalFileSet)
    {slabs : List SingleFileSlab} {aio : Aio} {f off : Nat} {data : Slice} {hit : Option Nat}
    (disk : fs.disk = w.disk) (more : w.files ≤ fs.fileSet.length) (narrow : fs.fileSet.length < 2 ^ 16)
    (classes : ∀ c ∈ slabs, c.Regular)
    (pending : ∀ (key : Slice) (s : SlabT), (aio.onIndex w.pendIndex)[key]? = some s → s.Regular)
    (has : f ≤ fs.fileSet.length) (offset : off < 2 ^ 32) (short : data.length ≤ pageSize) :
    Geometry (w.queue ⟨fs, slabs⟩ (aio.toWrite f data off hit)) := by
  have index := w.pendIndex_queue ⟨fs, slabs⟩ (aio.toWrite f data off hit)
  have files := w.pendDisk_queue ⟨fs, slabs⟩ disk (aio.toWrite f data off hit)
  rw [Worker.onIndex_toWrite] at index
  rw [Worker.performDisk_toWrite] at files
  refine ⟨classes, geometry.index, ?_, narrow, ?_, ?_, ?_⟩
  · rw [index]
    exact pending
  · intro g past
    exact (congrFun disk g).trans (geometry.blank g (lt_of_le_of_lt more past))
  · rw [files]
    exact blank_update (fun g past => geometry.blankPending g (lt_of_le_of_lt more past)) has _
  · rw [files]
    exact bounded_write geometry.bounded offset short f

theorem Geometry.read {w : Worker} (geometry : Geometry w) {a : Aio} (isRead : a.IsRead)
    (c : PageCache) :
    Geometry (w.queue { w.slab with fileSet := { w.slab.fileSet with pagecache := c } } a) := by
  have index := w.pendIndex_queue { w.slab with fileSet := { w.slab.fileSet with pagecache := c } } a
  have files := w.pendDisk_queue { w.slab with fileSet := { w.slab.fileSet with pagecache := c } } rfl a
  rw [Worker.onIndex_of_read isRead] at index
  rw [performDisk_of_read isRead] at files
  refine ⟨geometry.classes, geometry.index, ?_, geometry.narrow, geometry.blank, ?_, ?_⟩
  · rw [index]
    exact geometry.pending
  · rw [files]
    exact geometry.blankPending
  · rw [files]
    exact geometry.bounded

theorem below_read {w : Worker} {a : Aio} (isRead : a.IsRead) (c : PageCache) : ∀ f o,
    Below (w.queue { w.slab with fileSet := { w.slab.fileSet with pagecache := c } } a) f o →
      Below w f o := by
  rintro f o ⟨file, below⟩
  have files := w.pendDisk_queue { w.slab with fileSet := { w.slab.fileSet with pagecache := c } } rfl a
  rw [performDisk_of_read isRead] at files
  exact ⟨file, files ▸ below⟩

/-- The region below the ends grows by the bytes written and the gap before them. -/
theorem below_write {w w' : Worker} {f off : Nat} {data : Slice} (nonempty : data ≠ [])
    (clean : w.GapClean f off)
    (files : w'.pendDisk = Function.update w.pendDisk f ((w.pendDisk f).pwrite data off)) :
    ∀ f' o, Below w' f' o →
      Below w f' o ∨ f' = f ∧ o < off + data.length ∧ (off ≤ o ∨ CoherentAt w f' o) := by
  rintro f' o ⟨file, below⟩
  rw [files, Function.update_apply] at below
  split at below
  · rename_i same
    subst same
    rw [ByteFile.pwrite_size _ nonempty] at below
    by_cases old : o < (w.pendDisk f').size
    · exact Or.inl ⟨file, old⟩
    · refine Or.inr ⟨rfl, by omega, ?_⟩
      by_cases low : off ≤ o
      · exact Or.inl low
      · exact Or.inr (clean o (by omega) (by omega))
  · exact Or.inl ⟨file, below⟩

theorem mem_scanRange {index : Std.TreeMap Slice SlabT} {minKey maxKey : Slice}
    {entry : Slice × SlabT} (member : entry ∈ Worker.scanRange index minKey maxKey) :
    index[entry.1]? = some entry.2 := by
  have inList : entry ∈ index.toList :=
    (List.dropWhile_sublist _).subset ((List.takeWhile_sublist _).subset member)
  exact Std.TreeMap.mem_toList_iff_getElem?_eq_some.mp inList

/-- A scan keeps any covered region. -/
theorem Cached.scan {T : Nat → Nat → Prop} {callback : ScanCallback} :
    ∀ {entries : List (Slice × SlabT)} {w : Worker} {fs : FileSlab} {batch batch' : Batch}
      {effects : List Effect}, Cached w T → (∀ entry ∈ entries, entry.2.file < 2 ^ 16) →
      Run.Along scanReads (fun fs entry => Worker.SyncSafe { w with slab := fs } entry.2) w.slab entries →
      Worker.scanLoop callback entries w.slab batch = some (fs, batch', effects) →
      ∃ c, fs = { w.slab with fileSet := { w.slab.fileSet with pagecache := c } } ∧
        Cached (w.setPagecache c) T
  | [], w, fs, _, _, _, cached, _, _, scanned => by
      simp only [Worker.scanLoop, Option.some.injEq, Prod.mk.injEq] at scanned
      exact ⟨w.pagecache, scanned.1.symm, cached⟩
  | entry :: rest, w, fs, _, _, _, cached, files, along, scanned => by
      unfold Worker.scanLoop at scanned
      split at scanned
      · cases scanned
      · rename_i pair mid read
        have later := along.2 mid pair (by rw [scanReads, read]; rfl)
        obtain ⟨safe, fresh⟩ := along.1
        simp only [FileSlab.readSync, Option.map_eq_some_iff, Prod.mk.injEq] at read scanned
        obtain ⟨⟨bytes, files'⟩, loaded, -, rfl⟩ := read
        obtain ⟨c, rfl, cached', -⟩ := cached.readSync loaded safe fresh
          (files entry (List.mem_cons_self ..)) entry.2.off_lt
        obtain ⟨⟨last, _, _⟩, rest', rfl, -, -⟩ := scanned
        exact Cached.scan (w := w.setPagecache c) cached'
          (fun e member => files e (List.mem_cons_of_mem _ member)) later rest'

/-- **One request keeps the cache coherent.** -/
theorem coherent_processed {w w' : Worker} {id : Nat} {req : Request} {effects : List Effect}
    (geometry : Geometry w) (cached : Cached w (Below w)) (safe : w.CacheSafe req)
    (processed : Processed w id req w' effects) : Geometry w' ∧ Cached w' (Below w') := by
  cases processed with
  | refused reason => exact ⟨geometry, cached⟩
  | get found queued =>
      have regular := geometry.index _ _ found
      obtain ⟨cached', -⟩ := cached.read queued (safe _ found) regular.file (SlabT.off_lt _)
      obtain ⟨-, hit, c, c', -, rfl, ⟨ent, -, -, rfl⟩ | ⟨ent, -, -, rfl⟩⟩ :=
        LocalFileSet.read_eq_some queued
      · exact ⟨geometry.read (Worker.toFake_isRead ..) c',
          cached'.shrink (below_read (Worker.toFake_isRead ..) c')⟩
      · exact ⟨geometry.read (Worker.toLoad_isRead ..) c',
          cached'.shrink (below_read (Worker.toLoad_isRead ..) c')⟩
  | put absent created queued =>
      rename_i key value slab slabs fs fs' a
      obtain ⟨truthful, clean⟩ := safe absent _ created
      obtain ⟨sameDisk, more⟩ := createIn_disk geometry.blank created
      obtain ⟨classes, regular, fits⟩ := createIn_regular geometry.classes created
      have small : slab.size ≤ pageSize := Nat.le_of_dvd (by decide) regular.divides
      have narrow : Narrow key value := by
        simp only [pageSize] at small
        unfold itemSize at fits
        constructor <;> omega
      have within : (itemBytes key value).length ≤ slab.size := by
        rw [length_itemBytes narrow]
        exact fits
      have inPage := SlabT.in_page regular.divides
      have written := queued
      obtain ⟨has, hit, c, -, rfl, rfl⟩ := LocalFileSet.write_eq_some queued
      have narrowFiles := createIn_narrow created geometry.narrow has
      have files := w.pendDisk_queue ⟨{ fs with pagecache := c }, slabs⟩ sameDisk
        (((w.blankAio id).addCallback (.put key slab)).toWrite slab.file (itemBytes key value)
          slab.off hit)
      refine ⟨geometry.write { fs with pagecache := c } sameDisk more narrowFiles classes ?_ has.2 slab.off_lt (by omega), ?_⟩
      · intro other s found
        change (w.pendIndex.insertIfNew key slab)[other]? = some s at found
        rw [getElem?_insertIfNew] at found
        split at found
        · cases found
          exact regular
        · exact geometry.pending other s found
      · exact cached.write slabs (createIn_files created).1 sameDisk
          (by simp [Aio.addCallback, Worker.blankAio, Aio.new]) written truthful regular.file
          slab.off_lt (by omega) (itemBytes_ne_nil key value)
          (below_write (itemBytes_ne_nil key value) clean files)
  | update found queued =>
      rename_i key value slab a fs
      obtain ⟨⟨truthful, clean⟩, inPage⟩ := safe _ found
      have regular := geometry.index _ _ found
      have written := queued
      obtain ⟨has, hit, c, -, rfl, rfl⟩ := LocalFileSet.write_eq_some queued
      have files := w.pendDisk_queue { w.slab with fileSet := { w.slab.fileSet with pagecache := c } }
        rfl ((w.blankAio id).toWrite slab.file (itemBytes key value) slab.off hit)
      refine ⟨geometry.write { w.slab.fileSet with pagecache := c } rfl le_rfl geometry.narrow
        geometry.classes geometry.pending has.2 slab.off_lt (by omega), ?_⟩
      exact cached.write w.slab.slabs rfl rfl (by simp [Worker.blankAio, Aio.new]) written truthful
        regular.file slab.off_lt inPage (itemBytes_ne_nil key value)
        (below_write (itemBytes_ne_nil key value) clean files)
  | delete found freed queued =>
      rename_i key slab slabs a fs
      obtain ⟨truthful, clean⟩ := safe _ found
      have regular := geometry.index _ _ found
      have inPage := SlabT.in_page regular.divides
      have room := regular.room
      have nonempty : storeLE 8 0 ≠ [] := by decide
      have written := queued
      obtain ⟨has, hit, c, -, rfl, rfl⟩ := LocalFileSet.write_eq_some queued
      have files := w.pendDisk_queue ⟨{ w.slab.fileSet with pagecache := c }, slabs⟩ rfl
        (((w.blankAio id).addCallback (.delete key)).toWrite slab.file (storeLE 8 0) slab.off hit)
      refine ⟨geometry.write { w.slab.fileSet with pagecache := c } rfl le_rfl geometry.narrow
        (freeIn_regular geometry.classes regular freed) ?_ has.2 slab.off_lt (by decide), ?_⟩
      · intro other s inPending
        change (w.pendIndex.erase key)[other]? = some s at inPending
        rw [getElem?_erase] at inPending
        split at inPending
        · cases inPending
        · exact geometry.pending other s inPending
      · exact cached.write slabs rfl rfl (by simp [Aio.addCallback, Worker.blankAio, Aio.new]) written
          truthful regular.file slab.off_lt (by rw [length_storeLE]; omega) nonempty
          (below_write nonempty clean files)
  | scan scanned =>
      obtain ⟨c, rfl, cached'⟩ := cached.scan
        (fun entry member => (geometry.index _ _ (mem_scanRange member)).file) safe scanned
      exact ⟨⟨geometry.classes, geometry.index, geometry.pending, geometry.narrow, geometry.blank,
        geometry.blankPending, geometry.bounded⟩, cached'⟩

/-! ## Runs -/

/-- What `Lookup` would return for a page of a file holds the file's bytes. -/
def Worker.CacheCoherent (w : Worker) : Prop :=
  ∀ f p ent, w.slab.fileSet.HasFile f → w.pagecache.find (pageHash f p) = some ent →
    ∀ i < pageSize, pageSize * p + i < (w.disk f).size →
      w.pagecache.data ((w.pagecache.entry ent).page + i) = (w.disk f).byte (pageSize * p + i)

theorem Geometry.settled {w : Worker} (geometry : Geometry w)
    (prepared : ∀ a ∈ w.ioQueue, a.Prepared) : Geometry (w.settle .inOrder).1 := by
  obtain ⟨-, slabs, files, disk, index, -, -, queue, -⟩ := w.settle_spec prepared
  have disk' : (w.settle .inOrder).1.pendDisk = w.pendDisk := by
    rw [Worker.pendDisk, queue, List.foldl_nil, disk]
  have index' : (w.settle .inOrder).1.pendIndex = w.pendIndex := by
    rw [Worker.pendIndex, queue, List.foldl_nil, index]
  have files' : (w.settle .inOrder).1.files = w.files := by rw [Worker.files, files]
  refine ⟨by rw [slabs]; exact geometry.classes, by rw [index]; exact geometry.pending,
    by rw [index']; exact geometry.pending, by rw [files']; exact geometry.narrow, ?_, ?_, ?_⟩
  · rw [files', disk]
    exact geometry.blankPending
  · rw [files', disk']
    exact geometry.blankPending
  · rw [disk']
    exact geometry.bounded

theorem Geometry.new (id : Nat) (workDir : String) (pages : Nat) (junk : Memory) :
    Geometry (Worker.new id workDir pages junk) := by
  refine ⟨?_, ?_, ?_, Nat.two_pow_pos 16, fun _ _ => rfl, fun _ _ => rfl, fun _ => Nat.zero_le _⟩
  · intro c member
    simp only [Worker.new, FileSlab.new, List.map_cons, List.map_nil, List.mem_cons,
      List.not_mem_nil, or_false] at member
    rcases member with rfl | rfl | rfl | rfl | rfl <;>
      exact ⟨by decide, by decide, by simp [SingleFileSlab.new]⟩
  · intro key slab found
    simp [Worker.new] at found
  · intro key slab found
    simp [Worker.pendIndex, Worker.new] at found

theorem cacheCoherent_of_cached {w : Worker} (geometry : Geometry w) (cached : Cached w (Below w))
    (between : w.ioQueue = []) : w.CacheCoherent := by
  have disk : w.pendDisk = w.disk := by rw [Worker.pendDisk, between, List.foldl_nil]
  have data : w.pendData = w.pagecache.data := by
    rw [Worker.pendData, Worker.loadedData, between, List.foldl_nil]
    rfl
  intro f p ent has found i inside below
  have bound := PageCache.find_index cached.wf found
  have allocated := (cached.wf.bound _ _ bound).1
  have number : (pageSize * p + i) / pageSize = p := by
    simp only [pageSize] at *
    omega
  have rest : (pageSize * p + i) % pageSize = i := by
    simp only [pageSize] at *
    omega
  have coherent := cached.coherent f (pageSize * p + i)
    ⟨lt_of_le_of_lt has.2 geometry.narrow, disk ▸ below⟩ ent (by rw [number]; exact bound)
  rw [disk, data, rest] at coherent
  rw [cached.wf.page ent allocated]
  exact coherent

theorem coherent_serve {w w' : Worker} {reqs : List Request} {effects : List Effect}
    (geometry : Geometry w) (cached : Cached w (Below w)) (ok : RoundOk Worker.CacheSafe w reqs)
    (served : w.serve reqs = some (w', effects)) :
    Geometry w' ∧ Cached w' (Below w') ∧ w'.ioQueue = [] := by
  have step : ∀ {t t' : Taking} {req : Request} {new : List Effect},
      (Geometry t.worker ∧ Cached t.worker (Below t.worker)) → t.worker.CacheSafe req →
      Processed t.worker t.seen.length req t'.worker new → t'.seen = t.seen ++ [req] →
      t'.effects = t.effects ++ new → Geometry t'.worker ∧ Cached t'.worker (Below t'.worker) := by
    rintro t t' req new ⟨geometry, cached⟩ safe processed - -
    exact coherent_processed geometry cached safe processed
  obtain ⟨t, ⟨geometry', cached'⟩, -, rfl, -⟩ := serve_induction step ⟨geometry, cached⟩ ok served
  obtain ⟨-, -, -, disk, -, -, -, queue, -⟩ := t.worker.settle_spec cached'.prepared
  refine ⟨geometry'.settled cached'.prepared, cached'.settled.shrink ?_, queue⟩
  rintro f o ⟨file, below⟩
  rw [Worker.pendDisk, queue, List.foldl_nil, disk] at below
  exact ⟨file, below⟩

/-- **Page-cache coherence**, between the rounds of every run whose requests are
`CacheSafe` when they are processed. -/
theorem cache_coherent_of_run (id : Nat) (workDir : String) (pages : Nat) (junk : Memory)
    {rounds : List (List Request)} {w : Worker} {outs : List (List Effect)}
    (ok : Run.Along Worker.serve (RoundOk Worker.CacheSafe) (Worker.new id workDir pages junk) rounds)
    (ran : Run.run Worker.serve (Worker.new id workDir pages junk) rounds = some (w, outs)) :
    w.CacheCoherent := by
  have preserved : ∀ (w : Worker) (reqs : List Request) (w' : Worker) (effects : List Effect),
      (Geometry w ∧ Cached w (Below w) ∧ w.ioQueue = []) → RoundOk Worker.CacheSafe w reqs →
      w.serve reqs = some (w', effects) → Geometry w' ∧ Cached w' (Below w') ∧ w'.ioQueue = [] := by
    rintro w reqs w' effects ⟨geometry, cached, -⟩ ok served
    exact coherent_serve geometry cached ok served
  have start : Cached (Worker.new id workDir pages junk) (Below (Worker.new id workDir pages junk)) :=
    (Cached.new id workDir pages junk).shrink fun f o below => absurd below.2 (Nat.not_lt_zero o)
  obtain ⟨geometry, cached, between⟩ :=
    Run.invariant preserved ⟨.new id workDir pages junk, start, rfl⟩ ok ran
  exact cacheCoherent_of_cached geometry cached between

theorem cache_coherent_of_run_example :
    ∃ w outs, Run.run Worker.serve (Worker.new 0 "db" 2 fun _ => 0)
      [[.put [1] [2], .get [1]], [.get [1], .update [1] [3]],
        [.put [4] [5], .scan [] [9] (fun _ => true) 0], [.delete [1]]] = some (w, outs) ∧
      w.pagecache.find (pageHash 1 0) = some 0 ∧ w.CacheCoherent := by
  have ok : Run.Along Worker.serve (RoundOk Worker.CacheSafe) (Worker.new 0 "db" 2 fun _ => 0)
      [[.put [1] [2], .get [1]], [.get [1], .update [1] [3]],
        [.put [4] [5], .scan [] [9] (fun _ => true) 0], [.delete [1]]] := by
    decide +kernel
  have ends : (Run.run Worker.serve (Worker.new 0 "db" 2 fun _ => 0)
      [[.put [1] [2], .get [1]], [.get [1], .update [1] [3]],
        [.put [4] [5], .scan [] [9] (fun _ => true) 0], [.delete [1]]]).map
        (fun out => out.1.pagecache.find (pageHash 1 0)) = some (some 0) := by
    decide +kernel
  obtain ⟨⟨w, outs⟩, ran, found⟩ := Option.map_eq_some_iff.mp ends
  exact ⟨w, outs, ran, found, cache_coherent_of_run 0 "db" 2 (fun _ => 0) ok ran⟩

/-- A SCAN after an UPDATE in one round caches the page without the update. -/
theorem cache_coherent_fails_on_scan :
    ¬ ∀ (rounds : List (List Request)) (w : Worker) (outs : List (List Effect)),
      Run.run Worker.serve (Worker.new 0 "db" 2 fun _ => 0) rounds = some (w, outs) →
        w.CacheCoherent := by
  intro claim
  let rounds : List (List Request) :=
    [[.put [1] [2]], [.update [1] [3], .scan [] [9] (fun _ => true) 0]]
  have ends : (Run.run Worker.serve (Worker.new 0 "db" 2 fun _ => 0) rounds).map
      (fun out => (out.1.pagecache.find (pageHash 1 0), (out.1.pagecache.entry 0).page,
        out.1.files, (out.1.disk 1).size, out.1.pagecache.data 7, (out.1.disk 1).byte 7)) =
        some (some 0, 0, 1, 8, 2, 3) := by
    decide +kernel
  obtain ⟨⟨w, outs⟩, ran, facts⟩ := Option.map_eq_some_iff.mp ends
  simp only [Prod.mk.injEq] at facts
  obtain ⟨found, page, files, size, cached, stored⟩ := facts
  have same := claim rounds w outs ran 1 0 0 ⟨le_rfl, files.ge⟩ found 7 (by decide)
    (by rw [size]; decide)
  rw [page, show 0 + 7 = 7 from rfl, show pageSize * 0 + 7 = 7 from rfl, cached, stored] at same
  exact absurd same (by decide)

end KTableFS.Kvengine
