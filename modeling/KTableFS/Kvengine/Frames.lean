/-
# Kvengine.Frames -- cached frames against the files, in the middle of a round

`CoherentAt w f o`: if the page of offset `o` of file `f` is cached, its frame will
hold the byte the file will hold there, once the round has settled.  `Cached w T`
is the invariant: the cache is a map (`PageCache.Wf`), the queued I/O refers to
allocated frames, and every offset in the region `T` is coherent.

The region is a parameter.  Coherence of the cache as such is the region below
each file's end; what a client of the engine relies on is the smaller region of the
items that keys own.  The step lemmas are stated once, for any region:

* `Cached.write` -- a write brings its own bytes into the region;
* `Cached.read`, `Cached.readSync` -- a page load keeps a region that lies below
  the ends of the files.

Each asks that the lookup is truthful, and a load that no queued callback writes
to the frame it takes (`EvictSafe`): the load is performed before the callback, so
the callback would write into the new page.
-/
import KTableFS.Kvengine.Process
import Mathlib.Tactic.Ring

namespace KTableFS.Kvengine

open KTableFS.Theory

set_option autoImplicit false

/-! ## Page hashes -/

theorem pageHash_of_lt {f p : Nat} (file : f < 2 ^ 16) (page : p < 2 ^ 40) :
    pageHash f p = f * 2 ^ 40 + p := by
  unfold pageHash
  exact Nat.mod_eq_of_lt (by omega)

theorem pageHash_inj {f p f' p' : Nat} (file : f < 2 ^ 16) (page : p < 2 ^ 40)
    (file' : f' < 2 ^ 16) (page' : p' < 2 ^ 40) (same : pageHash f p = pageHash f' p') :
    f = f' ∧ p = p' := by
  rw [pageHash_of_lt file page, pageHash_of_lt file' page'] at same
  omega

/-! ## The frames after one more request -/

/-- A queued callback writes to the frame of `ent`. -/
def Aio.targets (a : Aio) (ent : Nat) : Bool :=
  a.callbacks.any fun
    | .cacheWrite e _ _ => e == ent
    | _ => false

def Worker.targets (w : Worker) (ent : Nat) : Bool := w.ioQueue.any (·.targets ent)

theorem foldl_onData_congr {page page' : Nat → Nat} : ∀ (queue : List Aio) (memory : Memory),
    (∀ a ∈ queue, ∀ ent data off, .cacheWrite ent data off ∈ a.callbacks → page ent = page' ent) →
      queue.foldl (Aio.onData page) memory = queue.foldl (Aio.onData page') memory := by
  have callback : ∀ (callbacks : List Callback) (memory : Memory),
      (∀ ent data off, .cacheWrite ent data off ∈ callbacks → page ent = page' ent) →
      callbacks.foldl (Callback.onData page) memory = callbacks.foldl (Callback.onData page') memory := by
    intro callbacks
    induction callbacks with
    | nil => exact fun _ _ => rfl
    | cons c rest ih =>
        intro memory same
        have head : c.onData page memory = c.onData page' memory := by
          cases c with
          | cacheWrite ent data off =>
              simp only [Callback.onData, same ent data off (List.mem_cons_self ..)]
          | _ => rfl
        simp only [List.foldl_cons, head]
        exact ih _ fun ent data off member => same ent data off (List.mem_cons_of_mem _ member)
  intro queue
  induction queue with
  | nil => exact fun _ _ => rfl
  | cons a rest ih =>
      intro memory same
      simp only [List.foldl_cons]
      rw [show a.onData page memory = a.onData page' memory from
        callback a.callbacks memory (same a (List.mem_cons_self ..))]
      exact ih _ fun b member => same b (List.mem_cons_of_mem _ member)

/-- A synchronous load commutes with queued loads of other frames. -/
theorem loads_blit {frame : Nat} {bytes : Slice} : ∀ (queue : List Aio) (disk : Disk)
    (memory : Memory),
    (∀ a ∈ queue, a.opcode = .pread → a.submit = true →
      a.frame + a.nbytes ≤ frame ∨ frame + bytes.length ≤ a.frame) →
      loads queue disk (blit memory frame bytes) = blit (loads queue disk memory) frame bytes
  | [], _, _, _ => rfl
  | a :: rest, disk, memory, apart => by
      have swapped : a.load disk (blit memory frame bytes) = blit (a.load disk memory) frame bytes := by
        unfold Aio.load Aio.performMemory
        split
        · split
          · rename_i submitted _ isRead
            apply blit_comm
            have here := apart a (List.mem_cons_self ..) isRead submitted
            have short : (disk a.fildes).preadCount a.nbytes a.offset ≤ a.nbytes := Nat.min_le_left ..
            rw [ByteFile.length_pread]
            omega
          · rfl
        · rfl
      rw [loads, loads, swapped]
      exact loads_blit rest _ _ fun b member => apart b (List.mem_cons_of_mem _ member)

/-! ## The invariant -/

/-- If the page of offset `o` is cached, its frame will hold the file's byte. -/
def CoherentAt (w : Worker) (f o : Nat) : Prop :=
  ∀ ent ∈ w.pagecache.index (pageHash f (o / pageSize)),
    w.pendData (ent * pageSize + o % pageSize) = (w.pendDisk f).byte o

instance (w : Worker) (f o : Nat) : Decidable (CoherentAt w f o) :=
  inferInstanceAs (Decidable (∀ ent ∈ w.pagecache.index (pageHash f (o / pageSize)), _))

structure Cached (w : Worker) (T : Nat → Nat → Prop) : Prop where
  wf : w.pagecache.Wf
  prepared : ∀ a ∈ w.ioQueue, a.Prepared
  /-- Callbacks write inside allocated frames. -/
  targets : ∀ a ∈ w.ioQueue, ∀ ent data off, .cacheWrite ent data off ∈ a.callbacks →
    ent < w.pagecache.usedPage ∧ off + data.length ≤ pageSize
  /-- Loads fill allocated frames, which wait for them. -/
  loads : ∀ a ∈ w.ioQueue, a.opcode = .pread → a.submit = true → ∃ ent < w.pagecache.usedPage,
    a.frame = ent * pageSize ∧ a.nbytes = pageSize ∧ (w.pagecache.entry ent).wait = true
  region : ∀ f o, T f o → f < 2 ^ 16 ∧ o < 2 ^ 52 ∧ o < (w.pendDisk f).size
  coherent : ∀ f o, T f o → CoherentAt w f o

theorem page_of_offset {o : Nat} (bound : o < 2 ^ 52) : o / pageSize < 2 ^ 40 := by
  simp only [pageSize]
  omega

/-- Distinct frames do not overlap. -/
theorem frame_apart {ent ent' i j len : Nat} (differ : ent ≠ ent') (inside : i < pageSize)
    (within : j + len ≤ pageSize) :
    ent * pageSize + i < ent' * pageSize + j ∨ ent' * pageSize + j + len ≤ ent * pageSize + i := by
  simp only [pageSize] at *
  rcases Nat.lt_or_gt_of_ne differ with lt | gt
  · left
    omega
  · right
    omega

theorem Cached.pages {w : Worker} {T : Nat → Nat → Prop} (cached : Cached w T) {c : PageCache}
    (same : ∀ e < w.pagecache.usedPage, (c.entry e).page = e * pageSize) :
    ∀ a ∈ w.ioQueue, ∀ ent data off, .cacheWrite ent data off ∈ a.callbacks →
      (c.entry ent).page = w.page ent := by
  intro a inQueue ent data off member
  have allocated := (cached.targets a inQueue ent data off member).1
  rw [same ent allocated, Worker.page, cached.wf.page ent allocated]

theorem Worker.loadedData_queue {w : Worker} (fs : FileSlab) (a : Aio)
    (disk : fs.fileSet.disk = w.disk) (data : fs.fileSet.pagecache.data = w.pagecache.data) :
    (w.queue fs a).loadedData = a.load w.pendDisk w.loadedData := by
  simp only [Worker.loadedData, Worker.queue_ioQueue, Worker.disk, Worker.pagecache,
    Worker.queue_slab, loads_append, disk, data]
  rfl

theorem Worker.pendData_queue {w : Worker} (fs : FileSlab) (a : Aio)
    (disk : fs.fileSet.disk = w.disk) (data : fs.fileSet.pagecache.data = w.pagecache.data)
    (pages : ∀ b ∈ w.ioQueue, ∀ ent data off, .cacheWrite ent data off ∈ b.callbacks →
      (fs.fileSet.pagecache.entry ent).page = w.page ent) :
    (w.queue fs a).pendData = a.onData (fun ent => (fs.fileSet.pagecache.entry ent).page)
      (w.ioQueue.foldl (Aio.onData w.page) (a.load w.pendDisk w.loadedData)) := by
  rw [Worker.pendData, Worker.loadedData_queue fs a disk data, Worker.queue_ioQueue, List.foldl_append, List.foldl_cons, List.foldl_nil,
    ← foldl_onData_congr w.ioQueue _ pages]
  rfl

/-! ## Writes -/

theorem onData_plain {page : Nat → Nat} : ∀ (callbacks : List Callback) (memory : Memory),
    (∀ ent data off, .cacheWrite ent data off ∉ callbacks) →
      callbacks.foldl (Callback.onData page) memory = memory
  | [], _, _ => rfl
  | c :: rest, memory, plain => by
      have head : c.onData page memory = memory := by
        cases c with
        | cacheWrite ent data off => exact absurd (List.mem_cons_self ..) (plain ent data off)
        | _ => rfl
      rw [List.foldl_cons, head]
      exact onData_plain rest memory fun ent data off member =>
        plain ent data off (List.mem_cons_of_mem _ member)

theorem onData_toWrite {aio : Aio} (plain : ∀ ent data off, .cacheWrite ent data off ∉ aio.callbacks)
    (file : Nat) (data : Slice) (off : Nat) (hit : Option Nat) (page : Nat → Nat) (memory : Memory) :
    (aio.toWrite file data off hit).onData page memory =
      match hit with
      | none => memory
      | some ent => blit memory (page ent + off % pageSize) data := by
  simp only [Aio.onData, Aio.toWrite, List.foldl_append, onData_plain aio.callbacks memory plain]
  cases hit <;> rfl

theorem mem_toWrite_callbacks {aio : Aio}
    (plain : ∀ ent data off, .cacheWrite ent data off ∉ aio.callbacks) {file : Nat} {data : Slice}
    {off : Nat} {hit : Option Nat} {ent : Nat} {data' : Slice} {off' : Nat}
    (member : .cacheWrite ent data' off' ∈ (aio.toWrite file data off hit).callbacks) :
    hit = some ent ∧ data' = data ∧ off' = off % pageSize := by
  simp only [Aio.toWrite, List.mem_append] at member
  rcases member with base | own
  · exact absurd base (plain ent data' off')
  · cases hit with
    | none => simp at own
    | some e => simpa [eq_comm] using own

/-- A write and the callback that repeats it on the frame keep a byte coherent, or
make it so. -/
theorem CoherentAt.write {w w' : Worker} {f off : Nat} {data : Slice} (wf : w.pagecache.Wf)
    (index : w'.pagecache.index = w.pagecache.index)
    (frames : w'.pendData = match w.pagecache.index (pageHash f (off / pageSize)) with
      | none => w.pendData
      | some ent => blit w.pendData (ent * pageSize + off % pageSize) data)
    (files : w'.pendDisk = Function.update w.pendDisk f ((w.pendDisk f).pwrite data off))
    (file : f < 2 ^ 16) (offset : off < 2 ^ 52) (inPage : off % pageSize + data.length ≤ pageSize)
    {f' o : Nat} (file' : f' < 2 ^ 16) (offset' : o < 2 ^ 52)
    (before : CoherentAt w f' o ∨ f' = f ∧ off ≤ o ∧ o < off + data.length) :
    CoherentAt w' f' o := by
  intro ent found
  rw [Option.mem_def, index] at found
  by_cases samePage : f' = f ∧ o / pageSize = off / pageSize
  · obtain ⟨rfl, page⟩ := samePage
    rw [page] at found
    rw [frames, files, found, Function.update_self, ByteFile.pwrite_byte]
    simp only
    by_cases written : off ≤ o ∧ o < off + data.length
    · rw [blit_inside _ written.1 written.2, blit_inside _ (by simp only [pageSize] at *; omega)
        (by simp only [pageSize] at *; omega)]
      congr 1
      simp only [pageSize] at *
      omega
    · have old : CoherentAt w f' o := before.resolve_right fun inside => written inside.2
      have outside : o < off ∨ off + data.length ≤ o := by omega
      rw [blit_outside _ outside, blit_outside _ (by simp only [pageSize] at *; omega)]
      exact old ent (by rw [Option.mem_def, page]; exact found)
  · have old : CoherentAt w f' o := by
      refine before.resolve_right ?_
      rintro ⟨rfl, low, high⟩
      exact samePage ⟨rfl, by simp only [pageSize] at *; omega⟩
    have fileByte : (w'.pendDisk f').byte o = (w.pendDisk f').byte o := by
      rw [files, Function.update_apply]
      split
      · rename_i same
        subst same
        rw [ByteFile.pwrite_byte, blit_outside]
        have otherPage : o / pageSize ≠ off / pageSize := fun page => samePage ⟨rfl, page⟩
        simp only [pageSize] at *
        omega
      · rfl
    have frameByte : w'.pendData (ent * pageSize + o % pageSize) =
        w.pendData (ent * pageSize + o % pageSize) := by
      rw [frames]
      split
      · rfl
      · rename_i target hit
        have differ : ent ≠ target := by
          rintro rfl
          have hash := (wf.bound _ _ found).2
          rw [(wf.bound _ _ hit).2] at hash
          obtain ⟨sameFile, sameNumber⟩ := pageHash_inj file (page_of_offset offset) file'
            (page_of_offset offset') hash
          exact samePage ⟨sameFile.symm, sameNumber.symm⟩
        exact blit_outside _ (frame_apart differ (Nat.mod_lt _ (by decide)) inPage)
    rw [fileByte, frameByte]
    exact old ent found

/-- **A queued write keeps the invariant** and brings its own bytes into the region. -/
theorem Cached.write {w : Worker} {T T' : Nat → Nat → Prop} (cached : Cached w T)
    {fs fs' : LocalFileSet} (slabs : List SingleFileSlab) {aio a : Aio} {f off : Nat} {data : Slice}
    (cache : fs.pagecache = w.pagecache) (disk : fs.disk = w.disk)
    (plain : ∀ ent data off, .cacheWrite ent data off ∉ aio.callbacks)
    (wrote : fs.write f data off aio = some (a, fs'))
    (truthful : w.pagecache.Truthful (pageHash f (off / pageSize)))
    (file : f < 2 ^ 16) (offset : off < 2 ^ 32) (inPage : off % pageSize + data.length ≤ pageSize)
    (nonempty : data ≠ [])
    (region : ∀ f' o, T' f' o → T f' o ∨ f' = f ∧ o < off + data.length ∧ (off ≤ o ∨ CoherentAt w f' o)) :
    Cached (w.queue ⟨fs', slabs⟩ a) T' := by
  obtain ⟨-, hit, c, looked, rfl, rfl⟩ := LocalFileSet.write_eq_some wrote
  rw [cache] at looked
  obtain ⟨isHit, relinked, wf'⟩ := PageCache.lookup_spec cached.wf truthful looked
  have pages := cached.pages (c := c) fun e allocated => by
    rw [relinked.page, cached.wf.page e allocated]
  have frames := Worker.pendData_queue ⟨{ fs with pagecache := c }, slabs⟩
    (aio.toWrite f data off hit) disk relinked.data pages
  have files := w.pendDisk_queue ⟨{ fs with pagecache := c }, slabs⟩ disk (aio.toWrite f data off hit)
  rw [Worker.performDisk_toWrite] at files
  rw [onData_toWrite plain] at frames
  have frames' : (w.queue ⟨{ fs with pagecache := c }, slabs⟩ (aio.toWrite f data off hit)).pendData =
      match w.pagecache.index (pageHash f (off / pageSize)) with
      | none => w.pendData
      | some ent => blit w.pendData (ent * pageSize + off % pageSize) data := by
    rw [frames, isHit]
    cases found : w.pagecache.index (pageHash f (off / pageSize)) with
    | none => rfl
    | some ent =>
        simp only
        rw [relinked.page, cached.wf.page ent (cached.wf.bound _ _ found).1]
        rfl
  have grown : ∀ f', (w.pendDisk f').size ≤
      ((w.queue ⟨{ fs with pagecache := c }, slabs⟩ (aio.toWrite f data off hit)).pendDisk f').size := by
    intro f'
    rw [files, Function.update_apply]
    split
    · rename_i same
      rw [same]
      exact ByteFile.size_le_pwrite ..
    · exact le_rfl
  have inRegion : ∀ f' o, T' f' o → f' < 2 ^ 16 ∧ o < 2 ^ 52 := by
    intro f' o inT
    rcases region f' o inT with old | ⟨rfl, high, -⟩
    · exact ⟨(cached.region f' o old).1, (cached.region f' o old).2.1⟩
    · refine ⟨file, ?_⟩
      simp only [pageSize] at inPage
      omega
  refine { wf := wf', prepared := ?_, targets := ?_, loads := ?_, region := ?_, coherent := ?_ }
  · intro b member
    rcases List.mem_append.mp member with old | new
    · exact cached.prepared b old
    · exact List.mem_singleton.mp new ▸ Or.inr (Worker.toWrite_isWrite ..)
  · intro b member ent data' off' callback
    rw [show (w.queue ⟨{ fs with pagecache := c }, slabs⟩ (aio.toWrite f data off hit)).pagecache = c
      from rfl, relinked.usedPage]
    rcases List.mem_append.mp member with old | new
    · exact cached.targets b old ent data' off' callback
    · rw [List.mem_singleton.mp new] at callback
      obtain ⟨target, rfl, rfl⟩ := mem_toWrite_callbacks plain callback
      rw [isHit] at target
      exact ⟨(cached.wf.bound _ _ target).1, inPage⟩
  · intro b member isRead submitted
    rcases List.mem_append.mp member with old | new
    · obtain ⟨ent, allocated, frame, nbytes, waits⟩ := cached.loads b old isRead submitted
      exact ⟨ent, relinked.usedPage ▸ allocated, frame, nbytes, (relinked.wait ent).trans waits⟩
    · rw [List.mem_singleton.mp new] at isRead
      cases isRead
  · intro f' o inT
    refine ⟨(inRegion f' o inT).1, (inRegion f' o inT).2, ?_⟩
    rcases region f' o inT with old | ⟨rfl, high, -⟩
    · exact lt_of_lt_of_le (cached.region f' o old).2.2 (grown f')
    · rw [files, Function.update_self, ByteFile.pwrite_size _ nonempty]
      exact lt_of_lt_of_le high (le_max_right ..)
  · intro f' o inT
    refine CoherentAt.write cached.wf relinked.index frames' files file (by omega) inPage
      (inRegion f' o inT).1 (inRegion f' o inT).2 ?_
    rcases region f' o inT with old | ⟨rfl, high, low | gap⟩
    · exact Or.inl (cached.coherent f' o old)
    · exact Or.inr ⟨rfl, low, high⟩
    · exact Or.inl gap

/-! ## Page loads -/

/-- Loading a page into an entry that is free of queued work keeps every byte below
the file's end coherent. -/
theorem CoherentAt.load {w w' : Worker} {f p ent : Nat}
    (index : ∀ h e, w'.pagecache.index h = some e ↔
      h = pageHash f p ∧ e = ent ∨ e ≠ ent ∧ w.pagecache.index h = some e)
    (frames : w'.pendData =
      blit w.pendData (ent * pageSize) ((w.pendDisk f).pread pageSize (pageSize * p)))
    (files : w'.pendDisk = w.pendDisk) (file : f < 2 ^ 16) (page : p < 2 ^ 40) {f' o : Nat}
    (file' : f' < 2 ^ 16) (offset' : o < 2 ^ 52) (below : o < (w.pendDisk f').size)
    (old : CoherentAt w f' o) : CoherentAt w' f' o := by
  intro e found
  have inside : o % pageSize < pageSize := Nat.mod_lt _ (by decide)
  rw [files, frames]
  rcases (index _ e).mp found with ⟨sameHash, rfl⟩ | ⟨differ, bound⟩
  · obtain ⟨rfl, rfl⟩ := pageHash_inj file' (page_of_offset offset') file page sameHash
    have split : pageSize * (o / pageSize) + o % pageSize = o := Nat.div_add_mod ..
    rw [ByteFile.blit_pread _ _ inside (by rw [split]; exact below), split]
  · rw [blit_outside]
    · exact old e bound
    · have short : ((w.pendDisk f).pread pageSize (pageSize * p)).length ≤ pageSize := by
        rw [ByteFile.length_pread]
        exact Nat.min_le_left ..
      have apart : e * pageSize + o % pageSize < ent * pageSize + 0 ∨
          ent * pageSize + 0 + ((w.pendDisk f).pread pageSize (pageSize * p)).length ≤
            e * pageSize + o % pageSize :=
        frame_apart differ inside (by rw [Nat.zero_add]; exact short)
      rw [Nat.add_zero] at apart
      exact apart

/-- `NewEntry` can take an entry that no queued callback writes to. -/
def Worker.EvictSafe (w : Worker) : Prop :=
  w.pagecache.usedPage < w.pagecache.maxPage ∨ ∀ ent ∈ w.pagecache.victim, w.targets ent = false

/-- The lookup of a page is truthful, and if it misses, an entry can be taken. -/
def Worker.PageSafe (w : Worker) (f p : Nat) : Prop :=
  w.pagecache.Truthful (pageHash f p) ∧ (w.pagecache.find (pageHash f p) = none → w.EvictSafe)

instance (w : Worker) : Decidable w.EvictSafe := inferInstanceAs (Decidable (_ ∨ _))

instance (w : Worker) (f p : Nat) : Decidable (w.PageSafe f p) := inferInstanceAs (Decidable (_ ∧ _))

theorem Cached.claimed_idle {w : Worker} {T : Nat → Nat → Prop} (cached : Cached w T)
    (safe : w.EvictSafe) {hash ent : Nat} {c : PageCache}
    (claimed : PageCache.Claimed w.pagecache hash ent c) :
    FrameIdle w.page w.ioQueue (ent * pageSize) := by
  intro a inQueue e data off member
  obtain ⟨allocated, within⟩ := cached.targets a inQueue e data off member
  have differ : e ≠ ent := by
    rintro rfl
    rcases claimed.origin with ⟨rfl, -⟩ | ⟨full, victim, -⟩
    · exact Nat.lt_irrefl _ allocated
    · rcases safe with room | idle
      · omega
      · have quiet := List.any_eq_false.mp (idle e victim) a inQueue
        apply quiet
        exact List.any_eq_true.mpr ⟨_, member, by simp⟩
  rw [Worker.page, cached.wf.page e allocated]
  simp only [pageSize] at *
  omega

/-- The frames of queued loads are not taken: they wait. -/
theorem Cached.claimed_waits {w : Worker} {T : Nat → Nat → Prop} (cached : Cached w T)
    {hash ent : Nat} {c : PageCache} (claimed : PageCache.Claimed w.pagecache hash ent c) {e : Nat}
    (allocated : e < w.pagecache.usedPage) (waits : (w.pagecache.entry e).wait = true) : e ≠ ent := by
  rintro rfl
  rcases claimed.origin with ⟨rfl, -⟩ | ⟨-, victim, -⟩
  · exact Nat.lt_irrefl _ allocated
  · rw [(PageCache.victim_allocated cached.wf.toLinked victim).2] at waits
    cases waits

theorem claimed_allocated {c c' : PageCache} (wf : c.Wf) {hash ent : Nat}
    (claimed : PageCache.Claimed c hash ent c') :
    c.usedPage ≤ c'.usedPage ∧ ent < c'.usedPage := by
  rcases claimed.origin with ⟨rfl, used⟩ | ⟨-, victim, used⟩
  · omega
  · rw [used]
    exact ⟨le_rfl, (PageCache.victim_allocated wf.toLinked victim).1⟩

/-- **A queued read keeps the invariant**, and reads the frame its page is bound to. -/
theorem Cached.read {w : Worker} {T : Nat → Nat → Prop} (cached : Cached w T) {fs : LocalFileSet}
    {id f size off : Nat} {a : Aio}
    (queued : w.slab.fileSet.read f size off ((w.blankAio id).addCallback .fileSlabRead) = some (a, fs))
    (safe : w.PageSafe f (off / pageSize)) (file : f < 2 ^ 16) (offset : off < 2 ^ 32) :
    Cached (w.queue { w.slab with fileSet := fs } a) T ∧
      ∃ ent, fs.pagecache.index (pageHash f (off / pageSize)) = some ent ∧
        a.frame = ent * pageSize ∧ a.readOff = off % pageSize := by
  obtain ⟨-, hit, c, c', looked, rfl, shape⟩ := LocalFileSet.read_eq_some queued
  have page : off / pageSize < 2 ^ 40 := page_of_offset (by omega)
  rcases shape with ⟨ent, rfl, rfl, rfl⟩ | ⟨ent, rfl, made, rfl⟩
  · obtain ⟨isHit, relinked, wf'⟩ := PageCache.lookup_spec cached.wf safe.1 looked
    have allocated := (cached.wf.bound _ ent isHit.symm).1
    have pages := cached.pages (c := c') fun e allocated => by
      rw [relinked.page, cached.wf.page e allocated]
    let slab' : FileSlab := { w.slab with fileSet := { w.slab.fileSet with pagecache := c' } }
    let a := ((w.blankAio id).addCallback .fileSlabRead).toFake size off (c'.entry ent).page
    have frames : (w.queue slab' a).pendData = w.pendData :=
      Worker.pendData_queue slab' a rfl relinked.data pages
    have files : (w.queue slab' a).pendDisk = w.pendDisk := w.pendDisk_queue slab' rfl a
    refine ⟨{ wf := wf', prepared := ?_, targets := ?_, loads := ?_, region := ?_, coherent := ?_ },
      ent, by rw [relinked.index]; exact isHit.symm, ?_, rfl⟩
    · intro b member
      rcases List.mem_append.mp member with old | new
      · exact cached.prepared b old
      · exact List.mem_singleton.mp new ▸ Or.inl (Worker.toFake_isRead ..)
    · intro b member e data' off' callback
      change e < c'.usedPage ∧ _
      rw [relinked.usedPage]
      rcases List.mem_append.mp member with old | new
      · exact cached.targets b old e data' off' callback
      · rw [List.mem_singleton.mp new] at callback
        simp [Aio.toFake, Aio.addCallback, Worker.blankAio, Aio.new] at callback
    · intro b member isRead submitted
      rcases List.mem_append.mp member with old | new
      · obtain ⟨e, inside, frame, nbytes, waits⟩ := cached.loads b old isRead submitted
        exact ⟨e, relinked.usedPage ▸ inside, frame, nbytes, (relinked.wait e).trans waits⟩
      · rw [List.mem_singleton.mp new] at submitted
        cases submitted
    · intro f' o inT
      rw [show (w.queue _ _).pendDisk = w.pendDisk from files]
      exact cached.region f' o inT
    · intro f' o inT e found
      rw [show (w.queue _ _).pendDisk = w.pendDisk from files,
        show (w.queue _ _).pendData = w.pendData from frames]
      exact cached.coherent f' o inT e (relinked.index ▸ found)
    · rw [Aio.toFake, relinked.page, cached.wf.page ent allocated]
  · obtain ⟨rfl, missed⟩ := PageCache.lookup_miss looked
    obtain ⟨wf', claimed⟩ := PageCache.newEntry_claimed cached.wf (safe.1 missed) made
    obtain ⟨more, allocated⟩ := claimed_allocated cached.wf claimed
    have frame := wf'.page ent allocated
    have pages := cached.pages (c := c') fun e inside => wf'.page e (lt_of_lt_of_le inside more)
    let slab' : FileSlab := { w.slab with fileSet := { w.slab.fileSet with pagecache := c' } }
    let a := ((w.blankAio id).addCallback .fileSlabRead).toLoad f size off ent (c'.entry ent).page
    have frames : (w.queue slab' a).pendData = blit w.pendData (ent * pageSize)
        ((w.pendDisk f).pread pageSize (pageSize * (off / pageSize))) := by
      have loaded := Worker.pendData_queue slab' a rfl claimed.data pages
      rw [show a.load w.pendDisk w.loadedData = blit w.loadedData (ent * pageSize)
          ((w.pendDisk f).pread pageSize (pageSize * (off / pageSize))) by
        simp [a, Aio.load, Aio.toLoad, Aio.performMemory, frame]] at loaded
      rw [foldl_onData_blit (by rw [ByteFile.length_pread]; exact Nat.min_le_left ..) _ _
        (cached.claimed_idle (safe.2 missed) claimed)] at loaded
      exact loaded
    have files : (w.queue slab' a).pendDisk = w.pendDisk := w.pendDisk_queue slab' rfl a
    refine ⟨{ wf := wf', prepared := ?_, targets := ?_, loads := ?_, region := ?_, coherent := ?_ },
      ent, (claimed.index _ _).mpr (Or.inl ⟨rfl, rfl⟩), frame, rfl⟩
    · intro b member
      rcases List.mem_append.mp member with old | new
      · exact cached.prepared b old
      · exact List.mem_singleton.mp new ▸ Or.inl (Worker.toLoad_isRead ..)
    · intro b member e data' off' callback
      rcases List.mem_append.mp member with old | new
      · obtain ⟨inside, within⟩ := cached.targets b old e data' off' callback
        exact ⟨lt_of_lt_of_le inside more, within⟩
      · rw [List.mem_singleton.mp new] at callback
        simp [Aio.toLoad, Aio.addCallback, Worker.blankAio, Aio.new] at callback
    · intro b member isRead submitted
      rcases List.mem_append.mp member with old | new
      · obtain ⟨e, inside, itsFrame, nbytes, waits⟩ := cached.loads b old isRead submitted
        exact ⟨e, lt_of_lt_of_le inside more, itsFrame, nbytes,
          (claimed.others e (cached.claimed_waits claimed inside waits)).trans waits⟩
      · rw [List.mem_singleton.mp new]
        exact ⟨ent, allocated, frame, rfl, claimed.wait⟩
    · intro f' o inT
      rw [show (w.queue _ _).pendDisk = w.pendDisk from files]
      exact cached.region f' o inT
    · intro f' o inT
      obtain ⟨file', offset', below⟩ := cached.region f' o inT
      exact CoherentAt.load claimed.index frames files file page file' offset' below
        (cached.coherent f' o inT)

/-! ## Synchronous reads -/

theorem Worker.pendData_setPagecache {w : Worker} {c : PageCache}
    (pages : ∀ b ∈ w.ioQueue, ∀ ent data off, .cacheWrite ent data off ∈ b.callbacks →
      (c.entry ent).page = w.page ent) :
    (w.setPagecache c).pendData =
      w.ioQueue.foldl (Aio.onData w.page) (KTableFS.Kvengine.loads w.ioQueue w.disk c.data) :=
  foldl_onData_congr w.ioQueue _ pages

/-- **A synchronous read keeps the invariant**, if a page it loads reads the same
after the queued writes, and returns the frame its page is bound to. -/
theorem Cached.readSync {w : Worker} {T : Nat → Nat → Prop} (cached : Cached w T) {fs : LocalFileSet}
    {f size off : Nat} {bytes : Slice} (read : w.slab.fileSet.readSync f size off = some (bytes, fs))
    (safe : w.PageSafe f (off / pageSize))
    (fresh : w.pagecache.find (pageHash f (off / pageSize)) = none →
      (w.disk f).pread pageSize (pageSize * (off / pageSize)) =
        (w.pendDisk f).pread pageSize (pageSize * (off / pageSize)))
    (file : f < 2 ^ 16) (offset : off < 2 ^ 32) :
    ∃ c, fs = { w.slab.fileSet with pagecache := c } ∧ Cached (w.setPagecache c) T ∧
      ∃ ent, c.index (pageHash f (off / pageSize)) = some ent ∧
        bytes = cut c.data (ent * pageSize + off % pageSize) size := by
  obtain ⟨-, hit, c, c', ent, looked, rfl, rfl, shape⟩ := LocalFileSet.readSync_eq_some read
  refine ⟨c', rfl, ?_⟩
  have page : off / pageSize < 2 ^ 40 := page_of_offset (by omega)
  rcases shape with ⟨rfl, rfl⟩ | ⟨mid, rfl, made, rfl⟩
  · obtain ⟨isHit, relinked, wf'⟩ := PageCache.lookup_spec cached.wf safe.1 looked
    have allocated := (cached.wf.bound _ ent isHit.symm).1
    have pages := cached.pages (c := c') fun e allocated => by
      rw [relinked.page, cached.wf.page e allocated]
    have frames : (w.setPagecache c').pendData = w.pendData := by
      rw [Worker.pendData_setPagecache pages, relinked.data]
      rfl
    refine ⟨{ wf := wf', prepared := cached.prepared, targets := ?_, loads := ?_,
              region := cached.region, coherent := ?_ }, ent, ?_, ?_⟩
    · intro b member e data' off' callback
      change e < c'.usedPage ∧ _
      rw [relinked.usedPage]
      exact cached.targets b member e data' off' callback
    · intro b member isRead submitted
      obtain ⟨e, inside, frame, nbytes, waits⟩ := cached.loads b member isRead submitted
      exact ⟨e, relinked.usedPage ▸ inside, frame, nbytes, (relinked.wait e).trans waits⟩
    · intro f' o inT e found
      rw [frames]
      exact cached.coherent f' o inT e (relinked.index ▸ found)
    · rw [relinked.index]
      exact isHit.symm
    · rw [relinked.page, cached.wf.page ent allocated]
  · obtain ⟨rfl, missed⟩ := PageCache.lookup_miss looked
    obtain ⟨wfMid, claimed⟩ := PageCache.newEntry_claimed cached.wf (safe.1 missed) made
    obtain ⟨more, allocated⟩ := claimed_allocated cached.wf claimed
    have done := w.slab.fileSet.loadPage_completed f (off / pageSize) ent mid
    have wf' := wfMid.completed done
    have frame : (mid.entry ent).page = ent * pageSize := wfMid.page ent allocated
    have pages := cached.pages (c := w.slab.fileSet.loadPage f (off / pageSize) ent mid)
      fun e inside => by rw [done.page]; exact wfMid.page e (lt_of_lt_of_le inside more)
    have short : ((w.disk f).pread pageSize (pageSize * (off / pageSize))).length ≤ pageSize := by
      rw [ByteFile.length_pread]
      exact Nat.min_le_left ..
    -- queued loads fill other frames, and no queued callback writes to this one
    have apart : ∀ a ∈ w.ioQueue, a.opcode = .pread → a.submit = true →
        a.frame + a.nbytes ≤ ent * pageSize ∨ ent * pageSize +
          ((w.disk f).pread pageSize (pageSize * (off / pageSize))).length ≤ a.frame := by
      intro a member isRead submitted
      obtain ⟨e, inside, itsFrame, nbytes, waits⟩ := cached.loads a member isRead submitted
      have differ := cached.claimed_waits claimed inside waits
      rw [itsFrame, nbytes]
      simp only [pageSize] at *
      omega
    have frames : (w.setPagecache (w.slab.fileSet.loadPage f (off / pageSize) ent mid)).pendData =
        blit w.pendData (ent * pageSize)
          ((w.pendDisk f).pread pageSize (pageSize * (off / pageSize))) := by
      rw [Worker.pendData_setPagecache pages,
        show (w.slab.fileSet.loadPage f (off / pageSize) ent mid).data =
          blit w.pagecache.data (ent * pageSize)
            ((w.disk f).pread pageSize (pageSize * (off / pageSize))) by
          rw [← frame, ← claimed.data]
          rfl,
        loads_blit _ _ _ apart, foldl_onData_blit short _ _
          (cached.claimed_idle (safe.2 missed) claimed), fresh missed]
      rfl
    have index : ∀ h e, (w.slab.fileSet.loadPage f (off / pageSize) ent mid).index h = some e ↔
        h = pageHash f (off / pageSize) ∧ e = ent ∨ e ≠ ent ∧ w.pagecache.index h = some e := by
      rw [done.index]
      exact claimed.index
    refine ⟨{ wf := wf', prepared := cached.prepared, targets := ?_, loads := ?_,
              region := cached.region, coherent := ?_ }, ent, (index _ _).mpr (Or.inl ⟨rfl, rfl⟩), ?_⟩
    · intro b member e data' off' callback
      obtain ⟨inside, within⟩ := cached.targets b member e data' off' callback
      exact ⟨lt_of_lt_of_le inside more, within⟩
    · intro b member isRead submitted
      obtain ⟨e, inside, itsFrame, nbytes, waits⟩ := cached.loads b member isRead submitted
      have differ := cached.claimed_waits claimed inside waits
      refine ⟨e, lt_of_lt_of_le inside more, itsFrame, nbytes, ?_⟩
      change ((w.slab.fileSet.loadPage f (off / pageSize) ent mid).entry e).wait = true
      rw [LocalFileSet.loadPage, PageCache.modify_entry, if_neg differ]
      exact (claimed.others e differ).trans waits
    · intro f' o inT
      obtain ⟨file', offset', below⟩ := cached.region f' o inT
      exact CoherentAt.load index frames rfl file page file' offset' below
        (cached.coherent f' o inT)
    · rw [done.page, frame]

/-! ## The end of the round -/

theorem Cached.settled {w : Worker} {T : Nat → Nat → Prop} (cached : Cached w T) :
    Cached (w.settle .inOrder).1 T := by
  obtain ⟨-, -, -, disk, -, data, done, queue, -⟩ := w.settle_spec cached.prepared
  have files : (w.settle .inOrder).1.pendDisk = w.pendDisk := by
    rw [Worker.pendDisk, queue, List.foldl_nil, disk]
  have frames : (w.settle .inOrder).1.pendData = w.pendData := by
    rw [Worker.pendData, Worker.loadedData, queue, List.foldl_nil]
    exact data
  refine { wf := cached.wf.completed done, prepared := by simp [queue], targets := by simp [queue],
           loads := by simp [queue], region := ?_, coherent := ?_ }
  · rw [files]
    exact cached.region
  · intro f o inT ent found
    rw [files, frames]
    exact cached.coherent f o inT ent (done.index ▸ found)

theorem Cached.new (id : Nat) (workDir : String) (pages : Nat) (junk : Memory) :
    Cached (Worker.new id workDir pages junk) fun _ _ => False where
  wf := PageCache.new_wf pages junk
  prepared := by simp [Worker.new]
  targets := by simp [Worker.new]
  loads := by simp [Worker.new]
  region _ _ := False.elim
  coherent _ _ := False.elim

/-- A smaller region is covered too. -/
theorem Cached.shrink {w : Worker} {T T' : Nat → Nat → Prop} (cached : Cached w T)
    (smaller : ∀ f o, T' f o → T f o) : Cached w T' where
  wf := cached.wf
  prepared := cached.prepared
  targets := cached.targets
  loads := cached.loads
  region f o inT := cached.region f o (smaller f o inT)
  coherent f o inT := cached.coherent f o (smaller f o inT)

end KTableFS.Kvengine
