/-
# Kvengine.Roundtrip -- a slab gives back the item that was written to it

An item is encoded once (`FileSlab::Write`) and decoded twice: by `FileSlab::ReadSync` from
a copy of the slab, and by `FileSlabReadCallback` with `AIO::Finish` from the page's frame.
Both ways back start from one description of what a write leaves behind, `Worker.Shows`:

* the page is cached, and the frame `Lookup` will find again holds the bytes; or
* the page is not cached, and the file holds them.

`AtRest.write` is the way there, `Shows.sync` and `Shows.async` are the two ways back, and
`slab_roundtrip` joins them for an item and for the zero word of `FileSlab::Delete`.  What the
slab, its page and the frames held before does not matter anywhere.
-/
import KTableFS.Kvengine.Partition
import KTableFS.Kvengine.Arrival
import KTableFS.Kvengine.Finishing

namespace KTableFS.Kvengine

open KTableFS.Theory

set_option autoImplicit false

/-! ## The entry a lookup leaves behind -/

namespace PageCache

variable {c c' : PageCache}

/-- `find` reads the list, the index, the hashes and the valid flags. -/
theorem find_data (c : PageCache) (data : Memory) (hash : Nat) :
    PageCache.find { c with data := data } hash = c.find hash := by
  have walks : ∀ (fuel : Nat) (start : Option Nat),
      PageCache.walk { c with data := data } hash fuel start = c.walk hash fuel start := by
    intro fuel
    induction fuel with
    | zero => exact fun _ => rfl
    | succ fuel ih =>
        intro start
        cases start with
        | none => rfl
        | some p => simp only [PageCache.walk, ih]
  unfold PageCache.find
  rw [walks]

theorem walk_valid {hash ent : Nat} : ∀ (fuel : Nat) {start : Option Nat},
    c.walk hash fuel start = .hit ent → (c.entry ent).valid = true
  | 0, _, hit => by simp [PageCache.walk] at hit
  | _ + 1, none, hit => by simp [PageCache.walk] at hit
  | fuel + 1, some p, hit => by
      simp only [PageCache.walk] at hit
      split at hit
      · next here =>
          cases hit
          exact here.1
      · exact walk_valid fuel hit

theorem find_valid {hash ent : Nat} (found : c.find hash = some ent) : (c.entry ent).valid = true := by
  unfold PageCache.find at found
  split at found
  · next p hit =>
      cases found
      exact walk_valid 20 hit
  · cases found
  · split at found
    · cases found
    · split at found
      · next e _ valid =>
          cases found
          exact valid
      · cases found

/-- `Lookup` returns what the search finds; a miss changes nothing. -/
theorem lookup_eq_some {hash : Nat} {hit : Option Nat} (looked : c.lookup hash = some (hit, c')) :
    c.find hash = hit ∧ (hit = none ∧ c' = c ∨ ∃ ent, hit = some ent ∧ c.update ent = some c') := by
  unfold PageCache.lookup at looked
  split at looked
  · next missed =>
      cases looked
      exact ⟨missed, Or.inl ⟨rfl, rfl⟩⟩
  · next ent found =>
      simp only [Option.map_eq_some_iff, Prod.mk.injEq] at looked
      obtain ⟨c', updated, rfl, rfl⟩ := looked
      exact ⟨found, Or.inr ⟨ent, rfl, updated⟩⟩

/-- **The next `Lookup` finds what this one found**: a hit is the newest entry now. -/
theorem Filed.lookup_again (filed : c.Filed) {hash : Nat} {hit : Option Nat}
    (looked : c.lookup hash = some (hit, c')) : c'.find hash = hit := by
  obtain ⟨found, ⟨rfl, rfl⟩ | ⟨ent, rfl, updated⟩⟩ := lookup_eq_some looked
  · exact found
  · have relinked := update_relinked updated
    have here : (c'.entry ent).valid = true ∧ (c'.entry ent).hash = hash := by
      rw [relinked.valid, relinked.hash]
      exact ⟨find_valid found, (filed.find found).2⟩
    have front : c'.newest = some ent := (update_prev updated).1
    simp only [PageCache.find, front, PageCache.walk, if_pos here]

end PageCache

/-! ## Workers between two rounds -/

/-- A worker between two rounds whose loads have all succeeded.  Nothing is said about what
the files or the frames hold. -/
structure Worker.AtRest (w : Worker) : Prop where
  between : w.ioQueue = []
  classes : ∀ c ∈ w.slab.slabs, c.Regular
  filed : w.pagecache.Filed
  still : w.pagecache.Still

/-- Every reached worker in whose cache nothing waits is at rest. -/
theorem Worker.Reached.atRest {w : Worker} (reached : w.Reached) (still : w.pagecache.Still) :
    w.AtRest where
  between := reached.orderly.2
  classes := reached.orderly.1.classes
  filed := reached.orderly.1.filed
  still := still

/-- A callback `Worker::ProcessRequest_` adds to a write. -/
def Callback.OfIndex : Callback → Prop
  | .put .. | .delete _ => True
  | _ => False

namespace Worker

/-- The round that consists of one queued request, settled. -/
def settled (w : Worker) (prepared : Aio × FileSlab) : Worker × List Effect :=
  (w.queue prepared.2 prepared.1).settle .inOrder

/-- `Lookup` leads to these bytes at an offset of a file. -/
def Shows (w : Worker) (file off : Nat) (bytes : Slice) : Prop :=
  match w.pagecache.find (pageHash file (off / pageSize)) with
  | some ent => cut w.pagecache.data ((w.pagecache.entry ent).page + off % pageSize) bytes.length = bytes
  | none => off + bytes.length ≤ (w.disk file).size ∧ cut (w.disk file).byte off bytes.length = bytes

/-- No byte outside the slab differs, in the files or in the frames. -/
structure SameOutside (w w' : Worker) (s : SlabT) : Prop where
  files : ∀ f, f ≠ s.file → w'.disk f = w.disk f
  bytes : ∀ o, o < s.off ∨ s.off + s.size ≤ o → (w'.disk s.file).byte o = (w.disk s.file).byte o
  frames : ∀ addr, w'.pagecache.data addr ≠ w.pagecache.data addr → ∃ ent < w.pagecache.usedPage,
    (w.pagecache.entry ent).hash = pageHash s.file (s.off / pageSize) ∧
    (w.pagecache.entry ent).page + s.off % pageSize ≤ addr ∧
    addr < (w.pagecache.entry ent).page + s.off % pageSize + s.size

/-! ## A write and what it leaves -/

/-- Callbacks that load no page leave the entries as they are. -/
theorem applied_entry : ∀ (callbacks : List Callback) (w : Worker),
    (∀ ent, .cacheRead ent ∉ callbacks) →
      (callbacks.foldl Callback.applied w).pagecache.entry = w.pagecache.entry
  | [], _, _ => rfl
  | c :: rest, w, quiet => by
      have later := applied_entry rest (c.applied w) fun ent member =>
        quiet ent (List.mem_cons_of_mem _ member)
      have here : (c.applied w).pagecache.entry = w.pagecache.entry := by
        cases c with
        | cacheRead ent => exact absurd (List.mem_cons_self ..) (quiet ent)
        | _ => rfl
      rw [List.foldl_cons, later, here]

/-- A write that is alone in its round leaves the cache as it is, but for the frames. -/
theorem settle_write {w : Worker} {a : Aio} (alone : w.ioQueue = [a]) (isWrite : a.IsWrite)
    (quiet : ∀ ent, .cacheRead ent ∉ a.callbacks) :
    (w.settle .inOrder).1.pagecache = { w.pagecache with data := w.pendData } := by
  have prepared : ∀ b ∈ w.ioQueue, b.Prepared := by
    rw [alone]
    rintro b member
    rw [List.mem_singleton.mp member]
    exact Or.inr isWrite
  obtain ⟨-, -, -, -, -, data, done, -⟩ := w.settle_spec prepared
  have entry : (w.settle .inOrder).1.pagecache.entry = w.pagecache.entry := by
    have ends : ∃ w' : Worker, w'.pagecache.entry = w.pagecache.entry ∧
        (w.settle .inOrder).1 = (w'.finish (a.stamp w.disk)).1 := by
      simp only [settle, alone, List.filter_cons, isWrite.submit, if_true, List.filter_nil,
        List.isEmpty_cons, Bool.false_eq_true, if_false, Kernel.inOrder, finishAll, List.head?_cons,
        Option.map_some, Aio.stamp]
      refine ⟨_, ?_, rfl⟩
      rfl
    obtain ⟨w', same, ends⟩ := ends
    obtain ⟨_, finished⟩ := w'.finish_eq (a.stamp w.disk)
    have callbacks : (a.stamp w.disk).callbacks = a.callbacks := by simp [Aio.stamp, isWrite.submit]
    rw [ends, finished, runCallbacks_success _ _ _ (stamp_success_of_write isWrite w.disk).1, callbacks,
      applied_entry _ _ quiet, same]
  cases shape : (w.settle .inOrder).1.pagecache with
  | mk newest oldest data' index entry' usedPage maxPage =>
      have fields := done
      rw [shape] at fields entry data
      obtain ⟨newestIs, oldestIs, indexIs, usedIs, maxIs, -⟩ := fields
      simp only at newestIs oldestIs indexIs usedIs maxIs entry data
      subst newestIs oldestIs indexIs usedIs maxIs entry data
      rfl

section Write

variable {w : Worker} (atRest : w.AtRest) (slabs : List SingleFileSlab) {fs' : LocalFileSet}
  {file off : Nat} {data : Slice} {aio a : Aio} (plain : ∀ c ∈ aio.callbacks, c.OfIndex)
  (wrote : w.slab.fileSet.write file data off aio = some (a, fs'))

include atRest plain wrote

/-- **A write that is alone in its round**: the file and, on a hit, the entry's frame get the
bytes. -/
theorem AtRest.write_spec : ∃ hit c, w.pagecache.lookup (pageHash file (off / pageSize)) = some (hit, c) ∧
    (w.settled (a, ⟨fs', slabs⟩)).1.slab.slabs = slabs ∧
    (w.settled (a, ⟨fs', slabs⟩)).1.slab.fileSet.fileSet = w.slab.fileSet.fileSet ∧
    (w.settled (a, ⟨fs', slabs⟩)).1.disk =
      Function.update w.disk file ((w.disk file).pwrite data off) ∧
    (w.settled (a, ⟨fs', slabs⟩)).1.pagecache = { c with
      data := match hit with
        | none => w.pagecache.data
        | some ent => blit w.pagecache.data ((w.pagecache.entry ent).page + off % pageSize) data } ∧
    (w.settled (a, ⟨fs', slabs⟩)).1.ioQueue = [] ∧
    (w.settled (a, ⟨fs', slabs⟩)).2 = [aio.batch.finishRequest none 0] := by
  obtain ⟨has, hit, c, looked, rfl, rfl⟩ := LocalFileSet.write_eq_some wrote
  have relinked := (atRest.filed.toSane.lookup looked).2
  have isWrite := Worker.toWrite_isWrite aio file data off hit
  have quietly : ∀ ent data' off', .cacheWrite ent data' off' ∉ aio.callbacks :=
    fun ent data' off' member => plain _ member
  let q : Worker := w.queue ⟨{ w.slab.fileSet with pagecache := c }, slabs⟩ (aio.toWrite file data off hit)
  have alone : q.ioQueue = [aio.toWrite file data off hit] := by
    rw [show q.ioQueue = w.ioQueue ++ [aio.toWrite file data off hit] from rfl, atRest.between,
      List.nil_append]
  have prepared : ∀ b ∈ q.ioQueue, b.Prepared := by
    rw [alone]
    intro b member
    rw [List.mem_singleton.mp member]
    exact Or.inr isWrite
  have noLoad : ∀ ent, .cacheRead ent ∉ (aio.toWrite file data off hit).callbacks := by
    intro ent member
    simp only [Aio.toWrite, List.mem_append] at member
    rcases member with own | added
    · exact plain _ own
    · cases hit <;> simp at added
  have cache := settle_write alone isWrite noLoad
  obtain ⟨-, slabsIs, filesIs, diskIs, -, -, -, queueIs, effects⟩ := q.settle_spec prepared
  have loaded : q.loadedData = w.pagecache.data := by
    rw [Worker.loadedData, alone]
    exact relinked.data
  have frames : q.pendData = match hit with
      | none => w.pagecache.data
      | some ent => blit w.pagecache.data ((w.pagecache.entry ent).page + off % pageSize) data := by
    rw [Worker.pendData, alone, loaded, List.foldl_cons, List.foldl_nil, onData_toWrite quietly]
    cases hit with
    | none => rfl
    | some ent => exact congrArg (fun page => blit _ (page + _) data) (relinked.page ent)
  refine ⟨hit, c, looked, slabsIs, filesIs, ?_, ?_, queueIs, ?_⟩
  · rw [settled, diskIs, Worker.pendDisk, alone]
    rfl
  · rw [settled, cache, frames]
    rfl
  · rw [settled, effects, alone]
    rfl

/-- **What was written shows**, and the worker is ready for the next round. -/
theorem AtRest.write (classes : ∀ c ∈ slabs, c.Regular) (some' : data ≠ []) :
    (w.settled (a, ⟨fs', slabs⟩)).1.AtRest ∧ (w.settled (a, ⟨fs', slabs⟩)).1.Shows file off data := by
  obtain ⟨hit, c, looked, slabsIs, -, diskIs, cacheIs, queueIs, -⟩ :=
    atRest.write_spec slabs plain wrote
  obtain ⟨sane, relinked⟩ := atRest.filed.toSane.lookup looked
  have filed : c.Filed := atRest.filed.relinked relinked sane
  have still : c.Still := by
    obtain ⟨hit', c', looked', still⟩ := atRest.still.lookup (pageHash file (off / pageSize))
    rw [looked] at looked'
    cases looked'
    exact still
  have again := atRest.filed.lookup_again looked
  refine ⟨⟨queueIs, ?_, ?_, ?_⟩, ?_⟩
  · rw [slabsIs]
    exact classes
  · rw [cacheIs]
    exact filed.completed (c.data_completed _)
  · rw [cacheIs]
    exact still.completed (c.data_completed _)
  · unfold Shows
    rw [cacheIs, diskIs, PageCache.find_data, again]
    cases hit with
    | none =>
        simp only [Function.update_self, ByteFile.pwrite_size _ some', ByteFile.pwrite_byte]
        exact ⟨le_max_right .., cut_blit ..⟩
    | some ent =>
        simp only [relinked.page]
        exact cut_blit ..

/-- **Only the slab's bytes change.** -/
theorem AtRest.write_sameOutside {s : SlabT} (isFile : file = s.file) (isOff : off = s.off)
    (fits : data.length ≤ s.size) : w.SameOutside (w.settled (a, ⟨fs', slabs⟩)).1 s := by
  obtain ⟨hit, c, looked, -, -, diskIs, cacheIs, -⟩ := atRest.write_spec slabs plain wrote
  subst isFile isOff
  refine ⟨fun f other => ?_, fun o outside => ?_, fun addr differs => ?_⟩
  · rw [diskIs, Function.update_of_ne other]
  · rw [diskIs, Function.update_self, ByteFile.pwrite_byte]
    exact blit_outside _ (by omega)
  · rw [cacheIs] at differs
    cases hit with
    | none => exact absurd rfl differs
    | some ent =>
        obtain ⟨allocated, hash⟩ := atRest.filed.find (PageCache.lookup_eq_some looked).1
        refine ⟨ent, allocated, hash, ?_⟩
        by_contra outside
        exact differs (blit_outside _ (by omega))

end Write

/-! ## The two ways back -/

end Worker

/-- A read that succeeds answers with the value its callback finds. -/
theorem Aio.answer_of_success {a : Aio} {disk : Disk} {memory : Memory} (isRead : a.opcode = .pread)
    (success : (a.stamp disk).success = true) :
    a.answer disk memory = a.batch.finishRequest (some (a.valueAt memory)) 0 := by
  have batch : (a.stamp disk).batch = a.batch := by
    unfold Aio.stamp
    split <;> rfl
  have value : (a.stamp disk).valueAt memory = a.valueAt memory := by
    unfold Aio.stamp
    split <;> rfl
  simp only [Aio.answer, isRead, if_pos success, Aio.result, batch, value]

/-- `LocalFileSet::Read` of a slab in a file the worker has succeeds. -/
theorem LocalFileSet.HasFile.read {fs : LocalFileSet} {file : Nat} (has : fs.HasFile file)
    (still : fs.pagecache.Still) (size off : Nat) (aio : Aio) :
    ∃ a fs', fs.read file size off aio = some (a, fs') := by
  obtain ⟨hit, c, looked, still'⟩ := still.lookup (pageHash file (off / pageSize))
  unfold LocalFileSet.read
  simp only [if_pos has, looked]
  cases hit with
  | some ent => exact ⟨_, _, rfl⟩
  | none =>
      obtain ⟨ent, c', made, -⟩ := PageCache.newEntry_live still'.toSane.toLinked still'.live
        still'.two still'.idle (pageHash file (off / pageSize))
      simp only [made]
      exact ⟨_, _, rfl⟩

namespace Worker

section Read

variable {w : Worker} (atRest : w.AtRest) {s : SlabT} (regular : s.Regular)
  (has : w.slab.fileSet.HasFile s.file) {bytes : Slice} (some' : bytes ≠ [])
  (fits : bytes.length ≤ s.size) (shows : w.Shows s.file s.off bytes)

include regular some' fits shows

/-- The page of a slab that shows from its file, loaded into a frame. -/
theorem Shows.loaded (missed : w.pagecache.find (pageHash s.file (s.off / pageSize)) = none)
    (memory : Memory) (frame : Nat) :
    pageSize * (s.off / pageSize) < (w.disk s.file).size ∧
    cut (blit memory frame ((w.disk s.file).pread pageSize (pageSize * (s.off / pageSize))))
      (frame + s.off % pageSize) bytes.length = bytes := by
  unfold Shows at shows
  rw [missed] at shows
  obtain ⟨reached, onDisk⟩ := shows
  have inPage := SlabT.in_page regular.divides
  have split := Nat.div_add_mod s.off pageSize
  have positive := List.length_pos_iff.mpr some'
  refine ⟨by omega, ?_⟩
  rw [← onDisk, length_cut]
  apply cut_congr
  intro i inside
  rw [Nat.add_assoc, ByteFile.blit_pread _ _ (by omega) (by omega), ← Nat.add_assoc, split]

include atRest has

/-- **`ReadSync` returns what shows.** -/
theorem Shows.sync : ∃ got fs, w.slab.fileSet.readSync s.file s.size s.off = some (got, fs) ∧
    ∃ (memory : Memory) (addr : Nat), got = cut memory addr s.size ∧
      cut memory addr bytes.length = bytes := by
  obtain ⟨got, c, read, -⟩ := has.readSync atRest.still s.size s.off
  obtain ⟨-, hit, mid, c', ent, looked, -, rfl, how⟩ := LocalFileSet.readSync_eq_some read
  obtain ⟨found, kept⟩ := PageCache.lookup_eq_some looked
  refine ⟨_, _, read, c'.data, (c'.entry ent).page + s.off % pageSize, rfl, ?_⟩
  rcases how with ⟨rfl, rfl⟩ | ⟨claimed, rfl, made, rfl⟩
  · have relinked := (atRest.filed.toSane.lookup looked).2
    unfold Shows at shows
    rw [found] at shows
    rw [relinked.data, relinked.page]
    exact shows
  · obtain ⟨-, rfl⟩ := kept.resolve_right fun ⟨_, hit, _⟩ => nomatch hit
    have page : ((w.slab.fileSet.loadPage s.file (s.off / pageSize) ent claimed).entry ent).page =
        (claimed.entry ent).page := (w.slab.fileSet.loadPage_completed ..).page ent
    rw [page]
    exact (shows.loaded regular some' fits found _ _).2

/-- **So does the asynchronous read**, by the time its completion callbacks run. -/
theorem Shows.async (self : Nat) (batch : Batch) : ∃ a fs,
    w.slab.read s (.new self batch) = some (a, fs) ∧
    cut (w.queue fs a).loadedData (a.frame + a.readOff) bytes.length = bytes ∧
    (w.settled (a, fs)).2 = [batch.finishRequest (some (a.valueAt (w.queue fs a).loadedData)) 0] := by
  let aio := (Aio.new self batch).addCallback .fileSlabRead
  obtain ⟨a, fs, read⟩ := has.read atRest.still s.size s.off aio
  refine ⟨a, { w.slab with fileSet := fs }, by rw [FileSlab.read, read]; rfl, ?_⟩
  let q := w.queue { w.slab with fileSet := fs } a
  have alone : q.ioQueue = [a] := by
    rw [show q.ioQueue = w.ioQueue ++ [a] from rfl, atRest.between, List.nil_append]
  have finished : ∀ isRead : a.IsRead, (w.settled (a, { w.slab with fileSet := fs })).2 =
      [a.answer q.disk q.loadedData] := by
    intro isRead
    have prepared : ∀ b ∈ q.ioQueue, b.Prepared := by
      rw [alone]
      intro b member
      rw [List.mem_singleton.mp member]
      exact Or.inl isRead
    obtain ⟨-, -, -, -, -, -, -, -, effects⟩ := q.settle_spec prepared
    rw [settled, effects, alone]
    rfl
  obtain ⟨-, hit, c, c', looked, rfl, ⟨ent, rfl, rfl, rfl⟩ | ⟨ent, rfl, made, rfl⟩⟩ :=
    LocalFileSet.read_eq_some read
  · -- the frame `Lookup` found, as it is
    have found := (PageCache.lookup_eq_some looked).1
    have relinked := (atRest.filed.toSane.lookup looked).2
    have loaded : q.loadedData = w.pagecache.data := by
      rw [Worker.loadedData, alone]
      exact relinked.data
    refine ⟨?_, (finished ⟨rfl, rfl, Or.inl ⟨rfl, rfl⟩⟩).trans ?_⟩
    · unfold Shows at shows
      rw [found] at shows
      rw [show (w.queue _ _).loadedData = _ from loaded]
      simp only [Aio.toFake, relinked.page]
      exact shows
    · rw [Aio.answer_of_success rfl rfl]
      rfl
  · -- a frame the page is loaded into
    obtain ⟨missed, kept⟩ := PageCache.lookup_eq_some looked
    obtain ⟨-, rfl⟩ := kept.resolve_right (by
      rintro ⟨_, hit, _⟩
      cases hit)
    obtain ⟨reached, there⟩ := shows.loaded regular some' fits missed c'.data (c'.entry ent).page
    have loaded : q.loadedData = blit c'.data (c'.entry ent).page
        ((w.disk s.file).pread pageSize (pageSize * (s.off / pageSize))) := by
      rw [Worker.loadedData, alone]
      rfl
    refine ⟨?_, ?_⟩
    · rw [show (w.queue _ _).loadedData = _ from loaded]
      exact there
    · rw [finished ⟨rfl, rfl, Or.inr ⟨rfl, ent, rfl⟩⟩]
      have success : ((aio.toLoad s.file s.size s.off ent (c'.entry ent).page).stamp q.disk).success =
          true := by
        have count : 0 < (w.disk s.file).preadCount pageSize (pageSize * (s.off / pageSize)) := by
          unfold ByteFile.preadCount
          simp only [pageSize] at reached ⊢
          omega
        exact decide_eq_true (Int.natCast_pos.mpr count)
      rw [Aio.answer_of_success rfl success]
      rfl

end Read

/-! ## Items -/

end Worker

/-- `FileSlab::Valid`. -/
def FileSlab.valid (tag : Nat) : Bool := tag == validTag

/-- The slab `Create` hands out is of a class's size. -/
theorem createIn_class {size : Nat} {slabs slabs' : List SingleFileSlab} {fs fs' : LocalFileSet}
    {s : SlabT} (classes : ∀ c ∈ slabs, c.Regular)
    (created : FileSlab.createIn size slabs fs = some (s, slabs', fs')) :
    ∃ c ∈ slabs', c.slabSize = s.size := by
  obtain ⟨before, c, after, c', rfl, rfl, -, served⟩ := createIn_split created
  have regular := classes c (by simp)
  refine ⟨c', by simp, ?_⟩
  rcases served with ⟨free, shape, rfl, -⟩ | ⟨-, rfl, -, rfl⟩
  · exact (regular.free s (by rw [shape]; exact List.mem_cons_self ..)).1.symm
  · have sameSize : (c.bump fs).1.slabSize = c.slabSize := by
      unfold SingleFileSlab.bump
      split <;> rfl
    have small := regular.small
    simp only [SingleFileSlab.current, SlabT.pack, sameSize]
    exact (Nat.mod_eq_of_lt (by simp only [pageSize] at small; omega)).symm

namespace Worker

/-- The tag `FileSlab::ReadSync` checks. -/
def syncTag (w : Worker) (s : SlabT) : Option Nat :=
  (w.slab.fileSet.readSync s.file s.size s.off).map fun out => word16 out.1 0

/-- The tag `FileSlabReadCallback` checks, of a read that is alone in its round. -/
def asyncTag (w : Worker) (s : SlabT) (aio : Aio) : Option Nat :=
  (w.slab.read s aio).map fun out =>
    loadLE (cut (w.queue out.2 out.1).loadedData (out.1.frame + out.1.readOff) 2)

/-- Both read paths pass the tag check and return the item. -/
structure Returns (w : Worker) (s : SlabT) (key value : Slice) : Prop where
  syncTag : (w.syncTag s).map FileSlab.valid = some true
  sync : (w.slab.readSync s).map Prod.fst = some (key, value)
  asyncTag : ∀ self batch, (w.asyncTag s (.new self batch)).map FileSlab.valid = some true
  async : ∀ self batch, (w.slab.read s (.new self batch)).map (fun out => (w.settled out).2) =
    some [batch.finishRequest (some value) 0]

/-- Both read paths fail the tag check. -/
structure Refuses (w : Worker) (s : SlabT) : Prop where
  syncTag : (w.syncTag s).map FileSlab.valid = some false
  asyncTag : ∀ self batch, (w.asyncTag s (.new self batch)).map FileSlab.valid = some false

section Decode

variable {w : Worker} (atRest : w.AtRest) {s : SlabT} (regular : s.Regular)
  (has : w.slab.fileSet.HasFile s.file)

include atRest regular has

/-- Both read paths check the word that shows first. -/
theorem Shows.tags {bytes : Slice} (two : 2 ≤ bytes.length) (fits : bytes.length ≤ s.size)
    (shows : w.Shows s.file s.off bytes) :
    w.syncTag s = some (loadLE (bytes.take 2)) ∧
      ∀ self batch, w.asyncTag s (.new self batch) = some (loadLE (bytes.take 2)) := by
  have some' : bytes ≠ [] := List.ne_nil_of_length_pos (by omega)
  refine ⟨?_, fun self batch => ?_⟩
  · obtain ⟨got, fs, read, memory, addr, rfl, there⟩ := shows.sync atRest regular has some' fits
    rw [Worker.syncTag, read, Option.map_some, word16, List.drop_zero, cut_take _ _ (by omega), ← there,
      cut_take _ _ two]
  · obtain ⟨a, fs, read, there, -⟩ := shows.async atRest regular has some' fits self batch
    rw [Worker.asyncTag, read, Option.map_some, ← there, cut_take _ _ two]

/-- **An item that shows is returned.** -/
theorem Shows.returns {key value : Slice} (narrow : Narrow key value)
    (fits : itemSize key value ≤ s.size) (shows : w.Shows s.file s.off (itemBytes key value)) :
    w.Returns s key value := by
  have length := length_itemBytes narrow
  have some' := itemBytes_ne_nil key value
  have tag : loadLE ((itemBytes key value).take 2) = validTag := by
    have word := (word16_itemBytes narrow []).1
    rwa [List.append_nil] at word
  obtain ⟨syncTag, asyncTag⟩ := shows.tags atRest regular has (by rw [length, itemSize]; omega)
    (length.le.trans fits)
  refine ⟨by rw [syncTag, tag]; rfl, ?_, fun self batch => by rw [asyncTag, tag]; rfl, fun self batch => ?_⟩
  · obtain ⟨got, fs, read, memory, addr, rfl, there⟩ :=
      shows.sync atRest regular has some' (length.le.trans fits)
    have item : ItemAt memory addr key value := ⟨narrow, length ▸ there⟩
    rw [FileSlab.readSync, read, Option.map_some, Option.map_some, decodeItem_of_itemAt item fits]
  · obtain ⟨a, fs, read, there, answered⟩ :=
      shows.async atRest regular has some' (length.le.trans fits) self batch
    have item : ItemAt (w.queue fs a).loadedData (a.frame + a.readOff) key value := ⟨narrow, length ▸ there⟩
    obtain ⟨keyWord, valueWord, valueBytes⟩ := item.parts
    have found : a.valueAt (w.queue fs a).loadedData = value := by
      rw [Aio.valueAt]
      simp only [keyWord, valueWord]
      rw [← Nat.add_assoc, ← Nat.add_assoc]
      exact valueBytes
    rw [read, Option.map_some, answered, found]

end Decode

end Worker

/-- **The slab round trip.** -/
theorem slab_roundtrip {w : Worker} (atRest : w.AtRest) {key value : Slice} {slab : SlabT}
    {fs fs' : FileSlab} (created : w.slab.create key value = some (slab, fs)) {aio a : Aio}
    (plain : ∀ c ∈ aio.callbacks, c.OfIndex) (wrote : fs.write slab key value aio = some (a, fs')) :
    let opened : Worker := { w with slab := fs }
    let written := (opened.settled (a, fs')).1
    (opened.settled (a, fs')).2 = [aio.batch.finishRequest none 0] ∧
    written.Returns slab key value ∧ opened.SameOutside written slab ∧
    ∀ erase : Aio, (∀ c ∈ erase.callbacks, c.OfIndex) →
      ∃ out, written.slab.delete slab erase = some out ∧
        (written.settled out).1.Refuses slab ∧ written.SameOutside (written.settled out).1 slab := by
  intro opened written
  obtain ⟨⟨slab', slabs, files⟩, createdIn, same⟩ := Option.map_eq_some_iff.mp created
  simp only [Prod.mk.injEq] at same
  obtain ⟨rfl, rfl⟩ := same
  obtain ⟨classes, regular, fits⟩ := createIn_regular atRest.classes createdIn
  have small := Nat.le_of_dvd (by decide) regular.divides
  have narrow : Narrow key value := by
    simp only [pageSize] at small
    unfold itemSize at fits
    constructor <;> omega
  have length := length_itemBytes narrow
  have some' := itemBytes_ne_nil key value
  have atRest' : opened.AtRest := by
    have cache : opened.pagecache = w.pagecache := (createIn_files createdIn).1
    exact ⟨atRest.between, classes, cache ▸ atRest.filed, cache ▸ atRest.still⟩
  obtain ⟨⟨a', fs''⟩, queued, same⟩ := Option.map_eq_some_iff.mp wrote
  simp only [Prod.mk.injEq] at same
  obtain ⟨rfl, rfl⟩ := same
  have has := (LocalFileSet.write_eq_some queued).1
  obtain ⟨-, -, -, slabsIs, filesIs, -, -, -, effects⟩ :=
    atRest'.write_spec slabs plain queued
  obtain ⟨after, shows⟩ := atRest'.write slabs plain queued classes some'
  have has' : written.slab.fileSet.HasFile slab'.file := by
    rw [LocalFileSet.HasFile, filesIs]
    exact has
  refine ⟨effects, shows.returns after regular has' narrow fits,
    atRest'.write_sameOutside slabs plain queued rfl rfl (length.le.trans fits), fun erase plain' => ?_⟩
  -- the slab is free again, and a zero word goes over its tag
  have ofClass : ∃ c ∈ written.slab.slabs, c.slabSize = slab'.size :=
    slabsIs ▸ createIn_class atRest.classes createdIn
  obtain ⟨freed, freeing⟩ := freeIn_isSome ofClass
  obtain ⟨hit, c, looked, -⟩ := after.still.lookup (pageHash slab'.file (slab'.off / pageSize))
  obtain ⟨⟨d, fs''⟩, zeroed⟩ := has'.write ⟨hit, c, looked⟩ (storeLE 8 0) erase
  have room : (storeLE 8 0).length ≤ slab'.size := by
    rw [length_storeLE]
    exact regular.room
  obtain ⟨last, shows'⟩ := after.write freed plain' zeroed (freeIn_regular (slabsIs ▸ classes) regular freeing)
    (by decide)
  obtain ⟨-, -, -, -, filesIs', -⟩ := after.write_spec freed plain' zeroed
  have has'' : (written.settled (d, ⟨fs'', freed⟩)).1.slab.fileSet.HasFile slab'.file := by
    rw [LocalFileSet.HasFile, filesIs']
    exact has'
  obtain ⟨syncTag, asyncTag⟩ := shows'.tags last regular has'' (by decide) room
  refine ⟨(d, ⟨fs'', freed⟩), ?_, ⟨by rw [syncTag]; rfl, fun self batch => by rw [asyncTag]; rfl⟩,
    after.write_sameOutside freed plain' zeroed rfl rfl room⟩
  rw [FileSlab.delete, freeing, zeroed]
  rfl

/-- An item of three bytes goes into a fresh slab of 64 bytes. -/
theorem slab_roundtrip_example : ∃ (slab : SlabT) (fs fs' : FileSlab) (a : Aio),
    (Worker.new 0 "db" 2 fun _ => 7).slab.create [1] [2, 3] = some (slab, fs) ∧
    fs.write slab [1] [2, 3] (.new 0 ⟨0, [], []⟩) = some (a, fs') ∧
    (Worker.settled { Worker.new 0 "db" 2 fun _ => 7 with slab := fs } (a, fs')).1.Returns slab [1] [2, 3] := by
  have start : (((Worker.new 0 "db" 2 fun _ => 7).slab.create [1] [2, 3]).bind fun out =>
      out.2.write out.1 [1] [2, 3] (.new 0 ⟨0, [], []⟩)).isSome = true := by
    decide +kernel
  obtain ⟨⟨a, fs'⟩, both⟩ := Option.isSome_iff_exists.mp start
  obtain ⟨⟨slab, fs⟩, created, wrote⟩ := Option.bind_eq_some_iff.mp both
  have atRest := Worker.Reached.atRest (.new 0 "db" 2 fun _ => 7) (.new le_rfl _)
  exact ⟨slab, fs, fs', a, created, wrote,
    (slab_roundtrip atRest created (by simp [Aio.new]) wrote).2.1⟩

end KTableFS.Kvengine
