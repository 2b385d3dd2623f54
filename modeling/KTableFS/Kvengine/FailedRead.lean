/-
# Kvengine.FailedRead -- a page read that fails

`NewEntry` marks the entry valid and waiting, and enters it in the index, before its
read is issued.  `ReadCallback` clears `wait` when the read succeeded and does nothing
when it failed.  No other code clears `wait`, and `NewEntry` never evicts a waiting
entry, so the entry of a failed read

* stays valid, under the hash of the page: a later request that finds it is served
  without I/O, with result 0, whatever the frame holds;
* stays waiting for ever: its frame is lost to the cache.

`failed_read_never_contained`: no run of GETs in which a page read fails contains the
failure.
-/
import KTableFS.Kvengine.FailedWrite

namespace KTableFS.Kvengine

open KTableFS.Theory

set_option autoImplicit false

namespace PageCache

/-- Every pointer and every index entry leads to an allocated entry.  This holds
whatever has been looked up, also of a list that has lost entries. -/
structure Sane (c : PageCache) : Prop extends Linked c where
  index : ∀ h e, c.index h = some e → e < c.usedPage

theorem new_sane (pages : Nat) (junk : Memory) : (new pages junk).Sane where
  toLinked := (new_wf pages junk).toLinked
  index _ _ found := by cases found

theorem Sane.find {c : PageCache} (sane : c.Sane) {hash ent : Nat} (found : c.find hash = some ent) :
    ent < c.usedPage := by
  unfold PageCache.find at found
  split at found
  · next p hit =>
      cases found
      exact (walk_hit sane.toLinked 20 sane.newest hit).1
  · cases found
  · split at found
    · cases found
    · next e indexed =>
        split at found
        · cases found
          exact sane.index hash ent indexed
        · cases found

theorem Sane.lookup {c c' : PageCache} (sane : c.Sane) {hash : Nat} {hit : Option Nat}
    (looked : c.lookup hash = some (hit, c')) : c'.Sane ∧ Relinked c c' := by
  unfold PageCache.lookup at looked
  split at looked
  · cases looked
    exact ⟨sane, .refl c⟩
  · next ent found =>
      simp only [Option.map_eq_some_iff, Prod.mk.injEq] at looked
      obtain ⟨_, updated, rfl, rfl⟩ := looked
      have relinked := update_relinked updated
      refine ⟨⟨update_linked sane.toLinked (sane.find found) updated, fun h e indexed => ?_⟩,
        relinked⟩
      rw [relinked.usedPage]
      exact sane.index h e (relinked.index ▸ indexed)

/-- What `NewEntry` does to the entries: one that was not waiting now waits for the
page, the others are as they were. -/
structure Took (c : PageCache) (hash ent : Nat) (c' : PageCache) : Prop where
  sane : c'.Sane
  more : c.usedPage ≤ c'.usedPage
  allocated : ent < c'.usedPage
  free : c.usedPage ≤ ent ∨ (c.entry ent).wait = false
  marked : (c'.entry ent).wait = true ∧ (c'.entry ent).valid = true ∧ (c'.entry ent).hash = hash
  others : ∀ e, e ≠ ent → (c'.entry e).wait = (c.entry e).wait ∧
    (c'.entry e).valid = (c.entry e).valid ∧ (c'.entry e).hash = (c.entry e).hash

theorem Sane.install {c c' : PageCache} (sane : c.Sane) {ent hash : Nat} (allocated : ent < c.usedPage)
    (updated : (c.install ent hash).update ent = some c') :
    c'.Sane ∧ c'.usedPage = c.usedPage ∧
      ∀ e, (c'.entry e).wait = (if e = ent then true else (c.entry e).wait) ∧
        (c'.entry e).valid = (if e = ent then true else (c.entry e).valid) ∧
        (c'.entry e).hash = if e = ent then hash else (c.entry e).hash := by
  have linked : (c.install ent hash).Linked := by
    refine ⟨sane.newest, sane.oldest, fun e p found => ?_, fun e p found => ?_⟩
    · rw [install_entry] at found
      split at found
      · exact sane.prev ent p found
      · exact sane.prev e p found
    · rw [install_entry] at found
      split at found
      · exact sane.next ent p found
      · exact sane.next e p found
  have relinked := update_relinked updated
  refine ⟨⟨update_linked linked allocated updated, fun h e indexed => ?_⟩, relinked.usedPage, ?_⟩
  · rw [relinked.usedPage]
    rw [relinked.index] at indexed
    simp only [PageCache.install] at indexed
    split at indexed
    · exact sane.index h e indexed
    · rw [Function.update_apply] at indexed
      split at indexed
      · cases indexed
        exact allocated
      · exact sane.index h e indexed
  · intro e
    rw [relinked.wait, relinked.valid, relinked.hash, install_entry]
    split
    · exact ⟨rfl, rfl, rfl⟩
    · exact ⟨rfl, rfl, rfl⟩

theorem Sane.newEntry {c c' : PageCache} (sane : c.Sane) {hash ent : Nat}
    (made : c.newEntry hash = some (ent, c')) : Took c hash ent c' := by
  unfold PageCache.newEntry at made
  split at made
  · simp only [Option.map_eq_some_iff, Prod.mk.injEq] at made
    obtain ⟨_, updated, rfl, rfl⟩ := made
    have fresh : Sane (modify { c with usedPage := c.usedPage + 1 } c.usedPage fun e =>
        { e with page := c.usedPage * pageSize }) := by
      refine ⟨⟨fun e found => Nat.lt_succ_of_lt (sane.newest e found),
        fun e found => Nat.lt_succ_of_lt (sane.oldest e found), fun e p found => ?_,
        fun e p found => ?_⟩, fun h e indexed => Nat.lt_succ_of_lt (sane.index h e indexed)⟩
      · rw [modify_entry] at found
        split at found
        · exact Nat.lt_succ_of_lt (sane.prev c.usedPage p found)
        · exact Nat.lt_succ_of_lt (sane.prev e p found)
      · rw [modify_entry] at found
        split at found
        · exact Nat.lt_succ_of_lt (sane.next c.usedPage p found)
        · exact Nat.lt_succ_of_lt (sane.next e p found)
    obtain ⟨sane', usedPage, entries⟩ := fresh.install (Nat.lt_succ_self _) updated
    refine ⟨sane', usedPage ▸ Nat.le_succ _, usedPage ▸ Nat.lt_succ_self _, Or.inl le_rfl, ?_, ?_⟩
    · simpa using entries c.usedPage
    · intro e other
      simpa [other, modify_entry] using entries e
  · split at made
    · cases made
    · next victim found =>
        split at made
        · cases made
        · next mid unlinked =>
            simp only [Option.map_eq_some_iff, Prod.mk.injEq] at made
            obtain ⟨_, updated, rfl, rfl⟩ := made
            obtain ⟨allocated, idle⟩ := victim_allocated sane.toLinked found
            have relinked := unlink_relinked unlinked
            have linked := unlink_linked sane.toLinked unlinked
            have evicted : Sane { mid with
                index := Function.update mid.index (mid.entry victim).hash none } := by
              refine ⟨⟨linked.newest, linked.oldest, linked.prev, linked.next⟩, fun h e indexed => ?_⟩
              simp only [Function.update_apply] at indexed
              split at indexed
              · cases indexed
              · rw [relinked.index] at indexed
                rw [relinked.usedPage]
                exact sane.index h e indexed
            obtain ⟨sane', usedPage, entries⟩ :=
              evicted.install (relinked.usedPage.symm ▸ allocated) updated
            have same : _ = c.usedPage := usedPage.trans relinked.usedPage
            refine ⟨sane', same.ge, same ▸ allocated, Or.inr idle, ?_, ?_⟩
            · simpa using entries victim
            · intro e other
              have kept := entries e
              simp only [other, if_false] at kept
              exact ⟨kept.1.trans (relinked.wait e), kept.2.1.trans (relinked.valid e),
                kept.2.2.trans (relinked.hash e)⟩

end PageCache

/-! ## What every request keeps of the cache -/

namespace PageCache

/-- `Lookup`, `NewEntry` and the completions keep this property of the cache. -/
structure Stable (P : PageCache → Prop) : Prop where
  lookup : ∀ {c c' : PageCache} {hash : Nat} {hit : Option Nat}, P c →
    c.lookup hash = some (hit, c') → P c'
  newEntry : ∀ {c c' : PageCache} {hash ent : Nat}, P c → c.newEntry hash = some (ent, c') → P c'
  completed : ∀ {c c' : PageCache}, P c → c.Completed c' → P c'

namespace Stable

variable {P : PageCache → Prop} (stable : Stable P)

include stable

theorem write {fs fs' : LocalFileSet} {file off : Nat} {data : Slice} {aio a : Aio}
    (kept : P fs.pagecache) (queued : fs.write file data off aio = some (a, fs')) : P fs'.pagecache := by
  obtain ⟨-, hit, c, looked, -, rfl⟩ := LocalFileSet.write_eq_some queued
  exact stable.lookup kept looked

theorem read {fs fs' : LocalFileSet} {file size off : Nat} {aio a : Aio} (kept : P fs.pagecache)
    (queued : fs.read file size off aio = some (a, fs')) : P fs'.pagecache := by
  obtain ⟨-, hit, c, c', looked, rfl, kind⟩ := LocalFileSet.read_eq_some queued
  have found := stable.lookup kept looked
  rcases kind with ⟨ent, -, rfl, -⟩ | ⟨ent, -, made, -⟩
  · exact found
  · exact stable.newEntry found made

theorem readSync {fs fs' : LocalFileSet} {file size off : Nat} {bytes : Slice} (kept : P fs.pagecache)
    (read : fs.readSync file size off = some (bytes, fs')) : P fs'.pagecache := by
  obtain ⟨-, hit, c, c', ent, looked, rfl, -, kind⟩ := LocalFileSet.readSync_eq_some read
  have found := stable.lookup kept looked
  rcases kind with ⟨-, rfl⟩ | ⟨mid, -, made, rfl⟩
  · exact found
  · exact stable.completed (stable.newEntry found made) (fs.loadPage_completed file _ ent mid)

theorem scanLoop {callback : ScanCallback} : ∀ {entries : List (Slice × SlabT)}
    {fs fs' : FileSlab} {batch batch' : Batch} {effects : List Effect}, P fs.fileSet.pagecache →
      Worker.scanLoop callback entries fs batch = some (fs', batch', effects) →
      P fs'.fileSet.pagecache
  | [], _, _, _, _, _, kept, scanned => by
      cases scanned
      exact kept
  | entry :: rest, fs, fs', batch, batch', effects, kept, scanned => by
      unfold Worker.scanLoop at scanned
      split at scanned
      · cases scanned
      · next pair fs₁ read =>
          simp only [FileSlab.readSync, Option.map_eq_some_iff] at read
          obtain ⟨⟨bytes, files⟩, read, same⟩ := read
          cases same
          simp only [Option.map_eq_some_iff] at scanned
          obtain ⟨⟨fs₂, last, later⟩, scanned, same⟩ := scanned
          cases same
          exact scanLoop (stable.readSync kept read) scanned

/-- Every request keeps it. -/
theorem processRequest {w w' : Worker} (kept : P w.pagecache) {batch : Batch}
    {effects : List Effect} (taken : w.processRequest batch = some (w', effects)) :
    P w'.pagecache := by
  cases shape : batch.requests with
  | nil =>
      simp only [Worker.processRequest, shape, Option.some.injEq, Prod.mk.injEq] at taken
      exact taken.1 ▸ kept
  | cons req rest =>
      cases Worker.processRequest_handled shape taken with
      | refused reason => exact kept
      | get found queued => exact stable.read kept queued
      | put absent created queued =>
          refine stable.write ?_ queued
          rw [(createIn_files created).1]
          exact kept
      | update found queued => exact stable.write kept queued
      | delete found freed queued => exact stable.write kept queued
      | scan scanned => exact stable.scanLoop kept scanned

theorem processAll : ∀ {batches : List Batch} {w w' : Worker} {effects : List Effect},
    P w.pagecache → w.processAll batches = some (w', effects) → P w'.pagecache
  | [], _, _, _, kept, processed => by
      cases processed
      exact kept
  | batch :: rest, w, w', _, kept, processed => by
      obtain ⟨mid, _, _, taken, others, -⟩ := processAll_cons processed
      exact processAll (stable.processRequest kept taken) others

end Stable

theorem Sane.completed {c c' : PageCache} (sane : c.Sane) (done : c.Completed c') : c'.Sane where
  newest e found := by
    rw [done.usedPage]
    exact sane.newest e (done.newest ▸ found)
  oldest e found := by
    rw [done.usedPage]
    exact sane.oldest e (done.oldest ▸ found)
  prev e p found := by
    rw [done.usedPage]
    exact sane.prev e p (done.prev e ▸ found)
  next e p found := by
    rw [done.usedPage]
    exact sane.next e p (done.next e ▸ found)
  index h e found := by
    rw [done.usedPage]
    exact sane.index h e (done.index ▸ found)

/-- Pointers stay in range, whatever is requested. -/
theorem sane_stable : Stable Sane where
  lookup sane looked := (sane.lookup looked).1
  newEntry sane made := (sane.newEntry made).sane
  completed sane done := sane.completed done

end PageCache

/-! ## The loads of a round -/

/-- Every load in the queue has an entry of its own, which waits for it. -/
structure Worker.Reading (w : Worker) : Prop where
  sane : w.pagecache.Sane
  loads : ∀ a ∈ w.ioQueue, ∀ e, .cacheRead e ∈ a.callbacks → a.opcode = .pread ∧
    e < w.pagecache.usedPage ∧ (w.pagecache.entry e).wait = true ∧
    (w.pagecache.entry e).valid = true ∧
    (w.pagecache.entry e).hash = pageHash a.fildes (a.offset / pageSize)
  once : w.ioQueue.Pairwise fun a b => ∀ e, .cacheRead e ∈ a.callbacks → .cacheRead e ∉ b.callbacks

/-- A waiting entry stays as it is, and gets no further load. -/
structure Keeps (w w' : Worker) : Prop where
  entry : ∀ e < w.pagecache.usedPage, (w.pagecache.entry e).wait = true →
    e < w'.pagecache.usedPage ∧ (w'.pagecache.entry e).wait = true ∧
      (w'.pagecache.entry e).valid = (w.pagecache.entry e).valid ∧
      (w'.pagecache.entry e).hash = (w.pagecache.entry e).hash
  reads : ∀ e < w.pagecache.usedPage, (w.pagecache.entry e).wait = true →
    ∀ a ∈ w'.ioQueue, .cacheRead e ∈ a.callbacks → a ∈ w.ioQueue

theorem Keeps.refl (w : Worker) : Keeps w w :=
  ⟨fun _ allocated waits => ⟨allocated, waits, rfl, rfl⟩, fun _ _ _ _ member _ => member⟩

theorem Keeps.trans {w w' w'' : Worker} (first : Keeps w w') (second : Keeps w' w'') :
    Keeps w w'' where
  entry e allocated waits := by
    obtain ⟨allocated', waits', valid, hash⟩ := first.entry e allocated waits
    obtain ⟨allocated'', waits'', valid', hash'⟩ := second.entry e allocated' waits'
    exact ⟨allocated'', waits'', valid'.trans valid, hash'.trans hash⟩
  reads e allocated waits a member load := by
    obtain ⟨allocated', waits', -, -⟩ := first.entry e allocated waits
    exact first.reads e allocated waits a (second.reads e allocated' waits' a member load) load

/-- Queueing a request whose load, if it has one, is for an entry that did not wait. -/
theorem Worker.Reading.queued {w : Worker} (reading : w.Reading) {fs : FileSlab} {a : Aio}
    (sane : fs.fileSet.pagecache.Sane)
    (entry : ∀ e < w.pagecache.usedPage, (w.pagecache.entry e).wait = true →
      e < fs.fileSet.pagecache.usedPage ∧ (fs.fileSet.pagecache.entry e).wait = true ∧
        (fs.fileSet.pagecache.entry e).valid = (w.pagecache.entry e).valid ∧
        (fs.fileSet.pagecache.entry e).hash = (w.pagecache.entry e).hash)
    (load : ∀ e, .cacheRead e ∈ a.callbacks →
      (w.pagecache.usedPage ≤ e ∨ (w.pagecache.entry e).wait = false) ∧ a.opcode = .pread ∧
      e < fs.fileSet.pagecache.usedPage ∧ (fs.fileSet.pagecache.entry e).wait = true ∧
        (fs.fileSet.pagecache.entry e).valid = true ∧
        (fs.fileSet.pagecache.entry e).hash = pageHash a.fildes (a.offset / pageSize)) :
    (w.queue fs a).Reading ∧ Keeps w (w.queue fs a) := by
  have unloaded : ∀ e < w.pagecache.usedPage, (w.pagecache.entry e).wait = true →
      .cacheRead e ∉ a.callbacks := by
    intro e allocated waits member
    rcases (load e member).1 with fresh | idle
    · omega
    · rw [waits] at idle
      cases idle
  refine ⟨⟨sane, ?_, ?_⟩, ⟨entry, ?_⟩⟩
  · intro b member e loads
    rcases List.mem_append.mp member with old | new
    · obtain ⟨opcode, allocated, waits, valid, hash⟩ := reading.loads b old e loads
      obtain ⟨allocated', waits', valid', hash'⟩ := entry e allocated waits
      exact ⟨opcode, allocated', waits', valid'.trans valid, hash'.trans hash⟩
    · rw [List.mem_singleton] at new
      subst new
      exact (load e loads).2
  · refine List.pairwise_append.mpr ⟨reading.once, List.pairwise_singleton _ _, ?_⟩
    intro b member c new e loads
    rw [List.mem_singleton.mp new]
    obtain ⟨-, allocated, waits, -, -⟩ := reading.loads b member e loads
    exact unloaded e allocated waits
  · intro e allocated waits b member loads
    rcases List.mem_append.mp member with old | new
    · exact old
    · rw [List.mem_singleton.mp new] at loads
      exact absurd loads (unloaded e allocated waits)

/-- A GET never disturbs a waiting entry. -/
theorem Worker.Reading.get {w w' : Worker} (reading : w.Reading) {batch : Batch} {key : Slice}
    {rest : List Request} {effects : List Effect} (shape : batch.requests = .get key :: rest)
    (taken : w.processRequest batch = some (w', effects)) : w'.Reading ∧ Keeps w w' := by
  simp only [Worker.processRequest, shape] at taken
  split at taken
  · cases taken
    exact ⟨reading, .refl w⟩
  · next slab found =>
      simp only [Worker.enqueue, FileSlab.read, Option.map_map, Option.map_eq_some_iff] at taken
      obtain ⟨⟨a, fs⟩, queued, same⟩ := taken
      cases same
      obtain ⟨-, hit, c, c', looked, rfl, kind⟩ := LocalFileSet.read_eq_some queued
      obtain ⟨sane, relinked⟩ := reading.sane.lookup looked
      have afterLookup : ∀ e < w.pagecache.usedPage, (w.pagecache.entry e).wait = true →
          e < c.usedPage ∧ (c.entry e).wait = true ∧
            (c.entry e).valid = (w.pagecache.entry e).valid ∧
            (c.entry e).hash = (w.pagecache.entry e).hash := fun e allocated waits =>
        ⟨relinked.usedPage.symm ▸ allocated, (relinked.wait e).trans waits, relinked.valid e,
          relinked.hash e⟩
      rcases kind with ⟨ent, -, rfl, rfl⟩ | ⟨ent, -, made, rfl⟩
      · refine reading.queued sane afterLookup ?_
        intro e member
        simp [Aio.toFake, Aio.addCallback, Aio.new] at member
      · have took := sane.newEntry made
        refine reading.queued took.sane ?_ ?_
        · intro e allocated waits
          obtain ⟨allocated', waits', valid, hash⟩ := afterLookup e allocated waits
          have other : e ≠ ent := by
            rintro rfl
            rcases took.free with fresh | idle
            · omega
            · rw [waits'] at idle
              cases idle
          obtain ⟨keptWait, keptValid, keptHash⟩ := took.others e other
          exact ⟨lt_of_lt_of_le allocated' took.more, keptWait.trans waits', keptValid.trans valid,
            keptHash.trans hash⟩
        · intro e member
          have isEnt : e = ent := by
            simpa [Aio.toLoad, Aio.addCallback, Aio.new] using member
          subst isEnt
          refine ⟨?_, rfl, took.allocated, took.marked.1, took.marked.2.1, ?_⟩
          · rw [← relinked.usedPage, ← relinked.wait]
            exact took.free
          · rw [took.marked.2.2]
            simp [Aio.toLoad]

theorem Worker.Reading.gets : ∀ {batches : List Batch} {w w' : Worker} {effects : List Effect},
    w.Reading → (∀ batch ∈ batches, ∀ req ∈ batch.requests, ∃ key, req = .get key) →
      w.processAll batches = some (w', effects) → w'.Reading ∧ Keeps w w'
  | [], w, _, _, reading, _, processed => by
      cases processed
      exact ⟨reading, .refl w⟩
  | batch :: rest, w, w', _, reading, gets, processed => by
      obtain ⟨mid, _, _, taken, others, -⟩ := processAll_cons processed
      have here : mid.Reading ∧ Keeps w mid := by
        cases shape : batch.requests with
        | nil =>
            simp only [Worker.processRequest, shape, Option.some.injEq, Prod.mk.injEq] at taken
            obtain ⟨rfl, -⟩ := taken
            exact ⟨reading, .refl w⟩
        | cons req tail =>
            obtain ⟨key, rfl⟩ := gets batch (.head _) req (shape ▸ .head _)
            exact reading.get shape taken
      obtain ⟨reading', keeps⟩ :=
        Worker.Reading.gets here.1 (fun b member => gets b (.tail _ member)) others
      exact ⟨reading', here.2.trans keeps⟩

/-! ## Finishing under any verdict -/

namespace Worker

theorem runCallback_cache (w : Worker) (a : Aio) (callback : Callback) :
    w.pagecache.Completed (w.runCallback a callback).1.pagecache ∧
      (∀ e, (a.success = true → callback ≠ .cacheRead e) →
        ((w.runCallback a callback).1.pagecache.entry e).wait = (w.pagecache.entry e).wait) := by
  unfold runCallback
  split
  · next success =>
      cases callback with
      | put key slab => exact ⟨.refl _, fun _ _ => rfl⟩
      | delete key => exact ⟨.refl _, fun _ _ => rfl⟩
      | fileSlabRead => exact ⟨.refl _, fun _ _ => rfl⟩
      | cacheWrite ent data off => exact ⟨PageCache.data_completed _ _, fun _ _ => rfl⟩
      | cacheRead ent =>
          refine ⟨PageCache.readCallback_completed _ ent, fun e other => ?_⟩
          have differ : e ≠ ent := by
            rintro rfl
            exact other success rfl
          show ((w.pagecache.readCallback ent).entry e).wait = _
          rw [PageCache.readCallback, PageCache.modify_entry, if_neg differ]
  · exact ⟨.refl _, fun _ _ => rfl⟩

theorem runCallbacks_cache : ∀ (callbacks : List Callback) (w : Worker) (a : Aio),
    w.pagecache.Completed (runCallbacks callbacks w a).1.pagecache ∧
      ∀ e, (a.success = true → .cacheRead e ∉ callbacks) →
        ((runCallbacks callbacks w a).1.pagecache.entry e).wait = (w.pagecache.entry e).wait
  | [], w, a => ⟨.refl _, fun _ _ => rfl⟩
  | callback :: rest, w, a => by
      obtain ⟨done, wait⟩ := runCallback_cache w a callback
      obtain ⟨size, off, kept⟩ := runCallback_aio w a callback
      obtain ⟨done', wait'⟩ :=
        runCallbacks_cache rest (w.runCallback a callback).1 (w.runCallback a callback).2
      have verdict : (w.runCallback a callback).2.success = a.success := by
        rw [kept]
        rfl
      refine ⟨done.trans done', fun e unread => ?_⟩
      rw [runCallbacks, wait' e, wait e]
      · rintro success rfl
        exact unread success (.head _)
      · intro success member
        exact unread (verdict ▸ success) (.tail _ member)

theorem finish_cache (w : Worker) (a : Aio) :
    w.pagecache.Completed (w.finish a).1.pagecache ∧ (w.finish a).1.ioQueue = w.ioQueue ∧
      ∀ e, (a.success = true → .cacheRead e ∉ a.callbacks) →
        ((w.finish a).1.pagecache.entry e).wait = (w.pagecache.entry e).wait := by
  obtain ⟨data, finished⟩ := w.finish_eq a
  rw [finished]
  obtain ⟨done, wait⟩ := runCallbacks_cache a.callbacks w a
  exact ⟨done, runCallbacks_queue a.callbacks w a, wait⟩

/-- Finishing clears `wait` of an entry only through a load that succeeded. -/
theorem finishEach_cache : ∀ (pairs : List (Aio × Option IoEvent)) (w : Worker),
    w.pagecache.Completed (finishEach pairs w).1.pagecache ∧
      (finishEach pairs w).1.ioQueue = w.ioQueue ∧
      ∀ e, (∀ pair ∈ pairs, (pair.1.given pair.2).success = true →
          .cacheRead e ∉ pair.1.callbacks) →
        ((finishEach pairs w).1.pagecache.entry e).wait = (w.pagecache.entry e).wait
  | [], w => ⟨.refl _, rfl, fun _ _ => rfl⟩
  | (a, event) :: rest, w => by
      obtain ⟨done, queue, wait⟩ := finish_cache w (a.given event)
      obtain ⟨done', queue', wait'⟩ := finishEach_cache rest (w.finish (a.given event)).1
      have callbacks : (a.given event).callbacks = a.callbacks := by
        cases event with
        | none => rfl
        | some event => rfl
      refine ⟨done.trans done', queue'.trans queue, fun e unread => ?_⟩
      rw [finishEach, wait' e fun pair member => unread pair (.tail _ member), wait e]
      rw [callbacks]
      exact unread (a, event) (.head _)

/-- A round's requests with the events they are finished with. -/
def finishing (w : Worker) (kernel : Kernel) : List (Aio × Option IoEvent) :=
  w.ioQueue.zip (handed w.ioQueue (w.performIo kernel).2)

theorem settle_cache {w : Worker} (fresh : w.Fresh) (kernel : Kernel) :
    w.pagecache.Completed (w.settle kernel).1.pagecache ∧ (w.settle kernel).1.ioQueue = [] ∧
      ∀ e, (∀ pair ∈ w.finishing kernel, (pair.1.given pair.2).success = true →
          .cacheRead e ∉ pair.1.callbacks) →
        ((w.settle kernel).1.pagecache.entry e).wait = (w.pagecache.entry e).wait := by
  rw [settle_eq, finishAll_eq_finishEach _ _ _ fresh.events]
  obtain ⟨done, queue, wait⟩ := finishEach_cache (w.finishing kernel) (w.performIo kernel).1
  exact ⟨(PageCache.data_completed w.pagecache _).trans done, queue, wait⟩

end Worker

/-! ## Runs of GETs -/

/-- The batches of a round of GETs, one client each. -/
def getBatches (keys : List Slice) : List Batch := batchesFrom 0 (keys.map .get)

/-- One round of GETs, under the kernel that completes it. -/
def Worker.getRound (w : Worker) (round : List Slice × Kernel) : Option (Worker × List Effect) :=
  w.round round.2 (getBatches round.1)

/-- In this round the read of the page with this hash into this entry completes with a
result of 0 or an error code. -/
def FailedRead (w : Worker) (round : List Slice × Kernel) (ent hash : Nat) : Prop :=
  ∃ mid effects, w.processAll (getBatches round.1) = some (mid, effects) ∧
    ∃ a event, (a, some event) ∈ mid.finishing round.2 ∧ .cacheRead ent ∈ a.callbacks ∧
      hash = pageHash a.fildes (a.offset / pageSize) ∧ event.res ≤ 0

/-- In this round a read of the page completes with data. -/
def ReadPage (w : Worker) (round : List Slice × Kernel) (file page : Nat) : Prop :=
  ∃ mid effects, w.processAll (getBatches round.1) = some (mid, effects) ∧
    ∃ a event ent, (a, some event) ∈ mid.finishing round.2 ∧ .cacheRead ent ∈ a.callbacks ∧
      a.fildes = file ∧ a.offset = pageSize * page ∧ 0 < event.res

/-- The page is cached with its data: read or written before the run. -/
def Worker.HasPage (w : Worker) (file page : Nat) : Prop :=
  ∃ ent, w.pagecache.index (pageHash file page) = some ent ∧ (w.pagecache.entry ent).wait = false

/-- Every GET answered with result 0 is about a page with data: cached before the run,
or read during it. -/
def GenuineAnswers (known : Nat → Nat → Prop) : Worker → List (List Slice × Kernel) → Prop
  | _, [] => True
  | w, round :: rest => ∀ w' effects, w.getRound round = some (w', effects) →
      (∀ (i : Nat) (key : Slice) (slab : SlabT) (data : Option Slice), round.1[i]? = some key →
        w.index[key]? = some slab → .respond i data 0 ∈ effects →
          known slab.file (slab.off / pageSize) ∨ ReadPage w round slab.file (slab.off / pageSize)) ∧
      GenuineAnswers (fun file page => known file page ∨ ReadPage w round file page) w' rest

/-- Failed page reads stay without consequence. -/
structure ReadFailuresContained (w : Worker) (rounds : List (List Slice × Kernel)) : Prop where
  genuine : GenuineAnswers w.HasPage w rounds
  /-- At the end of the run the entry of a failed read is not served for its page, and
  can be evicted. -/
  forgotten : ∀ before round after v outs w' outs' ent hash, rounds = before ++ round :: after →
    Run.run Worker.getRound w before = some (v, outs) →
    Run.run Worker.getRound w rounds = some (w', outs') → FailedRead v round ent hash →
      w'.pagecache.find hash ≠ some ent ∧ (w'.pagecache.entry ent).wait = false

/-- Between rounds: the entry waits for a read that is over. -/
structure Stuck (w : Worker) (ent hash : Nat) : Prop where
  sane : w.pagecache.Sane
  between : w.ioQueue = []
  allocated : ent < w.pagecache.usedPage
  waits : (w.pagecache.entry ent).wait = true
  valid : (w.pagecache.entry ent).valid = true
  hash : (w.pagecache.entry ent).hash = hash

theorem getBatches_gets (keys : List Slice) :
    ∀ batch ∈ getBatches keys, ∀ req ∈ batch.requests, ∃ key, req = .get key := by
  suffices all : ∀ (keys : List Slice) (n : Nat), ∀ batch ∈ batchesFrom n (keys.map .get),
      ∀ req ∈ batch.requests, ∃ key, req = .get key from all keys 0
  intro keys
  induction keys with
  | nil => simp [batchesFrom]
  | cons key rest ih =>
      intro n batch member req inBatch
      rcases List.mem_cons.mp member with rfl | later
      · exact ⟨key, List.mem_singleton.mp inBatch⟩
      · exact ih (n + 1) batch later req inBatch

theorem getRound_eq_some {w w' : Worker} {round : List Slice × Kernel} {effects : List Effect}
    (ran : w.getRound round = some (w', effects)) :
    ∃ mid early, w.processAll (getBatches round.1) = some (mid, early) ∧
      w' = (mid.settle round.2).1 := by
  simp only [Worker.getRound, Worker.round, Option.map_eq_some_iff, Prod.mk.injEq] at ran
  obtain ⟨⟨mid, early⟩, processed, rfl, -⟩ := ran
  exact ⟨mid, early, processed, rfl⟩

/-- Between rounds there is nothing to read. -/
theorem Worker.Reading.between {w : Worker} (sane : w.pagecache.Sane) (between : w.ioQueue = []) :
    w.Reading where
  sane := sane
  loads := by simp [between]
  once := by simp [between]

/-- Pointers stay in range over any round. -/
theorem sane_round {w w' : Worker} {kernel : Kernel} {batches : List Batch} {effects : List Effect}
    (sane : w.pagecache.Sane) (between : w.ioQueue = [])
    (ran : w.round kernel batches = some (w', effects)) : w'.pagecache.Sane ∧ w'.ioQueue = [] := by
  simp only [Worker.round, Option.map_eq_some_iff, Prod.mk.injEq] at ran
  obtain ⟨⟨mid, early⟩, processed, rfl, -⟩ := ran
  have empty : w.Fresh := ⟨by simp [between], by simp [between]⟩
  obtain ⟨done, queue, -⟩ := Worker.settle_cache (empty.processAll processed) kernel
  exact ⟨(PageCache.sane_stable.processAll sane processed).completed done, queue⟩

/-- So they are in range in every state a worker reaches. -/
theorem sane_reached {id : Nat} {workDir : String} {pages : Nat} {junk : Memory}
    {rounds : List (List Request)} {w : Worker} {outs : List (List Effect)}
    (ran : Run.run Worker.serve (Worker.new id workDir pages junk) rounds = some (w, outs)) :
    w.pagecache.Sane ∧ w.ioQueue = [] :=
  @Run.invariant _ _ _ _ (fun v => v.pagecache.Sane ∧ v.ioQueue = []) (fun _ _ => True)
    (fun _ _ _ _ kept _ served => sane_round kept.1 kept.2 served) _ _ _ _
    ⟨PageCache.new_sane pages junk, rfl⟩ (Run.Along.of_forall fun _ _ => trivial) ran

/-- The step: no later round of GETs frees the entry. -/
theorem Stuck.getRound {w w' : Worker} {ent hash : Nat} {round : List Slice × Kernel}
    {effects : List Effect} (stuck : Stuck w ent hash) (ran : w.getRound round = some (w', effects)) :
    Stuck w' ent hash := by
  obtain ⟨sane', between'⟩ := sane_round stuck.sane stuck.between ran
  obtain ⟨mid, early, processed, rfl⟩ := getRound_eq_some ran
  have empty : w.Fresh := ⟨by simp [stuck.between], by simp [stuck.between]⟩
  obtain ⟨done, -, wait⟩ := Worker.settle_cache (empty.processAll processed) round.2
  obtain ⟨-, keeps⟩ :=
    (Worker.Reading.between stuck.sane stuck.between).gets (getBatches_gets _) processed
  obtain ⟨allocated, waits, valid, kept⟩ := keeps.entry ent stuck.allocated stuck.waits
  have unread : ∀ pair ∈ mid.finishing round.2, (pair.1.given pair.2).success = true →
      .cacheRead ent ∉ pair.1.callbacks := by
    intro pair member _ load
    have queued := keeps.reads ent stuck.allocated stuck.waits pair.1 (List.of_mem_zip member).1 load
    simp [stuck.between] at queued
  exact {
    sane := sane'
    between := between'
    allocated := done.usedPage ▸ allocated
    waits := (wait ent unread).trans waits
    valid := done.valid ent (valid.trans stuck.valid)
    hash := (done.hash ent).trans (kept.trans stuck.hash) }

/-- The start: a failed read leaves its entry stuck. -/
theorem stuck_of_failedRead {w w' : Worker} {ent hash : Nat} {round : List Slice × Kernel}
    {effects : List Effect} (sane : w.pagecache.Sane) (between : w.ioQueue = [])
    (failed : FailedRead w round ent hash) (ran : w.getRound round = some (w', effects)) :
    Stuck w' ent hash := by
  obtain ⟨sane', between'⟩ := sane_round sane between ran
  obtain ⟨mid, early, processed, rfl⟩ := getRound_eq_some ran
  obtain ⟨mid', early', processed', a, event, member, load, rfl, bad⟩ := failed
  obtain ⟨rfl, -⟩ := Prod.mk.inj (Option.some.inj (processed'.symm.trans processed))
  have empty : w.Fresh := ⟨by simp [between], by simp [between]⟩
  have fresh := empty.processAll processed
  obtain ⟨done, -, wait⟩ := Worker.settle_cache fresh round.2
  obtain ⟨reading, -⟩ := (Worker.Reading.between sane between).gets (getBatches_gets _) processed
  obtain ⟨opcode, allocated, waits, valid, hash⟩ :=
    reading.loads a (List.of_mem_zip member).1 ent load
  have unread : ∀ pair ∈ mid'.finishing round.2, (pair.1.given pair.2).success = true →
      .cacheRead ent ∉ pair.1.callbacks := by
    intro pair inRound success load'
    rcases mem_zip_pairwise reading.once member inRound with rfl | apart | apart
    · simp [Aio.given, Aio.success, opcode] at success
      omega
    · exact apart ent load load'
    · exact apart ent load' load
  exact {
    sane := sane'
    between := between'
    allocated := done.usedPage ▸ allocated
    waits := (wait ent unread).trans waits
    valid := done.valid ent valid
    hash := (done.hash ent).trans hash }

/-- Whatever a round of GETs preserves, a run preserves. -/
theorem getRun_invariant {Inv : Worker → Prop}
    (step : ∀ {w w' : Worker} {round : List Slice × Kernel} {effects : List Effect}, Inv w →
      w.getRound round = some (w', effects) → Inv w')
    {rounds : List (List Slice × Kernel)} {w w' : Worker} {outs : List (List Effect)} (start : Inv w)
    (ran : Run.run Worker.getRound w rounds = some (w', outs)) : Inv w' :=
  Run.invariant (fun _ _ _ _ kept (_ : True) taken => step kept taken) start
    (Run.Along.of_forall fun _ _ => trivial) ran

/-- **A failed page read is never contained.**  In every run of GETs, in any rounds and
under any kernels, in which the read of a page completes with 0 or an error code, the
entry of that read is still marked valid and waiting at the end of the run: it is never
evictable again. -/
theorem failed_read_never_contained {w v w' : Worker} {before after : List (List Slice × Kernel)}
    {round : List Slice × Kernel} {ent hash : Nat} {outs outs' : List (List Effect)}
    (sane : w.pagecache.Sane) (between : w.ioQueue = [])
    (reached : Run.run Worker.getRound w before = some (v, outs))
    (failed : FailedRead v round ent hash)
    (ran : Run.run Worker.getRound w (before ++ round :: after) = some (w', outs')) :
    ¬ ReadFailuresContained w (before ++ round :: after) := by
  intro contained
  obtain ⟨saneV, betweenV⟩ : v.pagecache.Sane ∧ v.ioQueue = [] :=
    getRun_invariant (fun kept step => sane_round kept.1 kept.2 step) ⟨sane, between⟩ reached
  obtain ⟨v', outsBefore, outsRest, same, rest, -⟩ := Run.run_append_eq_some.mp ran
  obtain ⟨rfl, -⟩ := Prod.mk.inj (Option.some.inj (reached.symm.trans same))
  obtain ⟨next, here, _, step, later, -⟩ := Run.run_cons_eq_some.mp rest
  have stuck : Stuck w' ent hash := getRun_invariant Stuck.getRound
    (stuck_of_failedRead saneV betweenV failed step) later
  have evictable := (contained.forgotten before round after v outs w' outs' ent hash rfl reached ran
    failed).2
  rw [stuck.waits] at evictable
  cases evictable

/-! ## One page, read once in vain -/

/-- A worker that has stored one key, whose page it has not cached. -/
theorem oneKey_stored : ∃ w outs,
    Run.run Worker.serve (Worker.new 0 "db" 2 fun _ => 0) [[.put [1] [2]]] = some (w, outs) := by
  have stored : (Run.run Worker.serve (Worker.new 0 "db" 2 fun _ => 0) [[.put [1] [2]]]).isSome := by
    decide +kernel
  obtain ⟨⟨w, outs⟩, served⟩ := Option.isSome_iff_exists.mp stored
  exact ⟨w, outs, served⟩

theorem failed_read_never_contained_example : ∃ w,
    ¬ ReadFailuresContained w [([[1]], .reporting fun _ => -5), ([[1]], .inOrder)] := by
  obtain ⟨w, outs, served⟩ := oneKey_stored
  obtain ⟨sane, between⟩ := sane_reached served
  have facts : ∀ out ∈ Run.run Worker.serve (Worker.new 0 "db" 2 fun _ => 0) [[.put [1] [2]]],
      (Run.run Worker.getRound out.1
        [([[1]], .reporting fun _ => -5), ([[1]], .inOrder)]).isSome ∧
      ∃ mid ∈ out.1.processAll (getBatches [[1]]),
        ∃ pair ∈ mid.1.finishing (.reporting fun _ => -5),
          (pair.1.callbacks.any fun | .cacheRead e => e == 0 | _ => false) = true ∧
          pageHash pair.1.fildes (pair.1.offset / pageSize) = pageHash 1 0 ∧
          pair.2.map IoEvent.res = some (-5) := by
    decide +kernel
  obtain ⟨runs, ⟨mid, early⟩, processed, ⟨a, handed⟩, member, load, hash, res⟩ := facts _ served
  obtain ⟨⟨w', outs'⟩, ran⟩ := Option.isSome_iff_exists.mp runs
  obtain ⟨event, rfl, res⟩ := Option.map_eq_some_iff.mp res
  obtain ⟨callback, inCallbacks, isLoad⟩ := List.any_eq_true.mp load
  have loads : .cacheRead 0 ∈ a.callbacks := by
    cases callback with
    | cacheRead e =>
        obtain rfl : e = 0 := by simpa using isLoad
        exact inCallbacks
    | _ => cases isLoad
  have failed : FailedRead w ([[1]], .reporting fun _ => -5) 0 (pageHash 1 0) :=
    ⟨mid, early, processed, a, event, member, loads, hash.symm, by omega⟩
  exact ⟨w, failed_read_never_contained sane between
    (show Run.run Worker.getRound w [] = some (w, []) from rfl) failed ran⟩

/-- The second GET is answered 0 although the page has never been read. -/
theorem failed_read_served :
    ¬ ∀ (stored : List (List Request)) (w : Worker) (outs : List (List Effect))
      (rounds : List (List Slice × Kernel)),
      Run.run Worker.serve (Worker.new 0 "db" 2 fun _ => 0) stored = some (w, outs) →
      ReadFailuresContained w rounds := by
  intro always
  obtain ⟨w, outs, served⟩ := oneKey_stored
  have contained := always _ w outs [([[1]], .reporting fun _ => -5), ([[1]], .inOrder)] served
  have facts : ∀ out ∈ Run.run Worker.serve (Worker.new 0 "db" 2 fun _ => 0) [[.put [1] [2]]],
      out.1.index[([1] : Slice)]? = some ⟨64, 1, 0⟩ ∧
      out.1.pagecache.index (pageHash 1 0) = none ∧
      (∀ mid ∈ out.1.processAll (getBatches [[1]]),
        (mid.1.finishing (.reporting fun _ => -5)).all fun pair =>
          (pair.2.map IoEvent.res).all fun res => decide (res ≤ 0)) ∧
      ∃ next ∈ out.1.getRound ([[1]], .reporting fun _ => -5),
        next.1.index[([1] : Slice)]? = some ⟨64, 1, 0⟩ ∧
        (∀ mid ∈ next.1.processAll (getBatches [[1]]),
          (mid.1.finishing .inOrder).all fun pair =>
            (pair.2.map IoEvent.res).all fun res => decide (res ≤ 0)) ∧
        ∃ last ∈ next.1.getRound ([[1]], .inOrder), (answerTo 0 last.2).map Prod.snd = some 0 := by
    decide +kernel
  obtain ⟨-, uncached, failed, ⟨next, early⟩, first, found, unread, ⟨last, effects⟩, second, answer⟩ :=
    facts _ served
  obtain ⟨⟨data, res⟩, answered, rfl⟩ := Option.map_eq_some_iff.mp answer
  have notRead : ∀ {v : Worker} {round : List Slice × Kernel} {file page : Nat},
      (∀ mid ∈ v.processAll (getBatches round.1), (mid.1.finishing round.2).all fun pair =>
        (pair.2.map IoEvent.res).all fun res => decide (res ≤ 0)) → ¬ ReadPage v round file page := by
    rintro v round file page bad ⟨mid, fx, processed, a, event, ent, member, -, -, -, positive⟩
    have all := List.all_eq_true.mp (bad _ processed) _ member
    simp at all
    omega
  have genuine := (((contained.genuine next early first).2 last effects second).1 0 [1] _ data rfl
    found (respond_of_answerTo answered))
  rcases genuine with (⟨ent, cached, -⟩ | read) | read
  · cases uncached.symm.trans cached
  · exact notRead failed read
  · exact notRead unread read

end KTableFS.Kvengine
