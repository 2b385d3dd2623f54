/-
# Kvengine.Outgrown -- an UPDATE writes to the slab its key was given

`Worker::ProcessRequest_` looks the key's slab up and writes the new item there,
whatever its size: the slab was chosen for the item of the PUT.  Nobody compares the
two sizes, so an item that has outgrown its slab runs over the ones behind it.

`Housed` is what holds of the index and the allocator after any requests, such ones
included: every stored key has a slab of its own.  From it,

* `update_own_iff`: an UPDATE changes its own item and no other's if and only if the new
  item fits the slab.
-/
import KTableFS.Kvengine.MapRefinement

namespace KTableFS.Kvengine

open KTableFS.Theory

set_option autoImplicit false

/-! ## Every stored key has a slab of its own -/

/-- The slabs of the stored keys are in use and different, counting the queued
requests. -/
structure Housed (w : Worker) : Prop where
  prepared : ∀ a ∈ w.ioQueue, a.Prepared
  alloc : AllocOk w.slab.slabs w.files
  housed : ∀ (key : Slice) (slab : SlabT), w.pendIndex[key]? = some slab →
    Issued w.slab.slabs slab ∧ ¬ Free w.slab.slabs slab
  distinct : ∀ (key key' : Slice) (slab : SlabT), w.pendIndex[key]? = some slab →
    w.pendIndex[key']? = some slab → key = key'

namespace Housed

theorem new (id : Nat) (workDir : String) (pages : Nat) (junk : Memory) :
    Housed (Worker.new id workDir pages junk) := by
  have sound := Sound.new id workDir pages junk
  refine ⟨sound.prepared, sound.alloc, fun key slab found => ?_, sound.distinct⟩
  obtain ⟨value, -, owns⟩ := sound.owner key slab found
  exact ⟨owns.issued, owns.live⟩

variable {w : Worker} (housed : Housed w)

include housed

theorem cache (c : PageCache) : Housed (w.setPagecache c) :=
  ⟨housed.prepared, housed.alloc, housed.housed, housed.distinct⟩

/-- A queued request that leaves the books alone. -/
theorem queue {a : Aio} {c : PageCache} (prepared : a.Prepared)
    (index : ∀ index, a.onIndex index = index) :
    Housed (w.queue { w.slab with fileSet := { w.slab.fileSet with pagecache := c } } a) := by
  have same : (w.queue { w.slab with fileSet := { w.slab.fileSet with pagecache := c } } a).pendIndex =
      w.pendIndex := (w.pendIndex_queue _ a).trans (index _)
  refine ⟨fun b member => ?_, housed.alloc, ?_, ?_⟩
  · rcases List.mem_append.mp member with old | new
    · exact housed.prepared b old
    · exact List.mem_singleton.mp new ▸ prepared
  · rw [same]
    exact housed.housed
  · rw [same]
    exact housed.distinct

/-- `Create` hands out a slab nobody has. -/
theorem put {id : Nat} {key value : Slice} {slab : SlabT} {slabs : List SingleFileSlab}
    {fs fs' : LocalFileSet} {a : Aio}
    (created : FileSlab.createIn (itemSize key value) w.slab.slabs w.slab.fileSet =
      some (slab, slabs, fs))
    (queued : fs.write slab.file (itemBytes key value) slab.off
      ((w.blankAio id).addCallback (.put key slab)) = some (a, fs')) :
    Housed (w.queue ⟨fs', slabs⟩ a) := by
  obtain ⟨has, hit, c, -, rfl, rfl⟩ := LocalFileSet.write_eq_some queued
  obtain ⟨alloc, issued, -, fresh, free, keeps⟩ :=
    createIn_spec housed.alloc created (createIn_narrow created housed.alloc.narrow has)
  have index := w.pendIndex_queue ⟨{ fs with pagecache := c }, slabs⟩
    (((w.blankAio id).addCallback (.put key slab)).toWrite slab.file (itemBytes key value) slab.off hit)
  rw [Worker.onIndex_toWrite] at index
  change _ = w.pendIndex.insertIfNew key slab at index
  have unowned : ∀ (other : Slice) (held : SlabT), w.pendIndex[other]? = some held → held ≠ slab := by
    rintro other held found rfl
    obtain ⟨known, live⟩ := housed.housed other held found
    exact fresh.elim live fun unissued => unissued known
  refine ⟨prepared_queue housed.prepared _ (Worker.toWrite_isWrite ..), alloc, ?_, ?_⟩
  · intro other held found
    rw [index, getElem?_insertIfNew] at found
    split at found
    · cases found
      exact ⟨issued, fun isFree => ((free _).mp isFree).2 rfl⟩
    · obtain ⟨known, live⟩ := housed.housed other held found
      exact ⟨keeps held known, fun isFree => live ((free _).mp isFree).1⟩
  · intro first second held inFirst inSecond
    rw [index, getElem?_insertIfNew] at inFirst inSecond
    split at inFirst <;> split at inSecond
    · exact (‹key = first ∧ _›.1).symm.trans ‹key = second ∧ _›.1
    · cases inFirst
      exact absurd rfl (unowned second _ inSecond)
    · cases inSecond
      exact absurd rfl (unowned first _ inFirst)
    · exact housed.distinct first second held inFirst inSecond

theorem delete {id : Nat} {key : Slice} {slab : SlabT} {slabs : List SingleFileSlab}
    {fs : LocalFileSet} {a : Aio} (found : w.pendIndex[key]? = some slab)
    (freed : FileSlab.freeIn slab w.slab.slabs = some slabs)
    (queued : w.slab.fileSet.write slab.file (storeLE 8 0) slab.off
      ((w.blankAio id).addCallback (.delete key)) = some (a, fs)) :
    Housed (w.queue ⟨fs, slabs⟩ a) := by
  obtain ⟨has, hit, c, -, rfl, rfl⟩ := LocalFileSet.write_eq_some queued
  obtain ⟨known, live⟩ := housed.housed key slab found
  obtain ⟨alloc, free, keeps⟩ := freeIn_spec housed.alloc known live freed
  have index := w.pendIndex_queue ⟨{ w.slab.fileSet with pagecache := c }, slabs⟩
    (((w.blankAio id).addCallback (.delete key)).toWrite slab.file (storeLE 8 0) slab.off hit)
  rw [Worker.onIndex_toWrite] at index
  change _ = w.pendIndex.erase key at index
  refine ⟨prepared_queue housed.prepared _ (Worker.toWrite_isWrite ..), alloc, ?_, ?_⟩
  · intro other held inOther
    rw [index, getElem?_erase] at inOther
    split at inOther
    · cases inOther
    · rename_i differ
      obtain ⟨known', live'⟩ := housed.housed other held inOther
      refine ⟨(keeps held).mp known', fun isFree => ?_⟩
      rcases (free held).mp isFree with old | rfl
      · exact live' old
      · exact differ (housed.distinct key other held found inOther)
  · intro first second held inFirst inSecond
    rw [index, getElem?_erase] at inFirst inSecond
    split at inFirst
    · cases inFirst
    · split at inSecond
      · cases inSecond
      · exact housed.distinct first second held inFirst inSecond

/-- Any request, taken when none is queued. -/
theorem processed {w' : Worker} {id : Nat} {req : Request} {effects : List Effect}
    (between : w.ioQueue = []) (processed : Processed w id req w' effects) : Housed w' := by
  have pending : w.pendIndex = w.index := by rw [Worker.pendIndex, between, List.foldl_nil]
  cases processed with
  | refused reason => exact housed
  | get found queued =>
      obtain ⟨-, hit, c, c', -, rfl, ⟨ent, -, -, rfl⟩ | ⟨ent, -, -, rfl⟩⟩ :=
        LocalFileSet.read_eq_some queued
      · exact housed.queue (Or.inl (Worker.toFake_isRead ..)) (Worker.onIndex_of_read (Worker.toFake_isRead ..))
      · exact housed.queue (Or.inl (Worker.toLoad_isRead ..)) (Worker.onIndex_of_read (Worker.toLoad_isRead ..))
  | put absent created queued => exact housed.put created queued
  | update found queued =>
      obtain ⟨-, hit, c, -, rfl, rfl⟩ := LocalFileSet.write_eq_some queued
      exact housed.queue (Or.inr (Worker.toWrite_isWrite ..)) (Worker.onIndex_toWrite _ _ _ _ _)
  | delete found freed queued => exact housed.delete (pending ▸ found) freed queued
  | scan scanned =>
      obtain ⟨c, rfl⟩ := scanLoop_frame scanned
      exact housed.cache c

theorem settled : Housed (w.settle .inOrder).1 ∧ (w.settle .inOrder).1.ioQueue = [] := by
  obtain ⟨-, slabs, fileSet, -, index, -, -, queue, -⟩ := w.settle_spec housed.prepared
  have pending : (w.settle .inOrder).1.pendIndex = w.pendIndex := by
    rw [Worker.pendIndex, queue, List.foldl_nil, index]
  refine ⟨⟨by simp [queue], ?_, ?_, ?_⟩, queue⟩
  · rw [slabs, Worker.files, fileSet]
    exact housed.alloc
  · rw [pending, slabs]
    exact housed.housed
  · rw [pending]
    exact housed.distinct

end Housed

theorem housed_of_run (id : Nat) (workDir : String) (pages : Nat) (junk : Memory)
    {reqs : List Request} {w : Worker} {outs : List (List Effect)}
    (ran : Run.run Worker.serveOne (Worker.new id workDir pages junk) reqs = some (w, outs)) :
    Housed w ∧ w.ioQueue = [] := by
  have preserved : ∀ (w : Worker) (req : Request) (w' : Worker) (effects : List Effect),
      Housed w ∧ w.ioQueue = [] → True → w.serveOne req = some (w', effects) →
        Housed w' ∧ w'.ioQueue = [] := by
    rintro w req w' effects ⟨housed, between⟩ - served
    obtain ⟨mid, early, processed, rfl, -⟩ := serveOne_eq_some served
    exact (housed.processed between processed).settled
  exact Run.invariant preserved ⟨.new id workDir pages junk, rfl⟩ (.of_forall fun _ _ => trivial) ran

/-! ## What an UPDATE does to the items -/

/-- The tag, the key and the value of the item on disk in a slab. -/
def Worker.itemIn (w : Worker) (slab : SlabT) : Nat × Slice × Slice :=
  decodeItem (cut (w.disk slab.file).byte slab.off slab.size)

/-- From `w` to `w'` an UPDATE of `key`, which has the slab `slab`, changes its own item
and no other's. -/
structure UpdatesOwn (w w' : Worker) (key : Slice) (slab : SlabT) (value : Slice)
    (effects : List Effect) : Prop where
  own : answerTo 0 effects = some (none, 0) → w'.itemIn slab = (validTag, key, value)
  others : ∀ (other : Slice) (held : SlabT), other ≠ key → w.index[other]? = some held →
    w'.index[other]? = some held ∧ w'.itemIn held = w.itemIn held

/-- What decodes to an item is no shorter than the item. -/
theorem itemSize_le_of_decodeItem {bytes key value : Slice} {tag : Nat} (room : 6 ≤ bytes.length)
    (decoded : decodeItem bytes = (tag, key, value)) : itemSize key value ≤ bytes.length := by
  simp only [decodeItem, Prod.mk.injEq] at decoded
  obtain ⟨-, isKey, isValue⟩ := decoded
  have keyLength := congrArg List.length isKey
  have valueLength := congrArg List.length isValue
  simp only [List.length_take, List.length_drop] at keyLength valueLength
  unfold itemSize
  omega

/-- An UPDATE of a stored key writes its item at the start of the slab and answers 0. -/
theorem serveOne_update {w w' : Worker} {key value : Slice} {slab : SlabT} {effects : List Effect}
    (between : w.ioQueue = []) (found : w.index[key]? = some slab)
    (served : w.serveOne (.update key value) = some (w', effects)) :
    w'.index = w.index ∧ effects = [.respond 0 none 0] ∧
      w'.disk = Function.update w.disk slab.file
        ((w.disk slab.file).pwrite (itemBytes key value) slab.off) := by
  obtain ⟨mid, early, processed, rfl, rfl⟩ := serveOne_eq_some served
  cases processed with
  | refused reason => simp [Worker.refusal, found] at reason
  | update found' queued =>
      rw [found] at found'
      cases found'
      obtain ⟨-, hit, c, -, rfl, rfl⟩ := LocalFileSet.write_eq_some queued
      let a := (w.blankAio 0).toWrite slab.file (itemBytes key value) slab.off hit
      let fs : FileSlab := { w.slab with fileSet := { w.slab.fileSet with pagecache := c } }
      have index := w.pendIndex_queue fs a
      have disk := w.pendDisk_queue fs rfl a
      rw [Worker.onIndex_toWrite] at index
      rw [Worker.performDisk_toWrite] at disk
      have prepared : ∀ b ∈ (w.queue fs a).ioQueue, b.Prepared := by
        intro b member
        rw [Worker.queue_ioQueue, between, List.nil_append, List.mem_singleton] at member
        exact member ▸ Or.inr (Worker.toWrite_isWrite ..)
      obtain ⟨-, -, -, disk', index', -, -, -, answers'⟩ := (w.queue fs a).settle_spec prepared
      refine ⟨?_, ?_, ?_⟩
      · rw [index', index, Worker.pendIndex, between]
        rfl
      · rw [answers', Worker.queue_ioQueue, between]
        rfl
      · rw [disk', disk, Worker.pendDisk, between]
        rfl

/-- **An UPDATE changes its own item and no other's exactly if the item fits the slab.**
For every state reached by rounds of one request, every stored key and every value. -/
theorem update_own_iff (id : Nat) (workDir : String) (pages : Nat) (junk : Memory)
    {reqs : List Request} {w w' : Worker} {outs : List (List Effect)} {key value : Slice} {slab : SlabT}
    {effects : List Effect}
    (ran : Run.run Worker.serveOne (Worker.new id workDir pages junk) reqs = some (w, outs))
    (found : w.index[key]? = some slab)
    (served : w.serveOne (.update key value) = some (w', effects)) :
    UpdatesOwn w w' key slab value effects ↔ itemSize key value ≤ slab.size := by
  obtain ⟨housed, between⟩ := housed_of_run id workDir pages junk ran
  have pending : w.pendIndex = w.index := by rw [Worker.pendIndex, between, List.foldl_nil]
  obtain ⟨index, rfl, disk⟩ := serveOne_update between found served
  obtain ⟨issued, -⟩ := housed.housed key slab (pending ▸ found)
  have bounds := issued.bounds housed.alloc
  constructor
  · intro updates
    have decoded := updates.own rfl
    have room : 6 ≤ (cut (w'.disk slab.file).byte slab.off slab.size).length := by
      rw [length_cut]
      omega
    simpa using itemSize_le_of_decodeItem room decoded
  · intro fits
    have narrow := narrow_of_itemSize fits bounds.2.1
    refine ⟨fun _ => ?_, fun other held differ inOther => ⟨index ▸ inOther, ?_⟩⟩
    · rw [Worker.itemIn, disk, Function.update_self]
      exact decodeItem_of_itemAt (itemAt_blit _ _ narrow) fits
    · obtain ⟨issued', -⟩ := housed.housed other held (pending ▸ inOther)
      have apart : held ≠ slab := by
        rintro rfl
        exact differ (housed.distinct other key held (pending ▸ inOther) (pending ▸ found))
      rw [Worker.itemIn, Worker.itemIn, disk]
      congr 1
      apply cut_congr
      intro i inside
      by_cases sameFile : held.file = slab.file
      · rw [sameFile, Function.update_self, ByteFile.pwrite_byte, blit_outside]
        rw [length_itemBytes narrow]
        have := issued_apart housed.alloc issued' issued apart sameFile
        omega
      · rw [Function.update_of_ne sameFile]

/-- Two keys in neighbouring slabs of 64 bytes, and an UPDATE of the first that just
fits. -/
theorem update_own_iff_example :
    ∃ (w w' : Worker) (outs : List (List Effect)) (slab : SlabT) (effects : List Effect),
      Run.run Worker.serveOne (Worker.new 0 "db" 4 fun _ => 0) [.put [1] [2], .put [3] [4]] =
        some (w, outs) ∧ w.index[([1] : Slice)]? = some slab ∧
      w.serveOne (.update [1] (List.replicate 57 7)) = some (w', effects) ∧
      UpdatesOwn w w' [1] slab (List.replicate 57 7) effects := by
  have runs : ∃ out ∈ Run.run Worker.serveOne (Worker.new 0 "db" 4 fun _ => 0)
      [.put [1] [2], .put [3] [4]], out.1.index[([1] : Slice)]? = some ⟨64, 1, 0⟩ ∧
        (out.1.serveOne (.update [1] (List.replicate 57 7))).isSome := by
    decide +kernel
  obtain ⟨⟨w, outs⟩, ran, found, some'⟩ := runs
  obtain ⟨⟨w', effects⟩, served⟩ := Option.isSome_iff_exists.mp some'
  exact ⟨w, w', outs, _, effects, ran, found, served,
    (update_own_iff 0 "db" 4 (fun _ => 0) ran found served).mpr (by decide)⟩

/-- One byte more, and the UPDATE of the first key writes over the second one's tag. -/
theorem update_overruns :
    ¬ ∀ (reqs : List Request) (w w' : Worker) (outs : List (List Effect)) (key value : Slice)
      (slab : SlabT) (effects : List Effect),
      Run.run Worker.serveOne (Worker.new 0 "db" 4 fun _ => 0) reqs = some (w, outs) →
      w.index[key]? = some slab → w.serveOne (.update key value) = some (w', effects) →
      UpdatesOwn w w' key slab value effects := by
  intro always
  have runs : ∃ out ∈ Run.run Worker.serveOne (Worker.new 0 "db" 4 fun _ => 0)
      [.put [1] [2], .put [3] [4]], out.1.index[([1] : Slice)]? = some ⟨64, 1, 0⟩ ∧
        out.1.index[([3] : Slice)]? = some ⟨64, 1, 1⟩ ∧
        out.1.itemIn ⟨64, 1, 1⟩ = (validTag, [3], [4]) ∧
        ∃ out' ∈ out.1.serveOne (.update [1] (List.replicate 58 7)),
          out'.1.itemIn ⟨64, 1, 1⟩ ≠ (validTag, [3], [4]) := by
    decide +kernel
  obtain ⟨⟨w, outs⟩, ran, found, neighbour, before, ⟨w', effects⟩, served, after⟩ := runs
  have updates := always _ w w' outs _ _ _ effects ran found served
  exact after ((updates.others [3] _ (by decide) neighbour).2.trans before)

end KTableFS.Kvengine
