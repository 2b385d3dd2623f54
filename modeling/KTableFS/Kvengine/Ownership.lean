/-
# Kvengine.Ownership -- every stored key owns its slab

`Sound w m` is the invariant of a worker in the middle of a round, about what the
round will leave behind: the slab allocator is consistent, distinct keys of the
pending index have distinct slabs, none of them free, and the pending bytes of a
key's slab are an item of that key with the value `m` gives it.  `m` is a ghost,
the contents the clients will find; `Worker.expect` is how one request changes it.

The index changes only when a round settles, the allocator when a request is
processed.  So an UPDATE or DELETE may find a key that a queued DELETE is about to
remove, whose slab is already free, or already another key's.  `SlabSafe` is the
condition that this does not happen; `Sound.processed` is the step lemma under it.
The page cache plays no part here.
-/
import KTableFS.Kvengine.Item
import KTableFS.Kvengine.SlabAlloc
import KTableFS.Kvengine.Rounds

namespace KTableFS.Kvengine

open KTableFS.Theory

set_option autoImplicit false

/-! ## Queued changes to the index -/

/-- A completed request removes `key` from the index. -/
def Aio.deletes (a : Aio) (key : Slice) : Bool :=
  a.callbacks.any fun
    | .delete k => k == key
    | _ => false

/-- A completed request adds `key` to the index, if it is not there. -/
def Aio.puts (a : Aio) (key : Slice) : Bool :=
  a.callbacks.any fun
    | .put k _ => k == key
    | _ => false

/-- A DELETE of `key` is queued. -/
def Worker.deleting (w : Worker) (key : Slice) : Bool := w.ioQueue.any (·.deletes key)

/-- A PUT of `key` is queued. -/
def Worker.putting (w : Worker) (key : Slice) : Bool := w.ioQueue.any (·.puts key)

theorem getElem?_insertIfNew (index : Std.TreeMap Slice SlabT) (key other : Slice) (slab : SlabT) :
    (index.insertIfNew key slab)[other]? =
      if key = other ∧ index[key]? = none then some slab else index[other]? := by
  rw [Std.TreeMap.getElem?_insertIfNew]
  simp

theorem getElem?_erase (index : Std.TreeMap Slice SlabT) (key other : Slice) :
    (index.erase key)[other]? = if key = other then none else index[other]? := by
  rw [Std.TreeMap.getElem?_erase]
  simp

/-- What every queued callback preserves holds of the pending index. -/
theorem Worker.pendIndex_invariant {w : Worker} {P : Std.TreeMap Slice SlabT → Prop}
    (start : P w.index)
    (step : ∀ a ∈ w.ioQueue, ∀ c ∈ a.callbacks, ∀ index, P index → P (c.onIndex index)) :
    P w.pendIndex := by
  refine List.foldlRecOn w.ioQueue Aio.onIndex start fun index holds a inQueue => ?_
  exact List.foldlRecOn a.callbacks Callback.onIndex holds fun index holds c member =>
    step a inQueue c member index holds

/-- A key stays where it is unless a DELETE of it is queued. -/
theorem Worker.pendIndex_of_some {w : Worker} {key : Slice} {slab : SlabT}
    (found : w.index[key]? = some slab) (kept : w.deleting key = false) :
    w.pendIndex[key]? = some slab := by
  refine Worker.pendIndex_invariant (P := fun index => index[key]? = some slab) found ?_
  intro a inQueue c member index found
  cases c with
  | put k s =>
      have occupied : ¬ (k = key ∧ index[k]? = none) := by
        rintro ⟨rfl, absent⟩
        rw [found] at absent
        cases absent
      rw [Callback.onIndex, getElem?_insertIfNew, if_neg occupied, found]
  | delete k =>
      have other : k ≠ key := by
        have idle : a.deletes key = false := by simpa using List.any_eq_false.mp kept a inQueue
        simpa using List.any_eq_false.mp idle _ member
      rw [Callback.onIndex, getElem?_erase, if_neg other, found]
  | fileSlabRead => exact found
  | cacheWrite ent data off => exact found
  | cacheRead ent => exact found

/-- An absent key stays absent unless a PUT of it is queued. -/
theorem Worker.pendIndex_of_none {w : Worker} {key : Slice} (absent : w.index[key]? = none)
    (kept : w.putting key = false) : w.pendIndex[key]? = none := by
  refine Worker.pendIndex_invariant (P := fun index => index[key]? = none) absent ?_
  intro a inQueue c member index absent
  cases c with
  | put k s =>
      have other : k ≠ key := by
        have idle : a.puts key = false := by simpa using List.any_eq_false.mp kept a inQueue
        simpa using List.any_eq_false.mp idle _ member
      rw [Callback.onIndex, getElem?_insertIfNew, if_neg fun both => other both.1, absent]
  | delete k => rw [Callback.onIndex, getElem?_erase, absent, ite_self]
  | fileSlabRead => exact absent
  | cacheWrite ent data off => exact absent
  | cacheRead ent => exact absent

/-! ## The invariant -/

/-- The values the keys of a worker will have when its round has settled. -/
abbrev Contents := Slice → Option Slice

/-- `key` holds `slab`, which stores `value` for it. -/
structure Worker.Owns (w : Worker) (key : Slice) (slab : SlabT) (value : Slice) : Prop where
  issued : Issued w.slab.slabs slab
  live : ¬ Free w.slab.slabs slab
  fits : itemSize key value ≤ slab.size
  item : ItemAt (w.pendDisk slab.file).byte slab.off key value

abbrev Worker.files (w : Worker) : Nat := w.slab.fileSet.fileSet.length

structure Sound (w : Worker) (m : Contents) : Prop where
  prepared : ∀ a ∈ w.ioQueue, a.Prepared
  alloc : AllocOk w.slab.slabs w.files
  blank : ∀ f, w.files < f → w.disk f = .empty
  blankPending : ∀ f, w.files < f → w.pendDisk f = .empty
  absent : ∀ key, w.pendIndex[key]? = none → m key = none
  owner : ∀ key slab, w.pendIndex[key]? = some slab → ∃ value, m key = some value ∧
    w.Owns key slab value
  distinct : ∀ (key key' : Slice) (slab : SlabT), w.pendIndex[key]? = some slab → w.pendIndex[key']? = some slab →
    key = key'

/-- The item of a PUT fits the largest slab class, that of an UPDATE its key's slab. -/
def Worker.Fits (w : Worker) : Request → Prop
  | .put key value => itemSize key value ≤ 1024
  | .update key value => ∀ slab ∈ w.index[key]?, itemSize key value ≤ slab.size
  | _ => True

/-- No DELETE finds a key whose DELETE is queued, and no UPDATE finds one whose slab
has been handed out again since. -/
def Worker.SlabSafe (w : Worker) : Request → Prop
  | .update key _ => ∀ slab ∈ w.index[key]?, w.deleting key = true → Free w.slab.slabs slab
  | .delete key => w.index[key]?.isSome → w.deleting key = false
  | _ => True

instance (slabs : List SingleFileSlab) (slab : SlabT) : Decidable (Free slabs slab) :=
  inferInstanceAs (Decidable (∃ c ∈ slabs, slab ∈ c.freeSlab))

instance (w : Worker) : (req : Request) → Decidable (w.Fits req)
  | .get _ => .isTrue trivial
  | .put key value => inferInstanceAs (Decidable (itemSize key value ≤ 1024))
  | .update key value =>
      inferInstanceAs (Decidable (∀ slab ∈ w.index[key]?, itemSize key value ≤ slab.size))
  | .delete _ => .isTrue trivial
  | .scan .. => .isTrue trivial

instance (w : Worker) : (req : Request) → Decidable (w.SlabSafe req)
  | .get _ => .isTrue trivial
  | .put .. => .isTrue trivial
  | .update key _ => inferInstanceAs (Decidable (∀ slab ∈ w.index[key]?, _ → _))
  | .delete key => inferInstanceAs (Decidable (w.index[key]?.isSome → w.deleting key = false))
  | .scan .. => .isTrue trivial

/-- The contents after one request. -/
def Worker.expect (w : Worker) (m : Contents) : Request → Contents
  | .put key value =>
      if w.index[key]?.isSome then m else Function.update m key (some ((m key).getD value))
  | .update key value =>
      if w.index[key]?.isSome ∧ w.deleting key = false then Function.update m key (some value)
      else m
  | .delete key => if w.index[key]?.isSome then Function.update m key none else m
  | _ => m

/-! ## Requests that only read -/

/-- A scan changes the page cache only. -/
theorem scanLoop_frame {callback : ScanCallback} : ∀ {entries : List (Slice × SlabT)}
    {fs fs' : FileSlab} {batch batch' : Batch} {effects : List Effect},
    Worker.scanLoop callback entries fs batch = some (fs', batch', effects) →
      ∃ c, fs' = { fs with fileSet := { fs.fileSet with pagecache := c } }
  | [], fs, _, _, _, _, scanned => by
      simp only [Worker.scanLoop, Option.some.injEq, Prod.mk.injEq] at scanned
      exact ⟨fs.fileSet.pagecache, scanned.1.symm⟩
  | entry :: rest, fs, fs', _, _, _, scanned => by
      unfold Worker.scanLoop at scanned
      split at scanned
      · cases scanned
      · rename_i pair mid read
        simp only [FileSlab.readSync, Option.map_eq_some_iff, Prod.mk.injEq] at read scanned
        obtain ⟨⟨bytes, files⟩, loaded, -, rfl⟩ := read
        obtain ⟨-, -, -, c, -, -, rfl, -⟩ := LocalFileSet.readSync_eq_some loaded
        obtain ⟨⟨last, _, _⟩, later, rfl, -, -⟩ := scanned
        obtain ⟨c', shape⟩ := scanLoop_frame later
        exact ⟨c', shape⟩

/-- The invariant does not read the page cache. -/
theorem Sound.cache {w : Worker} {m : Contents} (sound : Sound w m) (c : PageCache) :
    Sound (w.setPagecache c) m :=
  ⟨sound.prepared, sound.alloc, sound.blank, sound.blankPending, sound.absent,
    fun key slab found =>
      have ⟨value, here, owns⟩ := sound.owner key slab found
      ⟨value, here, owns.issued, owns.live, owns.fits, owns.item⟩,
    sound.distinct⟩

theorem performDisk_of_read {a : Aio} (isRead : a.IsRead) (disk : Disk) :
    a.performDisk disk = disk := by
  simp [Aio.performDisk, isRead.opcode]

theorem Sound.read {w : Worker} {m : Contents} (sound : Sound w m) {a : Aio} (isRead : a.IsRead)
    (c : PageCache) :
    Sound (w.queue { w.slab with fileSet := { w.slab.fileSet with pagecache := c } } a) m := by
  have index := w.pendIndex_queue { w.slab with fileSet := { w.slab.fileSet with pagecache := c } } a
  have disk := w.pendDisk_queue { w.slab with fileSet := { w.slab.fileSet with pagecache := c } } rfl a
  rw [Worker.onIndex_of_read isRead] at index
  rw [performDisk_of_read isRead] at disk
  refine ⟨?_, sound.alloc, sound.blank, ?_, ?_, ?_, ?_⟩
  · intro b member
    rcases List.mem_append.mp member with old | new
    · exact sound.prepared b old
    · exact List.mem_singleton.mp new ▸ Or.inl isRead
  · rw [disk]
    exact sound.blankPending
  · rw [index]
    exact sound.absent
  · rw [index]
    intro key slab found
    obtain ⟨value, here, owns⟩ := sound.owner key slab found
    exact ⟨value, here, owns.issued, owns.live, owns.fits, by rw [disk]; exact owns.item⟩
  · rw [index]
    exact sound.distinct

/-! ## Requests that write -/

/-- A write to one slab leaves the items in the others alone. -/
theorem item_kept {slabs : List SingleFileSlab} {files : Nat} (ok : AllocOk slabs files)
    {slab other : SlabT} (issued : Issued slabs slab) (issuedOther : Issued slabs other)
    (differ : other ≠ slab) {data : Slice} (within : data.length ≤ slab.size) {disk : Disk}
    {key value : Slice} (fits : itemSize key value ≤ other.size)
    (item : ItemAt (disk other.file).byte other.off key value) :
    ItemAt (Function.update disk slab.file ((disk slab.file).pwrite data slab.off) other.file).byte
      other.off key value := by
  rw [Function.update_apply]
  split
  · rename_i sameFile
    rw [sameFile] at item
    apply item.congr
    intro i inside
    rw [ByteFile.pwrite_byte]
    apply blit_outside
    have apart := issued_apart ok issuedOther issued differ sameFile
    omega
  · exact item

/-- What one write of the queue adds: `slab` gets new bytes, everyone else keeps
slab and item. -/
theorem Worker.Owns.kept {w w' : Worker} {slab other : SlabT} {data key value : Slice}
    (owns : w.Owns key other value) (ok : AllocOk w'.slab.slabs w'.files)
    (issued : Issued w'.slab.slabs slab) (issuedOther : Issued w'.slab.slabs other)
    (live : ¬ Free w'.slab.slabs other) (differ : other ≠ slab) (within : data.length ≤ slab.size)
    (disk : w'.pendDisk =
      Function.update w.pendDisk slab.file ((w.pendDisk slab.file).pwrite data slab.off)) :
    w'.Owns key other value :=
  ⟨issuedOther, live, owns.fits, by
    rw [disk]
    exact item_kept ok issued issuedOther differ within owns.fits owns.item⟩

theorem blank_update {disk : Disk} {files file : Nat} (blank : ∀ f, files < f → disk f = .empty)
    (has : file ≤ files) (content : ByteFile) :
    ∀ f, files < f → Function.update disk file content f = .empty := by
  intro f past
  rw [Function.update_of_ne (by omega)]
  exact blank f past

theorem prepared_queue {w : Worker} (prepared : ∀ a ∈ w.ioQueue, a.Prepared) (fs : FileSlab)
    {a : Aio} (isWrite : a.IsWrite) : ∀ b ∈ (w.queue fs a).ioQueue, b.Prepared := by
  intro b member
  rcases List.mem_append.mp member with old | new
  · exact prepared b old
  · exact List.mem_singleton.mp new ▸ Or.inr isWrite

/-- The files a successful PUT leaves can be told apart by 16 bits. -/
theorem createIn_narrow {size : Nat} {slabs slabs' : List SingleFileSlab} {fs fs' : LocalFileSet}
    {s : SlabT} (created : FileSlab.createIn size slabs fs = some (s, slabs', fs'))
    (narrow : fs.fileSet.length < 2 ^ 16) (has : fs'.HasFile s.file) :
    fs'.fileSet.length < 2 ^ 16 := by
  obtain ⟨before, c, after, c', -, -, -, served⟩ := createIn_split created
  rcases served with ⟨free, -, -, rfl⟩ | ⟨-, rfl, rfl, rfl⟩
  · exact narrow
  · unfold SingleFileSlab.bump at has ⊢
    split
    · rename_i full
      rw [if_pos full] at has
      have file : 1 ≤ (fs.fileSet.length + 1) % 2 ^ 16 := has.1
      simp only [LocalFileSet.create, List.length_append, List.length_singleton]
      rcases Nat.lt_or_ge (fs.fileSet.length + 1) (2 ^ 16) with lt | ge
      · exact lt
      · have wrapped : fs.fileSet.length + 1 = 2 ^ 16 := by omega
        rw [wrapped] at file
        simp at file
    · exact narrow

theorem Sound.put {w : Worker} {m : Contents} (sound : Sound w m) {id : Nat} {key value : Slice}
    {slab : SlabT} {slabs : List SingleFileSlab} {fs fs' : LocalFileSet} {a : Aio}
    (created : FileSlab.createIn (itemSize key value) w.slab.slabs w.slab.fileSet =
      some (slab, slabs, fs))
    (queued : fs.write slab.file (itemBytes key value) slab.off
      ((w.blankAio id).addCallback (.put key slab)) = some (a, fs')) :
    Sound (w.queue ⟨fs', slabs⟩ a) (Function.update m key (some ((m key).getD value))) := by
  obtain ⟨has, hit, c, -, rfl, rfl⟩ := LocalFileSet.write_eq_some queued
  obtain ⟨sameDisk, more⟩ := createIn_disk sound.blank created
  obtain ⟨alloc, issued, fits, fresh, free, keeps⟩ :=
    createIn_spec sound.alloc created (createIn_narrow created sound.alloc.narrow has)
  have narrow := narrow_of_itemSize fits (issued.bounds alloc).2.1
  have within : (itemBytes key value).length ≤ slab.size := by
    rw [length_itemBytes narrow]
    exact fits
  have index := w.pendIndex_queue ⟨{ fs with pagecache := c }, slabs⟩
    (((w.blankAio id).addCallback (.put key slab)).toWrite slab.file (itemBytes key value) slab.off hit)
  have disk := w.pendDisk_queue ⟨{ fs with pagecache := c }, slabs⟩ sameDisk
    (((w.blankAio id).addCallback (.put key slab)).toWrite slab.file (itemBytes key value) slab.off hit)
  rw [Worker.onIndex_toWrite] at index
  rw [Worker.performDisk_toWrite] at disk
  change _ = w.pendIndex.insertIfNew key slab at index
  -- nobody holds the slab `Create` hands out
  have unowned : ∀ (other : Slice) (held : SlabT), w.pendIndex[other]? = some held → held ≠ slab := by
    rintro other held found rfl
    obtain ⟨_, -, owns⟩ := sound.owner other held found
    exact fresh.elim owns.live fun unissued => unissued owns.issued
  refine ⟨prepared_queue sound.prepared _ (Worker.toWrite_isWrite ..), alloc, ?_, ?_, ?_, ?_, ?_⟩
  · intro f past
    exact (congrFun sameDisk f).trans (sound.blank f (lt_of_le_of_lt more past))
  · rw [disk]
    exact blank_update (fun f past => sound.blankPending f (lt_of_le_of_lt more past)) has.2 _
  · intro other absent
    rw [index, getElem?_insertIfNew] at absent
    split at absent
    · cases absent
    · rename_i notNew
      have differ : other ≠ key := by
        rintro rfl
        exact notNew ⟨rfl, absent⟩
      rw [Function.update_of_ne differ]
      exact sound.absent other absent
  · intro other held found
    rw [index, getElem?_insertIfNew] at found
    split at found
    · rename_i new
      obtain ⟨rfl, absent⟩ := new
      cases found
      refine ⟨value, by simp [sound.absent key absent], issued, ?_, fits, ?_⟩
      · exact fun isFree => ((free _).mp isFree).2 rfl
      · rw [disk, Function.update_self]
        exact itemAt_blit _ _ narrow
    · obtain ⟨old, here, owns⟩ := sound.owner other held found
      refine ⟨old, ?_, owns.kept alloc issued (keeps held owns.issued) ?_ (unowned other held found)
        within disk⟩
      · by_cases same : other = key
        · subst same
          simp [here]
        · rw [Function.update_of_ne same, here]
      · exact fun isFree => owns.live ((free _).mp isFree).1
  · intro first second held inFirst inSecond
    rw [index, getElem?_insertIfNew] at inFirst inSecond
    split at inFirst <;> split at inSecond
    · exact (‹key = first ∧ _›.1).symm.trans ‹key = second ∧ _›.1
    · cases inFirst
      exact absurd rfl (unowned second _ inSecond)
    · cases inSecond
      exact absurd rfl (unowned first _ inFirst)
    · exact sound.distinct first second held inFirst inSecond

/-- The slab of a key of the index is the key's, or has been freed by a queued DELETE. -/
theorem Sound.issued_of_found {w : Worker} {m : Contents} (sound : Sound w m) {key : Slice}
    {slab : SlabT} (found : w.index[key]? = some slab)
    (safe : w.deleting key = true → Free w.slab.slabs slab) : Issued w.slab.slabs slab := by
  by_cases kept : w.deleting key = false
  · obtain ⟨_, -, owns⟩ := sound.owner key slab (Worker.pendIndex_of_some found kept)
    exact owns.issued
  · obtain ⟨c, member, inFree⟩ := safe (by simpa using kept)
    exact ⟨c, member, (sound.alloc.each c member).free slab inFree⟩

theorem Sound.update {w : Worker} {m : Contents} (sound : Sound w m) {id : Nat} {key value : Slice}
    {slab : SlabT} {fs : LocalFileSet} {a : Aio} (found : w.index[key]? = some slab)
    (fits : itemSize key value ≤ slab.size)
    (safe : w.deleting key = true → Free w.slab.slabs slab)
    (queued : w.slab.fileSet.write slab.file (itemBytes key value) slab.off (w.blankAio id) =
      some (a, fs)) :
    Sound (w.queue { w.slab with fileSet := fs } a)
      (if w.deleting key = false then Function.update m key (some value) else m) := by
  obtain ⟨has, hit, c, -, rfl, rfl⟩ := LocalFileSet.write_eq_some queued
  have index := w.pendIndex_queue { w.slab with fileSet := { w.slab.fileSet with pagecache := c } }
    ((w.blankAio id).toWrite slab.file (itemBytes key value) slab.off hit)
  have disk := w.pendDisk_queue { w.slab with fileSet := { w.slab.fileSet with pagecache := c } } rfl
    ((w.blankAio id).toWrite slab.file (itemBytes key value) slab.off hit)
  rw [Worker.onIndex_toWrite] at index
  rw [Worker.performDisk_toWrite] at disk
  change _ = w.pendIndex at index
  have issued := sound.issued_of_found found safe
  have narrow := narrow_of_itemSize fits (issued.bounds sound.alloc).2.1
  have within : (itemBytes key value).length ≤ slab.size := by
    rw [length_itemBytes narrow]
    exact fits
  refine ⟨prepared_queue sound.prepared _ (Worker.toWrite_isWrite ..), sound.alloc, sound.blank, ?_,
    ?_, ?_, ?_⟩
  · rw [disk]
    exact blank_update sound.blankPending has.2 _
  · rw [index]
    intro other absent
    split
    · rename_i kept
      have differ : other ≠ key := by
        rintro rfl
        rw [Worker.pendIndex_of_some found kept] at absent
        cases absent
      rw [Function.update_of_ne differ]
      exact sound.absent other absent
    · exact sound.absent other absent
  · rw [index]
    intro other held inOther
    obtain ⟨old, here, owns⟩ := sound.owner other held inOther
    by_cases kept : w.deleting key = false
    · rw [if_pos kept]
      by_cases same : other = key
      · subst same
        rw [Worker.pendIndex_of_some found kept] at inOther
        cases inOther
        refine ⟨value, by simp, owns.issued, owns.live, fits, ?_⟩
        rw [disk, Function.update_self]
        exact itemAt_blit _ _ narrow
      · have differ : held ≠ slab := by
          rintro rfl
          exact same (sound.distinct other key held inOther (Worker.pendIndex_of_some found kept))
        exact ⟨old, by rw [Function.update_of_ne same, here],
          owns.kept sound.alloc issued owns.issued owns.live differ within disk⟩
    · rw [if_neg kept]
      have differ : held ≠ slab := by
        rintro rfl
        exact owns.live (safe (by simpa using kept))
      exact ⟨old, here, owns.kept sound.alloc issued owns.issued owns.live differ within disk⟩
  · rw [index]
    exact sound.distinct

theorem Sound.delete {w : Worker} {m : Contents} (sound : Sound w m) {id : Nat} {key : Slice}
    {slab : SlabT} {slabs : List SingleFileSlab} {fs : LocalFileSet} {a : Aio}
    (found : w.index[key]? = some slab) (safe : w.deleting key = false)
    (freed : FileSlab.freeIn slab w.slab.slabs = some slabs)
    (queued : w.slab.fileSet.write slab.file (storeLE 8 0) slab.off
      ((w.blankAio id).addCallback (.delete key)) = some (a, fs)) :
    Sound (w.queue ⟨fs, slabs⟩ a) (Function.update m key none) := by
  obtain ⟨has, hit, c, -, rfl, rfl⟩ := LocalFileSet.write_eq_some queued
  have pending := Worker.pendIndex_of_some found safe
  obtain ⟨_, -, mine⟩ := sound.owner key slab pending
  obtain ⟨alloc, free, issuedIff⟩ := freeIn_spec sound.alloc mine.issued mine.live freed
  have within : (storeLE 8 0).length ≤ slab.size := by
    rw [length_storeLE]
    exact (mine.issued.bounds sound.alloc).1
  have index := w.pendIndex_queue ⟨{ w.slab.fileSet with pagecache := c }, slabs⟩
    (((w.blankAio id).addCallback (.delete key)).toWrite slab.file (storeLE 8 0) slab.off hit)
  have disk := w.pendDisk_queue ⟨{ w.slab.fileSet with pagecache := c }, slabs⟩ rfl
    (((w.blankAio id).addCallback (.delete key)).toWrite slab.file (storeLE 8 0) slab.off hit)
  rw [Worker.onIndex_toWrite] at index
  rw [Worker.performDisk_toWrite] at disk
  change _ = w.pendIndex.erase key at index
  refine ⟨prepared_queue sound.prepared _ (Worker.toWrite_isWrite ..), alloc, sound.blank, ?_, ?_, ?_, ?_⟩
  · rw [disk]
    exact blank_update sound.blankPending has.2 _
  · intro other absent
    rw [index, getElem?_erase] at absent
    by_cases same : other = key
    · rw [same, Function.update_self]
    · rw [if_neg (Ne.symm same)] at absent
      rw [Function.update_of_ne same]
      exact sound.absent other absent
  · intro other held inOther
    rw [index, getElem?_erase] at inOther
    split at inOther
    · cases inOther
    · rename_i same
      obtain ⟨old, here, owns⟩ := sound.owner other held inOther
      have differ : held ≠ slab := by
        rintro rfl
        exact same (sound.distinct key other held pending inOther)
      refine ⟨old, by rw [Function.update_of_ne (Ne.symm same), here],
        owns.kept alloc ((issuedIff slab).mp mine.issued) ((issuedIff held).mp owns.issued) ?_ differ
          within disk⟩
      exact fun isFree => ((free held).mp isFree).elim owns.live differ
  · intro first second held inFirst inSecond
    rw [index, getElem?_erase] at inFirst inSecond
    split at inFirst
    · cases inFirst
    · split at inSecond
      · cases inSecond
      · exact sound.distinct first second held inFirst inSecond

theorem Worker.expect_of_refused {w : Worker} {m : Contents} {req : Request} {res : Int}
    (reason : w.refusal req = some res) : w.expect m req = m := by
  cases req <;> simp only [Worker.refusal, Worker.expect] at reason ⊢ <;> split at reason <;> simp_all

/-- **One request keeps the invariant.** -/
theorem Sound.processed {w w' : Worker} {m : Contents} {id : Nat} {req : Request}
    {effects : List Effect} (sound : Sound w m) (fits : w.Fits req) (safe : w.SlabSafe req)
    (processed : Processed w id req w' effects) : Sound w' (w.expect m req) := by
  cases processed with
  | refused reason =>
      rw [Worker.expect_of_refused reason]
      exact sound
  | get found queued =>
      obtain ⟨-, hit, c, c', -, rfl, ⟨ent, -, -, rfl⟩ | ⟨ent, -, -, rfl⟩⟩ :=
        LocalFileSet.read_eq_some queued
      · exact sound.read (Worker.toFake_isRead ..) c'
      · exact sound.read (Worker.toLoad_isRead ..) c'
  | put absent created queued =>
      simp only [Worker.expect, absent, Option.isSome_none, Bool.false_eq_true, if_false]
      exact sound.put created queued
  | update found queued =>
      have stepped := sound.update found (fits _ found) (safe _ found) queued
      simp only [Worker.expect, found, Option.isSome_some, true_and]
      exact stepped
  | delete found freed queued =>
      simp only [Worker.expect, found, Option.isSome_some, if_true]
      exact sound.delete found (safe (by simp [found])) freed queued
  | scan scanned =>
      obtain ⟨c, rfl⟩ := scanLoop_frame scanned
      exact sound.cache c

/-- The end of the round keeps it: what was pending has happened. -/
theorem Sound.settled {w : Worker} {m : Contents} (sound : Sound w m) :
    Sound (w.settle .inOrder).1 m := by
  obtain ⟨-, slabs, files, disk, index, -, -, queue, -⟩ := w.settle_spec sound.prepared
  have disk' : (w.settle .inOrder).1.pendDisk = w.pendDisk := by
    rw [Worker.pendDisk, queue, List.foldl_nil, disk]
  have index' : (w.settle .inOrder).1.pendIndex = w.pendIndex := by
    rw [Worker.pendIndex, queue, List.foldl_nil, index]
  have files' : (w.settle .inOrder).1.files = w.files := by rw [Worker.files, files]
  refine ⟨by simp [queue], by rw [slabs, files']; exact sound.alloc, ?_, ?_, ?_, ?_, ?_⟩
  · rw [files', disk]
    exact sound.blankPending
  · rw [files', disk']
    exact sound.blankPending
  · rw [index']
    exact sound.absent
  · rw [index']
    intro key slab found
    obtain ⟨value, here, owns⟩ := sound.owner key slab found
    exact ⟨value, here, by rw [slabs]; exact owns.issued, by rw [slabs]; exact owns.live, owns.fits,
      by rw [disk']; exact owns.item⟩
  · rw [index']
    exact sound.distinct

/-! ## Runs -/

theorem Sound.new (id : Nat) (workDir : String) (pages : Nat) (junk : Memory) :
    Sound (Worker.new id workDir pages junk) fun _ => none := by
  refine ⟨by simp [Worker.new], new_allocOk, fun _ _ => rfl, fun _ _ => rfl, fun _ _ => rfl, ?_, ?_⟩
  · intro key slab found
    simp [Worker.pendIndex, Worker.new] at found
  · intro key key' slab found
    simp [Worker.pendIndex, Worker.new] at found

/-- Each key owns its slab: no other key has it, it is not free, and the item in it
decodes to the key; and no slab is on a free list twice. -/
structure Worker.Owned (w : Worker) : Prop where
  distinct : ∀ (key key' : Slice) (slab : SlabT), w.index[key]? = some slab →
    w.index[key']? = some slab → key = key'
  nodup : ∀ c ∈ w.slab.slabs, c.freeSlab.Nodup
  live : ∀ (key : Slice) (slab : SlabT), w.index[key]? = some slab →
    ∀ c ∈ w.slab.slabs, slab ∉ c.freeSlab
  decodes : ∀ (key : Slice) (slab : SlabT), w.index[key]? = some slab →
    ∃ value, decodeItem (cut (w.disk slab.file).byte slab.off slab.size) = (validTag, key, value)

theorem Sound.owned {w : Worker} {m : Contents} (sound : Sound w m) (between : w.ioQueue = []) :
    w.Owned := by
  have index : w.pendIndex = w.index := by rw [Worker.pendIndex, between, List.foldl_nil]
  have disk : w.pendDisk = w.disk := by rw [Worker.pendDisk, between, List.foldl_nil]
  refine ⟨index ▸ sound.distinct, fun c member => (sound.alloc.each c member).nodup, ?_, ?_⟩
  · intro key slab found c member inFree
    obtain ⟨_, -, owns⟩ := sound.owner key slab (index ▸ found)
    exact owns.live ⟨c, member, inFree⟩
  · intro key slab found
    obtain ⟨value, -, owns⟩ := sound.owner key slab (index ▸ found)
    exact ⟨value, decodeItem_of_itemAt (disk ▸ owns.item) owns.fits⟩

/-- A round of requests that are safe when they are processed keeps the invariant. -/
theorem Sound.serve {w w' : Worker} {m : Contents} {reqs : List Request} {effects : List Effect}
    (sound : Sound w m) (ok : RoundOk (fun w req => w.Fits req ∧ w.SlabSafe req) w reqs)
    (served : w.serve reqs = some (w', effects)) : ∃ m', Sound w' m' ∧ w'.ioQueue = [] := by
  have step : ∀ {t t' : Taking} {req : Request} {new : List Effect}, (∃ m, Sound t.worker m) →
      t.worker.Fits req ∧ t.worker.SlabSafe req →
      Processed t.worker t.seen.length req t'.worker new → t'.seen = t.seen ++ [req] →
      t'.effects = t.effects ++ new → ∃ m, Sound t'.worker m := by
    rintro t t' req new ⟨m, sound⟩ ⟨fits, safe⟩ processed - -
    exact ⟨_, sound.processed fits safe processed⟩
  obtain ⟨t, ⟨m', sound'⟩, -, rfl, -⟩ := serve_induction step ⟨m, sound⟩ ok served
  obtain ⟨-, -, -, -, -, -, -, queue, -⟩ := t.worker.settle_spec sound'.prepared
  exact ⟨m', sound'.settled, queue⟩

/-- **Slab ownership.**  Between the rounds of a run in which no UPDATE or DELETE is
processed while a DELETE of its key is queued (an UPDATE may be, as long as the slab
is still free), every stored key owns its slab. -/
theorem owned_of_run (id : Nat) (workDir : String) (pages : Nat) (junk : Memory)
    {rounds : List (List Request)} {w : Worker} {outs : List (List Effect)}
    (ok : Run.Along Worker.serve (RoundOk fun w req => w.Fits req ∧ w.SlabSafe req)
      (Worker.new id workDir pages junk) rounds)
    (ran : Run.run Worker.serve (Worker.new id workDir pages junk) rounds = some (w, outs)) :
    w.Owned := by
  have preserved : ∀ (w : Worker) (reqs : List Request) (w' : Worker) (effects : List Effect),
      (∃ m, Sound w m ∧ w.ioQueue = []) →
      RoundOk (fun w req => w.Fits req ∧ w.SlabSafe req) w reqs →
      w.serve reqs = some (w', effects) → ∃ m, Sound w' m ∧ w'.ioQueue = [] := by
    rintro w reqs w' effects ⟨m, sound, -⟩ ok served
    exact sound.serve ok served
  obtain ⟨m, sound, between⟩ := Run.invariant preserved ⟨_, .new id workDir pages junk, rfl⟩ ok ran
  exact sound.owned between

theorem owned_of_run_reuse :
    ∃ w outs, Run.run Worker.serve (Worker.new 0 "db" 2 fun _ => 0)
      [[.put [1] [2], .get [1]], [.update [1] [3], .delete [1], .put [4] [5]], [.get [4]]] =
        some (w, outs) ∧ w.Owned := by
  have ok : Run.Along Worker.serve (RoundOk fun w req => w.Fits req ∧ w.SlabSafe req)
      (Worker.new 0 "db" 2 fun _ => 0)
      [[.put [1] [2], .get [1]], [.update [1] [3], .delete [1], .put [4] [5]], [.get [4]]] := by
    decide +kernel
  have ends : (Run.run Worker.serve (Worker.new 0 "db" 2 fun _ => 0)
      [[.put [1] [2], .get [1]], [.update [1] [3], .delete [1], .put [4] [5]], [.get [4]]]).isSome := by
    decide +kernel
  obtain ⟨⟨w, outs⟩, ran⟩ := Option.isSome_iff_exists.mp ends
  exact ⟨w, outs, ran, owned_of_run 0 "db" 2 (fun _ => 0) ok ran⟩

/-- Two DELETEs of one key in a round free its slab twice. -/
theorem owned_fails_on_double_delete :
    ¬ ∀ (rounds : List (List Request)) (w : Worker) (outs : List (List Effect)),
      Run.Along Worker.serve (RoundOk Worker.Fits) (Worker.new 0 "db" 2 fun _ => 0) rounds →
      Run.run Worker.serve (Worker.new 0 "db" 2 fun _ => 0) rounds = some (w, outs) → w.Owned := by
  intro claim
  let rounds : List (List Request) := [[.put [1] [2]], [.delete [1], .delete [1]]]
  have fits : Run.Along Worker.serve (RoundOk Worker.Fits) (Worker.new 0 "db" 2 fun _ => 0) rounds := by
    decide +kernel
  have ends : (Run.run Worker.serve (Worker.new 0 "db" 2 fun _ => 0) rounds).map
      (fun out => out.1.slab.slabs.map SingleFileSlab.freeSlab) =
        some [[⟨64, 1, 0⟩, ⟨64, 1, 0⟩], [], [], [], []] := by
    decide +kernel
  obtain ⟨⟨w, outs⟩, ran, free⟩ := Option.map_eq_some_iff.mp ends
  have owned := claim rounds w outs fits ran
  have nodup : ∀ list ∈ w.slab.slabs.map SingleFileSlab.freeSlab, list.Nodup := by
    simpa using owned.nodup
  simp only at free
  rw [free] at nodup
  exact absurd (nodup _ (List.mem_cons_self ..)) (by decide)

end KTableFS.Kvengine
