/-
# Kvengine.MapRefinement -- one client at a time: a worker is a finite map

A client that waits for each answer drives a worker through rounds of one request.
`Store.serve` is what such a client should see, a plain finite map; `Ready w m` ties
a worker between two rounds to a map: sound ownership, cached items, an empty I/O
queue, and a page cache whose pointers can be followed.

The cache is visible through one defect.  `Update_` does not unlink an entry from
the middle of the recent list, so the list may lose entries that `index_` still
holds, and a `Lookup` that falls off it reports a miss.  `Worker.LooksTrue` says
that no lookup of a request does; under it the worker and the map answer alike.
-/
import KTableFS.Theory.Lists
import KTableFS.Kvengine.Store
import KTableFS.Kvengine.Provenance
import KTableFS.Kvengine.PageCacheLive

namespace KTableFS.Kvengine

open KTableFS.Theory

set_option autoImplicit false

/-! ## Ranges of the index -/

theorem lt_of_lt_key {a b bound : Slice} (less : compare a b = .lt) (below : b.lt bound = true) :
    a.lt bound = true := by
  rw [Slice.lt_iff] at below ⊢
  exact Std.TransCmp.lt_trans less below

/-- A scan visits the stored keys of its range, in order. -/
theorem scanRange_eq_filter (index : Std.TreeMap Slice SlabT) (minKey maxKey : Slice) :
    Worker.scanRange index minKey maxKey =
      index.toList.filter fun entry => !entry.1.lt minKey && entry.1.lt maxKey := by
  have sorted : index.toList.Pairwise fun a b => compare a.1 b.1 = .lt :=
    Std.TreeMap.ordered_keys_toList
  have closed : ∀ (bound : Slice) (a b : Slice × SlabT), compare a.1 b.1 = .lt →
      b.1.lt bound = true → a.1.lt bound = true := fun bound a b less below => lt_of_lt_key less below
  rw [Worker.scanRange, dropWhile_eq_filter (closed minKey) sorted,
    takeWhile_eq_filter (closed maxKey) (sorted.sublist List.filter_sublist), List.filter_filter]
  apply List.filter_congr
  intro entry _
  exact Bool.and_comm ..

/-- A map with the keys of an index lists the index's keys with its own values. -/
theorem toList_eq_of_keys {index : Std.TreeMap Slice SlabT} {m : Store}
    (same : ∀ key : Slice, index[key]?.isSome = m[key]?.isSome) :
    m.toList = index.toList.map fun entry => (entry.1, m[entry.1]?.getD []) := by
  have sorted : m.toList.Pairwise fun a b => compare a.1 b.1 = .lt := Std.TreeMap.ordered_keys_toList
  have sorted' : (index.toList.map fun entry => (entry.1, m[entry.1]?.getD [])).Pairwise
      fun a b => compare a.1 b.1 = .lt := by
    rw [List.pairwise_map]
    exact Std.TreeMap.ordered_keys_toList
  have members : ∀ pair, pair ∈ m.toList ↔
      pair ∈ index.toList.map fun entry => (entry.1, m[entry.1]?.getD []) := by
    rintro ⟨key, value⟩
    simp only [List.mem_map, Prod.mk.injEq]
    constructor
    · intro member
      have stored := Std.TreeMap.mem_toList_iff_getElem?_eq_some.mp member
      have present : index[key]?.isSome := by rw [same, stored]; rfl
      obtain ⟨slab, found⟩ := Option.isSome_iff_exists.mp present
      exact ⟨(key, slab), Std.TreeMap.mem_toList_iff_getElem?_eq_some.mpr found, rfl, by simp [stored]⟩
    · rintro ⟨⟨key', slab⟩, member, rfl, rfl⟩
      have found := Std.TreeMap.mem_toList_iff_getElem?_eq_some.mp member
      have present : m[key']?.isSome := by rw [← same, found]; rfl
      obtain ⟨value, stored⟩ := Option.isSome_iff_exists.mp present
      exact Std.TreeMap.mem_toList_iff_getElem?_eq_some.mpr (by simp [stored])
  have irrefl : ∀ {l : List (Slice × Slice)}, l.Pairwise (fun a b => compare a.1 b.1 = .lt) → l.Nodup := by
    intro l pairwise
    refine pairwise.imp ?_
    rintro a b less rfl
    simp at less
  refine ((List.perm_ext_iff_of_nodup (irrefl sorted) (irrefl sorted')).mpr members).eq_of_pairwise ?_
    sorted sorted'
  intro a b _ _ less greater
  exact absurd (Std.TransCmp.lt_trans less greater) (by simp)

/-! ## Lookups -/

/-- Every lookup a request makes is truthful. -/
def Worker.LooksTrue (w : Worker) : Request → Prop
  | .get key => ∀ s ∈ w.index[key]?, w.pagecache.Truthful (pageHash s.file (s.off / pageSize))
  | .put key value => w.index[key]? = none →
      ∀ out ∈ FileSlab.createIn (itemSize key value) w.slab.slabs w.slab.fileSet,
        w.pagecache.Truthful (pageHash out.1.file (out.1.off / pageSize))
  | .update key _ => ∀ s ∈ w.index[key]?, w.pagecache.Truthful (pageHash s.file (s.off / pageSize))
  | .delete key => ∀ s ∈ w.index[key]?, w.pagecache.Truthful (pageHash s.file (s.off / pageSize))
  | .scan minKey maxKey _ _ =>
      Run.Along scanReads
        (fun fs entry => fs.fileSet.pagecache.Truthful (pageHash entry.2.file (entry.2.off / pageSize)))
        w.slab (Worker.scanRange w.index minKey maxKey)

/-- The files a PUT leaves can be told apart by 16 bits. -/
def Worker.FilesFit (w : Worker) : Request → Prop
  | .put key value => ∀ out ∈ FileSlab.createIn (itemSize key value) w.slab.slabs w.slab.fileSet,
      out.2.2.fileSet.length < 2 ^ 16
  | _ => True

instance (w : Worker) : (req : Request) → Decidable (w.LooksTrue req)
  | .get key => inferInstanceAs (Decidable (∀ s ∈ w.index[key]?, _))
  | .put key _ => inferInstanceAs (Decidable (w.index[key]? = none → ∀ out ∈ FileSlab.createIn .., _))
  | .update key _ => inferInstanceAs (Decidable (∀ s ∈ w.index[key]?, _))
  | .delete key => inferInstanceAs (Decidable (∀ s ∈ w.index[key]?, _))
  | .scan .. => inferInstanceAs (Decidable (Run.Along ..))

instance (w : Worker) : (req : Request) → Decidable (w.FilesFit req)
  | .put .. => inferInstanceAs (Decidable (∀ out ∈ FileSlab.createIn .., _))
  | .get _ => .isTrue trivial
  | .update .. => .isTrue trivial
  | .delete _ => .isTrue trivial
  | .scan .. => .isTrue trivial

namespace LocalFileSet

variable {fs : LocalFileSet} {f off : Nat} (has : fs.HasFile f) (quiet : fs.pagecache.Quiet)
  (truthful : fs.pagecache.Truthful (pageHash f (off / pageSize)))

include has quiet truthful

theorem write_quiet (data : Slice) (aio : Aio) :
    ∃ a c, fs.write f data off aio = some (a, { fs with pagecache := c }) ∧ c.Quiet ∧ a.IsWrite ∧
      a.batch = aio.batch := by
  obtain ⟨hit, c, looked, quiet'⟩ := quiet.lookup truthful
  unfold write
  rw [if_pos has]
  simp only [looked]
  cases hit with
  | none => exact ⟨_, c, rfl, quiet', ⟨rfl, rfl, rfl⟩, rfl⟩
  | some ent => exact ⟨_, c, rfl, quiet', ⟨rfl, rfl, rfl⟩, rfl⟩

/-- A read succeeds; if it loads a page, only that page's entry waits. -/
theorem read_quiet (size : Nat) (aio : Aio) :
    ∃ a c ent, fs.read f size off aio = some (a, { fs with pagecache := c }) ∧ c.Loading ent ∧
      ∀ e ∈ ent, a.submit = true ∧ a.callbacks = aio.callbacks ++ [.cacheRead e] := by
  obtain ⟨hit, c, looked, quiet'⟩ := quiet.lookup truthful
  unfold read
  rw [if_pos has]
  simp only [looked]
  cases hit with
  | some ent => exact ⟨_, c, none, rfl, quiet', by simp⟩
  | none =>
      obtain ⟨rfl, missed⟩ := PageCache.lookup_miss looked
      obtain ⟨ent, c', made, loading⟩ := quiet.newEntry (truthful missed)
      simp only [made]
      exact ⟨_, c', some ent, rfl, loading, by simp [Aio.addCallback, Aio.setReadSizeAndOff]⟩

theorem readSync_quiet (size : Nat) :
    ∃ bytes c, fs.readSync f size off = some (bytes, { fs with pagecache := c }) ∧ c.Quiet := by
  obtain ⟨hit, c, looked, quiet'⟩ := quiet.lookup truthful
  unfold readSync
  rw [if_pos has]
  simp only [looked]
  cases hit with
  | some ent => exact ⟨_, c, rfl, quiet'⟩
  | none =>
      obtain ⟨rfl, missed⟩ := PageCache.lookup_miss looked
      obtain ⟨ent, c', made, loading⟩ := quiet.newEntry (truthful missed)
      simp only [made]
      refine ⟨_, _, rfl, loading.completed (fs.loadPage_completed f (off / pageSize) ent c') ?_⟩
      rintro e ⟨⟩
      rw [loadPage, PageCache.modify_entry, if_pos rfl]

end LocalFileSet

/-- Allocation and deletion keep the classes. -/
theorem createIn_sizes {size : Nat} {slabs slabs' : List SingleFileSlab} {fs fs' : LocalFileSet}
    {s : SlabT} (created : FileSlab.createIn size slabs fs = some (s, slabs', fs')) :
    slabs'.map SingleFileSlab.slabSize = slabs.map SingleFileSlab.slabSize := by
  obtain ⟨before, c, after, c', rfl, rfl, -, served⟩ := createIn_split created
  have same : c'.slabSize = c.slabSize := by
    rcases served with ⟨free, -, rfl, -⟩ | ⟨-, rfl, -, -⟩
    · rfl
    · unfold SingleFileSlab.bump
      split <;> rfl
  simp [same]

theorem freeIn_sizes {s : SlabT} {slabs slabs' : List SingleFileSlab}
    (freed : FileSlab.freeIn s slabs = some slabs') :
    slabs'.map SingleFileSlab.slabSize = slabs.map SingleFileSlab.slabSize := by
  obtain ⟨before, c, after, rfl, -, rfl⟩ := freeIn_split freed
  simp

/-! ## The worker and the map -/

/-- A worker between two rounds that stores the map `m`. -/
structure Ready (w : Worker) (m : Store) : Prop where
  sound : Sound w fun key => m[key]?
  cached : Cached w (Items w fun key => m[key]?)
  between : w.ioQueue = []
  quiet : w.pagecache.Quiet
  large : 1024 ∈ w.slab.slabs.map SingleFileSlab.slabSize

theorem Ready.new (id : Nat) (workDir : String) {pages : Nat} (two : 2 ≤ pages) (junk : Memory) :
    Ready (Worker.new id workDir pages junk) ∅ where
  sound := by simpa using Sound.new id workDir pages junk
  cached := (Cached.new id workDir pages junk).shrink (by
    rintro f o ⟨key, s, value, found, -⟩
    simp [Worker.pendIndex, Worker.new] at found)
  between := rfl
  quiet := .new two junk
  large := by simp [Worker.new, FileSlab.new, SingleFileSlab.new]

/-- A round of one request: it is processed, and the round settles. -/
theorem serve_one {w w' : Worker} {req : Request} {effects : List Effect}
    (processed : w.processRequest ⟨0, [req], []⟩ = some (w', effects)) :
    w.serve [req] = some ((w'.settle .inOrder).1, effects ++ (w'.settle .inOrder).2) := by
  simp [Worker.serve, Worker.round, batchesFrom, Worker.processAll, processed]

section Step

variable {w : Worker} {m : Store} (ready : Ready w m)

include ready

theorem Ready.pendIndex : w.pendIndex = w.index := by
  rw [Worker.pendIndex, ready.between, List.foldl_nil]

theorem Ready.pendDisk : w.pendDisk = w.disk := by
  rw [Worker.pendDisk, ready.between, List.foldl_nil]

theorem Ready.deleting (key : Slice) : w.deleting key = false := by
  simp [Worker.deleting, ready.between]

theorem Ready.evictSafe : w.EvictSafe :=
  Or.inr fun ent _ => by simp [Worker.targets, ready.between]

theorem Ready.found_iff (key : Slice) : w.index[key]?.isSome = m[key]?.isSome := by
  cases found : w.index[key]? with
  | none =>
      rw [show m[key]? = none from ready.sound.absent key (ready.pendIndex ▸ found)]
      rfl
  | some s =>
      obtain ⟨value, stored, -⟩ := ready.sound.owner key s (ready.pendIndex ▸ found)
      rw [show m[key]? = some value from stored]
      rfl

theorem Ready.hasFile {key : Slice} {s : SlabT} (found : w.index[key]? = some s) :
    w.slab.fileSet.HasFile s.file := by
  obtain ⟨value, -, owns⟩ := ready.sound.owner key s (ready.pendIndex ▸ found)
  have bounds := owns.issued.bounds ready.sound.alloc
  exact ⟨bounds.2.2.1, bounds.2.2.2⟩

end Step

/-- The end of a round leaves the worker ready, if its loads have arrived. -/
theorem Ready.settled {w : Worker} {m : Store} {ent : Option Nat}
    (sound : Sound w fun key => m[key]?) (cached : Cached w (Items w fun key => m[key]?))
    (loading : w.pagecache.Loading ent)
    (arrived : ∀ e ∈ ent, ((w.settle .inOrder).1.pagecache.entry e).wait = false)
    (large : 1024 ∈ w.slab.slabs.map SingleFileSlab.slabSize) : Ready (w.settle .inOrder).1 m := by
  obtain ⟨-, slabs, -, -, index, -, done, queue, -⟩ := w.settle_spec sound.prepared
  refine ⟨sound.settled, cached.settled.shrink ?_, queue, loading.completed done arrived, slabs ▸ large⟩
  rintro f o ⟨key, slab, value, found, rest⟩
  rw [Worker.pendIndex, queue, List.foldl_nil, index] at found
  exact ⟨key, slab, value, found, rest⟩

/-! ## One request -/

/-- A round that ends ready for what the map became, with the map's answer. -/
theorem Ready.served {w w' : Worker} {m m' : Store} {req : Request} {early late : List Effect}
    (processed : w.processRequest ⟨0, [req], []⟩ = some (w', early))
    (effects : (w'.settle .inOrder).2 = late) (answer : m.serve req = (m', early ++ late))
    (ready : Ready (w'.settle .inOrder).1 m') :
    ∃ w', w.serve [req] = some (w', (m.serve req).2) ∧ Ready w' (m.serve req).1 := by
  refine ⟨(w'.settle .inOrder).1, ?_, ?_⟩
  · rw [serve_one processed, effects, answer]
  · rw [answer]
    exact ready

section Requests

variable {w : Worker} {m : Store} (ready : Ready w m)

include ready

theorem Ready.contains (key : Slice) : m.contains key = w.index[key]?.isSome := by
  rw [ready.found_iff, Std.TreeMap.contains_eq_isSome_getElem?]

/-- The contents a request leaves are those of the map. -/
theorem Ready.expect (req : Request) :
    (w.expect (fun key => m[key]?) req) = fun key => (m.serve req).1[key]? := by
  funext other
  cases req with
  | get key =>
      simp only [Worker.expect, Store.serve]
      split <;> rfl
  | put key value =>
      simp only [Worker.expect, Store.serve, ready.contains]
      split
      · rfl
      · rename_i absent
        have none' : m[key]? = none := by
          rw [ready.found_iff] at absent
          simpa using absent
        simp only [none', Option.getD_none, Function.update_apply, Store.getElem?_insert]
  | update key value =>
      simp only [Worker.expect, Store.serve, ready.contains, ready.deleting, and_true]
      split
      · simp only [Function.update_apply, Store.getElem?_insert]
      · rfl
  | delete key =>
      simp only [Worker.expect, Store.serve, ready.contains]
      split
      · simp only [Function.update_apply, Store.getElem?_erase]
      · rfl
  | scan minKey maxKey callback tag => rfl

/-- A refused request: the map refuses it too. -/
theorem Ready.refused {req : Request} {res : Int} (reason : w.refusal req = some res) :
    ∃ w', w.serve [req] = some (w', (m.serve req).2) ∧ Ready w' (m.serve req).1 := by
  have both : w.processRequest ⟨0, [req], []⟩ = some (w, [.respond 0 none res]) ∧
      m.serve req = (m, [.respond 0 none res]) := by
    cases req with
    | scan minKey maxKey callback tag => cases reason
    | get key =>
        have same := ready.found_iff key
        cases found : w.index[key]? <;> cases stored : m[key]? <;>
          simp_all [Worker.refusal, Worker.processRequest, Store.serve, Batch.finishRequest]
    | put key value =>
        have same := ready.contains key
        cases found : w.index[key]? <;>
          simp_all [Worker.refusal, Worker.processRequest, Store.serve, Batch.finishRequest]
    | update key value =>
        have same := ready.contains key
        cases found : w.index[key]? <;>
          simp_all [Worker.refusal, Worker.processRequest, Store.serve, Batch.finishRequest]
    | delete key =>
        have same := ready.contains key
        cases found : w.index[key]? <;>
          simp_all [Worker.refusal, Worker.processRequest, Store.serve, Batch.finishRequest]
  obtain ⟨-, -, -, -, -, -, -, -, effects⟩ := w.settle_spec ready.sound.prepared
  rw [ready.between] at effects
  exact Ready.served both.1 effects both.2
    (.settled ready.sound ready.cached ready.quiet (by simp) ready.large)

/-- With nothing queued, a truthful lookup is all a request needs. -/
theorem Ready.lookSafe {req : Request} (point : req.isPoint = true) (looks : w.LooksTrue req) :
    w.LookSafe req := by
  cases req with
  | get key => exact fun s found => ⟨looks s found, fun _ => ready.evictSafe⟩
  | put key value => exact looks
  | update key value => exact looks
  | delete key => exact looks
  | scan minKey maxKey callback tag => cases point

/-- A queued write: what is left is to settle. -/
theorem Ready.wrote {w' : Worker} {req : Request} {a : Aio} (point : req.isPoint = true)
    (fits : w.Fits req) (looks : w.LooksTrue req)
    (processed : w.processRequest ⟨0, [req], []⟩ = some (w', []))
    (queue : w'.ioQueue = [a]) (isWrite : a.IsWrite) (batch : a.batch = ⟨0, [], []⟩)
    (quiet : w'.pagecache.Quiet)
    (classes : w'.slab.slabs.map SingleFileSlab.slabSize = w.slab.slabs.map SingleFileSlab.slabSize)
    (answer : (m.serve req).2 = [.respond 0 none 0]) :
    ∃ w', w.serve [req] = some (w', (m.serve req).2) ∧ Ready w' (m.serve req).1 := by
  have slabSafe : w.SlabSafe req := by
    cases req <;> simp [Worker.SlabSafe, ready.deleting]
  have branch := Worker.processRequest_processed processed
  have sound := ready.sound.processed fits slabSafe branch
  have cached := items_processed ready.sound ready.cached point fits slabSafe
    (ready.lookSafe point looks) (fun key _ _ _ => ready.deleting key) branch
  rw [ready.expect] at sound cached
  obtain ⟨-, -, -, -, -, -, -, -, effects⟩ := w'.settle_spec sound.prepared
  have late : (w'.settle .inOrder).2 = [.respond 0 none 0] := by
    rw [effects, queue, answers, answers, answer_of_write isWrite (by rw [batch]), batch]
  refine Ready.served processed late (Prod.ext rfl answer) (.settled sound cached quiet (by simp) ?_)
  rw [classes]
  exact ready.large

theorem Ready.update {key value : Slice} {s : SlabT} (found : w.index[key]? = some s)
    (fits : w.Fits (.update key value)) (looks : w.LooksTrue (.update key value)) :
    ∃ w', w.serve [.update key value] = some (w', (m.serve (.update key value)).2) ∧
      Ready w' (m.serve (.update key value)).1 := by
  obtain ⟨a, c, wrote, quiet, isWrite, batch⟩ := LocalFileSet.write_quiet (ready.hasFile found) ready.quiet
    (looks s found) (itemBytes key value) (w.blankAio 0)
  have processed : w.processRequest ⟨0, [.update key value], []⟩ =
      some (w.queue { w.slab with fileSet := { w.slab.fileSet with pagecache := c } } a, []) := by
    simp only [Worker.processRequest, found, FileSlab.write, Worker.enqueue]
    rw [show Aio.new w.ioQueue.length ⟨0, [], []⟩ = w.blankAio 0 from rfl, wrote]
    rfl
  refine ready.wrote rfl fits looks processed ?_ isWrite batch quiet rfl ?_
  · rw [Worker.queue_ioQueue, ready.between, List.nil_append]
  · simp [Store.serve, ready.contains, found]

theorem Ready.delete {key : Slice} {s : SlabT} (found : w.index[key]? = some s)
    (looks : w.LooksTrue (.delete key)) :
    ∃ w', w.serve [.delete key] = some (w', (m.serve (.delete key)).2) ∧
      Ready w' (m.serve (.delete key)).1 := by
  obtain ⟨a, c, wrote, quiet, isWrite, batch⟩ := LocalFileSet.write_quiet (ready.hasFile found) ready.quiet
    (looks s found) (storeLE 8 0) ((w.blankAio 0).addCallback (.delete key))
  obtain ⟨value, -, owns⟩ := ready.sound.owner key s (ready.pendIndex ▸ found)
  obtain ⟨class', member, own⟩ := owns.issued
  obtain ⟨slabs, freed⟩ := freeIn_isSome ⟨class', member, own.size.symm⟩
  have processed : w.processRequest ⟨0, [.delete key], []⟩ =
      some (w.queue ⟨{ w.slab.fileSet with pagecache := c }, slabs⟩ a, []) := by
    simp only [Worker.processRequest, found, FileSlab.delete, freed, Worker.enqueue]
    rw [show Aio.new w.ioQueue.length ⟨0, [], []⟩ = w.blankAio 0 from rfl, wrote]
    rfl
  refine ready.wrote rfl trivial looks processed ?_ isWrite batch quiet
    (freeIn_sizes freed) ?_
  · rw [Worker.queue_ioQueue, ready.between, List.nil_append]
  · simp [Store.serve, ready.contains, found]

theorem Ready.put {key value : Slice} (absent : w.index[key]? = none)
    (fits : w.Fits (.put key value)) (looks : w.LooksTrue (.put key value))
    (files : w.FilesFit (.put key value)) :
    ∃ w', w.serve [.put key value] = some (w', (m.serve (.put key value)).2) ∧
      Ready w' (m.serve (.put key value)).1 := by
  obtain ⟨⟨s, slabs, fs⟩, created⟩ := createIn_isSome fits w.slab.fileSet ready.large
  obtain ⟨alloc, issued, -⟩ := createIn_spec ready.sound.alloc created (files _ created)
  have has : fs.HasFile s.file := ⟨(issued.bounds alloc).2.2.1, (issued.bounds alloc).2.2.2⟩
  have sameCache : fs.pagecache = w.pagecache := (createIn_files created).1
  have quietNow : fs.pagecache.Quiet := by
    rw [sameCache]
    exact ready.quiet
  have truthful := looks absent _ created
  rw [← sameCache] at truthful
  obtain ⟨a, c, wrote, quiet, isWrite, batch⟩ := LocalFileSet.write_quiet has quietNow truthful
    (itemBytes key value) ((w.blankAio 0).addCallback (.put key s))
  have processed : w.processRequest ⟨0, [.put key value], []⟩ =
      some (w.queue ⟨{ fs with pagecache := c }, slabs⟩ a, []) := by
    simp only [Worker.processRequest, absent, FileSlab.create, created, FileSlab.write, Worker.enqueue,
      Option.map_some]
    rw [show Aio.new w.ioQueue.length ⟨0, [], []⟩ = w.blankAio 0 from rfl, wrote]
    rfl
  refine ready.wrote rfl fits looks processed ?_ isWrite batch quiet
    (createIn_sizes created) ?_
  · rw [Worker.queue_ioQueue, ready.between, List.nil_append]
  · simp [Store.serve, ready.contains, absent]

theorem Ready.get {key : Slice} {s : SlabT} (found : w.index[key]? = some s)
    (looks : w.LooksTrue (.get key)) :
    ∃ w', w.serve [.get key] = some (w', (m.serve (.get key)).2) ∧
      Ready w' (m.serve (.get key)).1 := by
  obtain ⟨value, stored, -⟩ := ready.sound.owner key s (ready.pendIndex ▸ found)
  obtain ⟨a, c, ent, queued, loading, load⟩ := LocalFileSet.read_quiet (ready.hasFile found) ready.quiet
    (looks s found) s.size ((w.blankAio 0).addCallback .fileSlabRead)
  let w' := w.queue { w.slab with fileSet := { w.slab.fileSet with pagecache := c } } a
  have processed : w.processRequest ⟨0, [.get key], []⟩ = some (w', []) := by
    simp only [Worker.processRequest, found, FileSlab.read, Worker.enqueue]
    rw [show Aio.new w.ioQueue.length ⟨0, [], []⟩ = w.blankAio 0 from rfl, queued]
    rfl
  have branch := Worker.processRequest_processed processed
  have fits : w.Fits (.get key) := trivial
  have slabSafe : w.SlabSafe (.get key) := trivial
  have sound := ready.sound.processed fits slabSafe branch
  have cached := items_processed ready.sound ready.cached rfl fits slabSafe
    (ready.lookSafe rfl looks) (fun key _ _ _ => ready.deleting key) branch
  rw [ready.expect] at sound cached
  -- the only queued read finds the item of the key
  have nothing : ReadsFind w fun _ k v => k = key ∧ v = value := by
    intro before b after split
    rw [ready.between] at split
    simp at split
  have alone : w'.ioQueue = [a] := by
    rw [Worker.queue_ioQueue, ready.between, List.nil_append]
  have isRead : a.opcode = .pread := by
    obtain ⟨-, hit, _, _, -, -, ⟨e, -, -, rfl⟩ | ⟨e, -, -, rfl⟩⟩ := LocalFileSet.read_eq_some queued <;> rfl
  have id : a.batch = ⟨0, [], []⟩ := by
    obtain ⟨-, hit, _, _, -, -, ⟨e, -, -, rfl⟩ | ⟨e, -, -, rfl⟩⟩ := LocalFileSet.read_eq_some queued <;> rfl
  have quiet : w.EvictQuiet := Or.inr fun e _ => by
    simp [Worker.targets, Worker.reading, ready.between]
  obtain ⟨empty, _, _, ⟨sameKey, sameValue⟩, finds⟩ := nothing.get ready.sound ready.cached
    (ready.pendIndex ▸ found) stored ⟨rfl, rfl⟩ queued (looks s found) (fun _ => quiet) [] a [] alone isRead
  rw [sameKey, sameValue] at finds
  obtain ⟨-, -, -, -, -, -, -, -, effects⟩ := w'.settle_spec sound.prepared
  have delivered : a.answer w'.disk w'.loadedData = .respond a.batch.id (some value) 0 :=
    answer_of_item isRead empty finds.success finds.item
  have late : (w'.settle .inOrder).2 = [.respond 0 (some value) 0] := by
    rw [effects, alone, answers, answers, delivered, id]
  have answer : m.serve (.get key) = (m, [.respond 0 (some value) 0]) := by
    simp only [Store.serve, show m[key]? = some value from stored]
  rw [answer] at sound cached
  refine Ready.served processed late answer (.settled sound cached loading ?_ ready.large)
  intro e loads
  obtain ⟨submitted, callbacks⟩ := load e loads
  exact Worker.settle_load alone isRead submitted callbacks finds.success

/-- A synchronous read returns the stored pair and leaves the worker ready. -/
theorem Ready.readSync {key value : Slice} {s : SlabT} (found : w.index[key]? = some s)
    (stored : m[key]? = some value)
    (truthful : w.pagecache.Truthful (pageHash s.file (s.off / pageSize))) :
    ∃ c, w.slab.readSync s = some ((key, value), (w.setPagecache c).slab) ∧
      Ready (w.setPagecache c) m := by
  obtain ⟨bytes, c, read, quiet⟩ := LocalFileSet.readSync_quiet (ready.hasFile found) ready.quiet
    truthful s.size
  have pending : w.pendIndex[key]? = some s := ready.pendIndex ▸ found
  obtain ⟨value', stored', owns⟩ := ready.sound.owner key s pending
  have same : value' = value := by
    rw [show m[key]? = some value' from stored'] at stored
    exact Option.some.inj stored
  subst same
  have file : s.file < 2 ^ 16 :=
    lt_of_le_of_lt (owns.issued.bounds ready.sound.alloc).2.2.2 ready.sound.alloc.narrow
  obtain ⟨c', same, cached, ent, bound, shape⟩ := ready.cached.readSync read
    ⟨truthful, fun _ => ready.evictSafe⟩ (fun _ => by rw [ready.pendDisk]) file s.off_lt
  cases same
  have ready' : Ready (w.setPagecache c) m :=
    ⟨ready.sound.cache c, cached.shrink fun f o inItems => inItems, ready.between, quiet, ready.large⟩
  obtain ⟨item, -, -⟩ := owned_item_cached ready'.sound ready'.cached pending stored' bound
  have frames : (w.setPagecache c).pendData = c.data := by
    rw [Worker.pendData, Worker.loadedData, show (w.setPagecache c).ioQueue = [] from ready.between,
      List.foldl_nil]
    rfl
  rw [frames] at item
  refine ⟨c, ?_, ready'⟩
  rw [FileSlab.readSync, read, Option.map_some, shape, decodeItem_of_itemAt item owns.fits]
  rfl

end Requests

/-- The loop of a scan that nothing stops. -/
theorem Ready.scanLoop {m : Store} {callback : ScanCallback}
    (unstopped : ∀ delivered, callback delivered = true) :
    ∀ {entries : List (Slice × SlabT)} {w : Worker} {batch : Batch}, Ready w m → batch.id = 0 →
      batch.requests = [] → (∀ entry ∈ entries, w.index[entry.1]? = some entry.2) →
      Run.Along scanReads
        (fun fs entry => fs.fileSet.pagecache.Truthful (pageHash entry.2.file (entry.2.off / pageSize)))
        w.slab entries →
      ∃ c batch', Worker.scanLoop callback entries w.slab batch =
          some ((w.setPagecache c).slab, batch',
            entries.map fun entry => .scanned 0 entry.1 (m[entry.1]?.getD []) true) ∧
        batch'.id = 0 ∧ batch'.requests = [] ∧ Ready (w.setPagecache c) m
  | [], w, batch, ready, named, empty, _, _ => ⟨w.pagecache, batch, rfl, named, empty, ready⟩
  | entry :: rest, w, batch, ready, named, empty, indexed, looks => by
      have found := indexed entry (List.mem_cons_self ..)
      obtain ⟨value, stored, -⟩ := ready.sound.owner entry.1 entry.2 (ready.pendIndex ▸ found)
      obtain ⟨c, read, ready'⟩ := ready.readSync found stored looks.1
      have looks' := looks.2 (w.setPagecache c).slab (entry.1, value) (by rw [scanReads, read]; rfl)
      let batch' : Batch := { batch with delivered := batch.delivered ++ [(entry.1, value)] }
      obtain ⟨c', batch'', scanned, named', empty', ready''⟩ := Ready.scanLoop unstopped
        ready' (show batch'.id = 0 from named) empty (fun other member => indexed other (List.mem_cons_of_mem _ member)) looks'
      refine ⟨c', batch'', ?_, named', empty', ready''⟩
      unfold Worker.scanLoop
      simp only [read, Worker.deliver, unstopped, if_true]
      rw [show ({ batch with delivered := batch.delivered ++ [(entry.1, value)] } : Batch) = batch' from rfl,
        scanned]
      simp [named, show m[entry.1]? = some value from stored]
      rfl

theorem Ready.scan {w : Worker} {m : Store} (ready : Ready w m) {minKey maxKey : Slice}
    {callback : ScanCallback} {tag : Nat} (unstopped : ∀ delivered, callback delivered = true)
    (looks : w.LooksTrue (.scan minKey maxKey callback tag)) :
    ∃ w', w.serve [.scan minKey maxKey callback tag] =
        some (w', (m.serve (.scan minKey maxKey callback tag)).2) ∧
      Ready w' (m.serve (.scan minKey maxKey callback tag)).1 := by
  obtain ⟨c, batch, scanned, named, empty, ready'⟩ := Ready.scanLoop unstopped ready
    (show (⟨0, [], []⟩ : Batch).id = 0 from rfl) rfl (fun entry member => mem_scanRange member) looks
  have processed : w.processRequest ⟨0, [.scan minKey maxKey callback tag], []⟩ =
      some (w.setPagecache c, ((Worker.scanRange w.index minKey maxKey).map fun entry =>
        .scanned 0 entry.1 (m[entry.1]?.getD []) true) ++ [.respond 0 none 0]) := by
    simp only [Worker.processRequest, scanned, Option.map_some, Batch.finishRequest, named, empty,
      List.isEmpty_nil, if_true]
    rfl
  obtain ⟨-, -, -, -, -, -, -, -, effects⟩ := (w.setPagecache c).settle_spec ready'.sound.prepared
  rw [ready'.between] at effects
  refine Ready.served processed effects ?_
    (.settled ready'.sound ready'.cached ready'.quiet (by simp) ready'.large)
  have pairs := toList_eq_of_keys ready.found_iff
  simp only [Store.serve, pairs, List.filter_map, List.map_map, scanRange_eq_filter, answers,
    List.append_nil, Function.comp_def]

/-! ## Runs -/

/-- The condition under which the cache stays invisible. -/
def Worker.MapSafe (w : Worker) (req : Request) : Prop :=
  w.Fits req ∧ w.LooksTrue req ∧ w.FilesFit req

instance (w : Worker) (req : Request) : Decidable (w.MapSafe req) :=
  inferInstanceAs (Decidable (_ ∧ _ ∧ _))

/-- One request of a client that waits for the answer. -/
def Worker.serveOne (w : Worker) (req : Request) : Option (Worker × List Effect) := w.serve [req]

/-- A round of one request is the request and the end of the round. -/
theorem serveOne_eq_some {w w' : Worker} {req : Request} {effects : List Effect}
    (served : w.serveOne req = some (w', effects)) :
    ∃ mid early, Processed w 0 req mid early ∧ w' = (mid.settle .inOrder).1 ∧
      effects = early ++ (mid.settle .inOrder).2 := by
  cases processed : w.processRequest ⟨0, [req], []⟩ with
  | none =>
      simp only [Worker.serveOne, Worker.serve, batchesFrom, Worker.round, Worker.processAll, processed,
        Option.map_none] at served
      cases served
  | some out =>
      rw [Worker.serveOne, serve_one processed] at served
      cases served
      exact ⟨_, _, Worker.processRequest_processed processed, rfl, rfl⟩

/-- **One request is answered as the map answers it.** -/
theorem Ready.step {w : Worker} {m : Store} (ready : Ready w m) {req : Request}
    (unstopped : req.Unstopped) (safe : w.MapSafe req) :
    ∃ w', w.serveOne req = some (w', (m.serve req).2) ∧ Ready w' (m.serve req).1 := by
  obtain ⟨fits, looks, files⟩ := safe
  cases refusal : w.refusal req with
  | some res => exact ready.refused refusal
  | none =>
      cases req with
      | get key =>
          cases found : w.index[key]? with
          | none => simp [Worker.refusal, found] at refusal
          | some s => exact ready.get found looks
      | put key value =>
          cases found : w.index[key]? with
          | none => exact ready.put found fits looks files
          | some s => simp [Worker.refusal, found] at refusal
      | update key value =>
          cases found : w.index[key]? with
          | none => simp [Worker.refusal, found] at refusal
          | some s => exact ready.update found fits looks
      | delete key =>
          cases found : w.index[key]? with
          | none => simp [Worker.refusal, found] at refusal
          | some s => exact ready.delete found looks
      | scan minKey maxKey callback tag => exact ready.scan unstopped looks

/-- **Sequential refinement of a finite map.**  A client that waits for each answer
gets the answers of the map, in every run whose lookups are all truthful. -/
theorem map_of_run (id : Nat) (workDir : String) {pages : Nat} (two : 2 ≤ pages) (junk : Memory)
    {reqs : List Request} (unstopped : ∀ req ∈ reqs, req.Unstopped)
    (ok : Run.Along Worker.serveOne Worker.MapSafe (Worker.new id workDir pages junk) reqs) :
    ∃ w, Run.run Worker.serveOne (Worker.new id workDir pages junk) reqs =
      some (w, (Run.trace Store.serve ∅ reqs).2) := by
  have steps : ∀ (w : Worker) (m : Store) (req : Request), Ready w m →
      w.MapSafe req ∧ req.Unstopped →
      ∃ w', w.serveOne req = some (w', (m.serve req).2) ∧ Ready w' (m.serve req).1 :=
    fun w m req ready safe => ready.step safe.2 safe.1
  obtain ⟨w, ran, -⟩ := Run.simulates steps (Ready.new id workDir two junk) (ok.and_forall unstopped)
  exact ⟨w, ran⟩

theorem map_of_run_example :
    ∃ w, Run.run Worker.serveOne (Worker.new 0 "db" 2 fun _ => 0)
      [.put [1] [2], .get [1], .put [3] [4], .update [1] [5], .get [1], .put [1] [6],
        .scan [1] [9] (fun _ => true) 0, .delete [1], .get [1]] =
      some (w, [[.respond 0 none 0], [.respond 0 (some [2]) 0], [.respond 0 none 0],
        [.respond 0 none 0], [.respond 0 (some [5]) 0], [.respond 0 none eexist],
        [.scanned 0 [1] [5] true, .scanned 0 [3] [4] true, .respond 0 none 0], [.respond 0 none 0],
        [.respond 0 none enoent]]) := by
  refine map_of_run 0 "db" le_rfl (fun _ => 0) ?_ (by decide +kernel)
  simp [Request.Unstopped]

/-- Four pages, touched so that the recent list forgets the page of key `[4]`: its
UPDATE does not reach the cached copy, and a later GET returns the old value. -/
theorem map_fails_on_forgotten_page :
    ¬ ∀ (pages : Nat) (reqs : List Request), 2 ≤ pages → (∀ req ∈ reqs, req.Unstopped) →
      Run.Along Worker.serveOne Worker.Fits (Worker.new 0 "db" pages fun _ => 0) reqs →
      (Run.run Worker.serveOne (Worker.new 0 "db" pages fun _ => 0) reqs).map Prod.snd =
        some (Run.trace Store.serve ∅ reqs).2 := by
  intro claim
  let reqs : List Request :=
    [.put [1] (List.replicate 100 0), .put [2] (List.replicate 200 0),
      .put [3] (List.replicate 400 0), .put [4] [7], .get [1], .get [2], .get [3], .get [4], .get [3],
      .get [1], .get [2], .update [4] [8], .get [1], .get [4]]
  have fits : Run.Along Worker.serveOne Worker.Fits (Worker.new 0 "db" 4 fun _ => 0) reqs := by
    decide +kernel
  have answers := claim 4 reqs (by decide) (by simp [reqs, Request.Unstopped]) fits
  let lastData (outs : List (List Effect)) : Option (Option Slice × Int) :=
    outs.getLast?.bind (answerTo 0)
  have stale : ((Run.run Worker.serveOne (Worker.new 0 "db" 4 fun _ => 0) reqs).map Prod.snd).bind
      lastData = some (some [7], 0) := by
    decide +kernel
  have fresh : lastData (Run.trace Store.serve ∅ reqs).2 = some (some [8], 0) := by
    decide +kernel
  rw [answers, Option.bind_some, fresh] at stale
  revert stale
  decide

end KTableFS.Kvengine
