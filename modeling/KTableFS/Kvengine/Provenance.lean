/-
# Kvengine.Provenance -- a GET returns a value written for its key

A queued GET takes its value from a frame, in its own turn of the finishing loop:
after the queued loads, after the callbacks of the requests before it, before those
of the requests behind it.  `FindsItem` says that it will find an item of its key
there, and `ReadsFind` that every queued read does; the value comes from the ghost
contents of `Sound`, whose values were all submitted for their keys (`Known`).

`Worker.GetSafe` is what this takes of a request when it is processed: a GET must
not find a key whose DELETE is queued (its slab is free, zeroed, or another key's),
lookups must be truthful, and a page load must not take a frame that a queued
callback writes to or a queued read still has to read.
-/
import KTableFS.Kvengine.Alternation
import KTableFS.Kvengine.Items

namespace KTableFS.Kvengine

open KTableFS.Theory

set_option autoImplicit false

/-! ## Queued reads -/

/-- The read `a`, queued behind `before`, finds this item in its turn. -/
structure FindsItem (w : Worker) (before : List Aio) (a : Aio) (key value : Slice) : Prop where
  frame : ∃ ent < w.pagecache.usedPage, a.frame = ent * pageSize
  inPage : a.readOff + itemSize key value ≤ pageSize
  success : (a.stamp (before.foldl (fun disk a => a.performDisk disk) w.disk)).success = true
  item : ItemAt (before.foldl (Aio.onData w.page) w.loadedData) (a.frame + a.readOff) key value

/-- Every queued read finds an item that `P` allows for its batch. -/
def ReadsFind (w : Worker) (P : Nat → Slice → Slice → Prop) : Prop :=
  ∀ before a after, w.ioQueue = before ++ a :: after → a.opcode = .pread →
    a.batch.requests = [] ∧ ∃ key value, P a.batch.id key value ∧ FindsItem w before a key value

theorem ReadsFind.mono {w : Worker} {P P' : Nat → Slice → Slice → Prop} (reads : ReadsFind w P)
    (weaker : ∀ id key value, P id key value → P' id key value) : ReadsFind w P' := by
  intro before a after split isRead
  obtain ⟨empty, key, value, allowed, finds⟩ := reads before a after split isRead
  exact ⟨empty, key, value, weaker _ _ _ allowed, finds⟩

/-- The splits of a queue with one more request at its end. -/
theorem split_snoc {queue before after : List Aio} {a b : Aio}
    (split : queue ++ [b] = before ++ a :: after) :
    (∃ rest, queue = before ++ a :: rest) ∨ before = queue ∧ a = b := by
  rcases List.eq_nil_or_concat after with rfl | ⟨rest, last, rfl⟩
  · have same := List.append_inj' split rfl
    simp only [List.cons.injEq, and_true] at same
    exact Or.inr ⟨same.1.symm, same.2.symm⟩
  · rw [List.concat_eq_append, ← List.cons_append, ← List.append_assoc] at split
    exact Or.inl ⟨rest, (List.append_inj' split rfl).1⟩

/-- One more request: the reads before it find what they found, if their frames hold
in their turns what they held. -/
theorem ReadsFind.append {w w' : Worker} {P : Nat → Slice → Slice → Prop} {b : Aio}
    (reads : ReadsFind w P) (queue : w'.ioQueue = w.ioQueue ++ [b]) (disk : w'.disk = w.disk)
    (more : w.pagecache.usedPage ≤ w'.pagecache.usedPage)
    (same : ∀ before a after, w.ioQueue = before ++ a :: after → a.opcode = .pread →
      ∀ i < pageSize, before.foldl (Aio.onData w'.page) w'.loadedData (a.frame + i) =
        before.foldl (Aio.onData w.page) w.loadedData (a.frame + i))
    (new : b.opcode = .pread → b.batch.requests = [] ∧ ∃ key value, P b.batch.id key value ∧
      FindsItem w' w.ioQueue b key value) : ReadsFind w' P := by
  intro before a after split isRead
  rw [queue] at split
  rcases split_snoc split with ⟨rest, old⟩ | ⟨rfl, rfl⟩
  · obtain ⟨empty, key, value, allowed, ⟨ent, allocated, frame⟩, inPage, success, item⟩ :=
      reads before a rest old isRead
    refine ⟨empty, key, value, allowed, ⟨ent, lt_of_lt_of_le allocated more, frame⟩, inPage,
      by rw [disk]; exact success, item.congr ?_⟩
    intro i inside
    rw [Nat.add_assoc]
    exact same before a rest old isRead (a.readOff + i) (by omega)
  · exact new isRead

theorem foldl_onData_same {w : Worker} {T : Nat → Nat → Prop} (cached : Cached w T)
    {page : Nat → Nat} (pages : ∀ ent < w.pagecache.usedPage, page ent = ent * pageSize)
    {before : List Aio} {a : Aio} {after : List Aio} (split : w.ioQueue = before ++ a :: after)
    (memory : Memory) :
    before.foldl (Aio.onData page) memory = before.foldl (Aio.onData w.page) memory := by
  apply foldl_onData_congr
  intro b inBefore ent data off member
  have allocated := (cached.targets b (by simp [split, inBefore]) ent data off member).1
  rw [pages ent allocated, Worker.page, cached.wf.page ent allocated]

/-- A queued write loads no page. -/
theorem ReadsFind.write {w : Worker} {T : Nat → Nat → Prop} {P : Nat → Slice → Slice → Prop}
    (cached : Cached w T) (reads : ReadsFind w P) {fs fs' : LocalFileSet}
    (slabs : List SingleFileSlab) {aio a : Aio} {f off : Nat} {data : Slice}
    (cache : fs.pagecache = w.pagecache) (disk : fs.disk = w.disk)
    (truthful : w.pagecache.Truthful (pageHash f (off / pageSize)))
    (wrote : fs.write f data off aio = some (a, fs')) : ReadsFind (w.queue ⟨fs', slabs⟩ a) P := by
  obtain ⟨-, hit, c, looked, rfl, rfl⟩ := LocalFileSet.write_eq_some wrote
  rw [cache] at looked
  obtain ⟨-, relinked, -⟩ := PageCache.lookup_spec cached.wf truthful looked
  refine reads.append rfl disk relinked.usedPage.ge ?_ fun isRead => by cases isRead
  intro before b after split isRead i inside
  rw [Worker.loadedData_queue ⟨{ fs with pagecache := c }, slabs⟩ _ disk relinked.data,
    foldl_onData_same cached (fun ent allocated => by
      exact (relinked.page ent).trans (cached.wf.page ent allocated)) split]
  rfl

/-! ## Safe loads -/

/-- A queued read will read the frame of `ent`. -/
def Worker.reading (w : Worker) (ent : Nat) : Bool :=
  w.ioQueue.any fun a => a.opcode == .pread && a.frame == w.page ent

/-- `NewEntry` can take an entry no queued callback writes to and no queued read reads. -/
def Worker.EvictQuiet (w : Worker) : Prop :=
  w.pagecache.usedPage < w.pagecache.maxPage ∨
    ∀ ent ∈ w.pagecache.victim, w.targets ent = false ∧ w.reading ent = false

instance (w : Worker) : Decidable w.EvictQuiet := inferInstanceAs (Decidable (_ ∨ _))

theorem Worker.EvictQuiet.evictSafe {w : Worker} (quiet : w.EvictQuiet) : w.EvictSafe :=
  quiet.imp_right fun idle ent isVictim => (idle ent isVictim).1

/-- The entry a load takes is not one a queued read reads. -/
theorem claimed_unread {w : Worker} {T : Nat → Nat → Prop} (cached : Cached w T)
    (quiet : w.EvictQuiet) {hash ent : Nat} {c : PageCache}
    (claimed : PageCache.Claimed w.pagecache hash ent c) {a : Aio} (inQueue : a ∈ w.ioQueue)
    (isRead : a.opcode = .pread) {e : Nat} (allocated : e < w.pagecache.usedPage)
    (frame : a.frame = e * pageSize) : e ≠ ent := by
  rintro rfl
  rcases claimed.origin with ⟨rfl, -⟩ | ⟨full, victim, -⟩
  · exact Nat.lt_irrefl _ allocated
  · rcases quiet with room | idle
    · omega
    · have unread := List.any_eq_false.mp (idle e victim).2 a inQueue
      apply unread
      simp [isRead, frame, Worker.page, cached.wf.page e allocated]

/-- **A GET of an owned key finds its item**, and spoils no read queued before it. -/
theorem ReadsFind.get {w : Worker} {m : Contents} {P : Nat → Slice → Slice → Prop}
    (sound : Sound w m) (cached : Cached w (Items w m)) (reads : ReadsFind w P) {id : Nat}
    {key value : Slice} {s : SlabT} {a : Aio} {fs : LocalFileSet}
    (found : w.pendIndex[key]? = some s) (stored : m key = some value) (allowed : P id key value)
    (queued : w.slab.fileSet.read s.file s.size s.off ((w.blankAio id).addCallback .fileSlabRead) =
      some (a, fs)) (truthful : w.pagecache.Truthful (pageHash s.file (s.off / pageSize)))
    (quiet : w.pagecache.find (pageHash s.file (s.off / pageSize)) = none → w.EvictQuiet) :
    ReadsFind (w.queue { w.slab with fileSet := fs } a) P := by
  have issued : Issued w.slab.slabs s := (sound.owner key s found).choose_spec.2.issued
  have safe : w.PageSafe s.file (s.off / pageSize) := ⟨truthful, fun missed => (quiet missed).evictSafe⟩
  obtain ⟨cached', ent, bound, frame, readOff⟩ := items_get sound cached issued queued safe
  have looked := queued
  obtain ⟨-, hit, c, c', lookup, rfl, shape⟩ := LocalFileSet.read_eq_some queued
  have isRead : a.IsRead := by
    rcases shape with ⟨e, -, -, rfl⟩ | ⟨e, -, -, rfl⟩
    · exact Worker.toFake_isRead ..
    · exact Worker.toLoad_isRead ..
  have batch : a.batch = ⟨id, [], []⟩ := by
    rcases shape with ⟨e, -, -, rfl⟩ | ⟨e, -, -, rfl⟩ <;> rfl
  let slab' : FileSlab := { w.slab with fileSet := { w.slab.fileSet with pagecache := c' } }
  have index : (w.queue slab' a).pendIndex = w.pendIndex := by
    rw [w.pendIndex_queue slab' a, Worker.onIndex_of_read isRead]
  have files : (w.queue slab' a).pendDisk = w.pendDisk := by
    rw [w.pendDisk_queue slab' rfl a, performDisk_of_read isRead]
  -- in its turn the read sees every callback queued before it: that is all of `pendData`
  have turn : (w.queue slab' a).pendData =
      w.ioQueue.foldl (Aio.onData (w.queue slab' a).page) (w.queue slab' a).loadedData := by
    rw [Worker.pendData, Worker.queue_ioQueue, List.foldl_append, List.foldl_cons, List.foldl_nil,
      Worker.onData_of_read isRead]
  obtain ⟨item, inPage, inside⟩ := owned_item_cached (sound.read isRead c') cached'
    (by rw [index]; exact found) stored bound
  rw [files] at inside
  have success : (a.stamp w.pendDisk).success = true := by
    rcases shape with ⟨e, -, -, rfl⟩ | ⟨e, -, -, rfl⟩
    · rfl
    · have low : pageSize * (s.off / pageSize) ≤ s.off := Nat.mul_div_le ..
      simp only [Aio.stamp, Aio.toLoad, Aio.performEvent, Aio.success, if_true, ByteFile.preadCount,
        decide_eq_true_eq]
      have positive : 0 < min pageSize ((w.pendDisk s.file).size - pageSize * (s.off / pageSize)) := by
        simp only [pageSize] at *
        omega
      exact Int.natCast_pos.mpr positive
  have allocated : ent < c'.usedPage := (cached'.wf.bound _ _ bound).1
  have pages : ∀ ent < w.pagecache.usedPage, (w.queue slab' a).page ent = ent * pageSize := by
    intro ent inside
    rcases shape with ⟨e, rfl, rfl, rfl⟩ | ⟨e, rfl, made, rfl⟩
    · have relinked := (PageCache.lookup_spec cached.wf truthful lookup).2.1
      exact (relinked.page ent).trans (cached.wf.page ent inside)
    · obtain ⟨rfl, missed⟩ := PageCache.lookup_miss lookup
      obtain ⟨wf', claimed⟩ := PageCache.newEntry_claimed cached.wf (truthful missed) made
      exact wf'.page ent (lt_of_lt_of_le inside (claimed_allocated cached.wf claimed).1)
  show ReadsFind (w.queue slab' a) P
  refine reads.append rfl rfl ?_ ?_ fun _ => ⟨by rw [batch], key, value, ?_,
    ⟨ent, allocated, frame⟩, by rw [readOff]; exact inPage, success, ?_⟩
  · rcases shape with ⟨e, rfl, rfl, rfl⟩ | ⟨e, rfl, made, rfl⟩
    · exact (PageCache.lookup_spec cached.wf truthful lookup).2.1.usedPage.ge
    · obtain ⟨rfl, missed⟩ := PageCache.lookup_miss lookup
      exact (claimed_allocated cached.wf (PageCache.newEntry_claimed cached.wf (truthful missed) made).2).1
  · intro before b after split bRead i inRange
    rcases shape with ⟨e, rfl, rfl, rfl⟩ | ⟨e, rfl, made, rfl⟩
    · have relinked := (PageCache.lookup_spec cached.wf truthful lookup).2.1
      rw [Worker.loadedData_queue slab' _ rfl relinked.data, foldl_onData_same cached pages split]
      rfl
    · obtain ⟨rfl, missed⟩ := PageCache.lookup_miss lookup
      obtain ⟨wf', claimed⟩ := PageCache.newEntry_claimed cached.wf (truthful missed) made
      obtain ⟨more, inCache⟩ := claimed_allocated cached.wf claimed
      obtain ⟨-, _, _, -, ⟨entB, inB, frameB⟩, -⟩ := reads before b after split bRead
      have differ := claimed_unread cached (quiet missed) claimed (by simp [split]) bRead inB frameB
      have short : ((w.pendDisk s.file).pread pageSize (pageSize * (s.off / pageSize))).length ≤ pageSize := by
        rw [ByteFile.length_pread]
        exact Nat.min_le_left ..
      have idle : FrameIdle w.page before (e * pageSize) := fun x inBefore =>
        cached.claimed_idle (quiet missed).evictSafe claimed x (by simp [split, inBefore])
      have frameE : (c'.entry e).page = e * pageSize := wf'.page e inCache
      have loaded : (w.queue slab' (((w.blankAio id).addCallback .fileSlabRead).toLoad s.file s.size s.off
          e (c'.entry e).page)).loadedData = blit w.loadedData (e * pageSize)
          ((w.pendDisk s.file).pread pageSize (pageSize * (s.off / pageSize))) := by
        rw [Worker.loadedData_queue slab' _ rfl claimed.data]
        simp [Aio.load, Aio.toLoad, Aio.performMemory, frameE]
      rw [loaded, foldl_onData_same cached pages split, foldl_onData_blit short before _ idle, frameB]
      have apart : entB * pageSize + i < e * pageSize + 0 ∨ e * pageSize + 0 +
          ((w.pendDisk s.file).pread pageSize (pageSize * (s.off / pageSize))).length ≤
            entB * pageSize + i :=
        frame_apart differ inRange (by rw [Nat.zero_add]; exact short)
      rw [Nat.add_zero] at apart
      exact blit_outside _ apart
  · rw [batch]
    exact allowed
  · rw [← turn, frame, readOff]
    exact item

/-! ## Where values come from -/

/-- A PUT or UPDATE of `key` with this value is among the requests. -/
def Written (reqs : List Request) (key value : Slice) : Prop :=
  .put key value ∈ reqs ∨ .update key value ∈ reqs

theorem Written.append {reqs : List Request} {key value : Slice} (written : Written reqs key value)
    (more : List Request) : Written (reqs ++ more) key value :=
  written.imp (List.mem_append_left _) (List.mem_append_left _)

/-- A request adds its own value to the contents, if any. -/
theorem Worker.expect_known {w : Worker} {m : Contents} {req : Request} {key value : Slice}
    (expected : w.expect m req key = some value) :
    m key = some value ∨ req = .put key value ∨ req = .update key value := by
  cases req with
  | get k => exact Or.inl expected
  | put k v =>
      simp only [Worker.expect] at expected
      split at expected
      · exact Or.inl expected
      · by_cases same : key = k
        · subst same
          rw [Function.update_self] at expected
          cases old : m key with
          | none =>
              rw [old, Option.getD_none, Option.some.injEq] at expected
              exact Or.inr (Or.inl (expected ▸ rfl))
          | some value' =>
              rw [old, Option.getD_some] at expected
              exact Or.inl expected
        · rw [Function.update_of_ne same] at expected
          exact Or.inl expected
  | update k v =>
      simp only [Worker.expect] at expected
      split at expected
      · by_cases same : key = k
        · subst same
          rw [Function.update_self, Option.some.injEq] at expected
          exact Or.inr (Or.inr (expected ▸ rfl))
        · rw [Function.update_of_ne same] at expected
          exact Or.inl expected
      · exact Or.inl expected
  | delete k =>
      simp only [Worker.expect] at expected
      split at expected
      · by_cases same : key = k
        · rw [same, Function.update_self] at expected
          cases expected
        · rw [Function.update_of_ne same] at expected
          exact Or.inl expected
      · exact Or.inl expected
  | scan minKey maxKey callback tag => exact Or.inl expected

/-- The condition under which a request cannot make a GET return a foreign value. -/
def Worker.GetSafe (w : Worker) (req : Request) : Prop :=
  (req.isPoint = true ∧ w.Fits req) ∧ w.SlabSafe req ∧ w.LookSafe req ∧
    match req with
    | .get key => ∀ s ∈ w.index[key]?, w.deleting key = false ∧
        (w.pagecache.find (pageHash s.file (s.off / pageSize)) = none → w.EvictQuiet)
    | _ => True

instance (w : Worker) (req : Request) : Decidable (w.GetSafe req) := by
  unfold Worker.GetSafe
  cases req <;> infer_instance

/-- The invariant of a round in progress after the requests `history`. -/
structure Known (history : List Request) (t : Taking) (m : Contents) : Prop where
  sound : Sound t.worker m
  cached : Cached t.worker (Items t.worker m)
  known : ∀ key value, m key = some value → Written (history ++ t.seen) key value
  reads : ReadsFind t.worker fun id key value =>
    t.seen[id]? = some (.get key) ∧ Written (history ++ t.seen.take id) key value
  writes : ∀ a ∈ t.worker.ioQueue, a.opcode = .pwrite → a.batch.requests = []
  refused : ∀ effect ∈ t.effects, ∃ i res, effect = .respond i none res

theorem ReadsFind.processed {w w' : Worker} {m : Contents} {P : Nat → Slice → Slice → Prop}
    {id : Nat} {req : Request} {new : List Effect} (sound : Sound w m)
    (cached : Cached w (Items w m)) (reads : ReadsFind w P) (safe : w.GetSafe req)
    (allowed : ∀ key value, req = .get key → m key = some value → P id key value)
    (processed : Processed w id req w' new) :
    ReadsFind w' P ∧ (∀ a ∈ w'.ioQueue, a ∈ w.ioQueue ∨ a.batch.requests = []) ∧
      ∀ effect ∈ new, ∃ i res, effect = .respond i none res := by
  obtain ⟨⟨point, fits⟩, slabSafe, look, current⟩ := safe
  have snoc : ∀ (fs : FileSlab) (a : Aio), a.batch.requests = [] →
      ∀ b ∈ (w.queue fs a).ioQueue, b ∈ w.ioQueue ∨ b.batch.requests = [] := by
    intro fs a empty b member
    rcases List.mem_append.mp member with old | late
    · exact Or.inl old
    · rw [List.mem_singleton.mp late]
      exact Or.inr empty
  have noEffects : ∀ effect ∈ ([] : List Effect), ∃ i res, effect = .respond i none res :=
    fun effect member => absurd member List.not_mem_nil
  cases processed with
  | refused reason =>
      exact ⟨reads, fun a => Or.inl, fun effect member => ⟨_, _, List.mem_singleton.mp member⟩⟩
  | get found queued =>
      rename_i key s a fs
      obtain ⟨kept, quiet⟩ := current s found
      have pending := Worker.pendIndex_of_some found kept
      obtain ⟨value, stored, -⟩ := sound.owner key s pending
      refine ⟨reads.get sound cached pending stored (allowed key value rfl stored) queued
        (look s found).1 quiet, snoc _ a ?_, noEffects⟩
      obtain ⟨-, hit, c, c', -, rfl, ⟨ent, -, -, rfl⟩ | ⟨ent, -, -, rfl⟩⟩ :=
        LocalFileSet.read_eq_some queued <;> rfl
  | put absent created queued =>
      have truthful := look absent _ created
      refine ⟨reads.write cached _ (createIn_files created).1 (createIn_disk sound.blank created).1
        truthful queued, snoc _ _ ?_, noEffects⟩
      obtain ⟨-, hit, c, -, rfl, rfl⟩ := LocalFileSet.write_eq_some queued
      rfl
  | update found queued =>
      refine ⟨reads.write cached w.slab.slabs rfl rfl (look _ found) queued, snoc _ _ ?_, noEffects⟩
      obtain ⟨-, hit, c, -, rfl, rfl⟩ := LocalFileSet.write_eq_some queued
      rfl
  | delete found freed queued =>
      refine ⟨reads.write cached _ rfl rfl (look _ found) queued, snoc _ _ ?_, noEffects⟩
      obtain ⟨-, hit, c, -, rfl, rfl⟩ := LocalFileSet.write_eq_some queued
      rfl
  | scan scanned => cases point

theorem Known.step {history : List Request} {t t' : Taking} {m : Contents} {req : Request}
    {new : List Effect} (known : Known history t m) (safe : t.worker.GetSafe req)
    (processed : Processed t.worker t.seen.length req t'.worker new)
    (seen : t'.seen = t.seen ++ [req]) (effects : t'.effects = t.effects ++ new) :
    Known history t' (t.worker.expect m req) := by
  have kept : ReadsFind t.worker fun id key value =>
      t'.seen[id]? = some (.get key) ∧ Written (history ++ t'.seen.take id) key value := by
    refine known.reads.mono fun id key value allowed => ?_
    have inside := (List.getElem?_eq_some_iff.mp allowed.1).1
    rw [seen, List.getElem?_append_left inside, List.take_append_of_le_length (by omega)]
    exact allowed
  have allowed : ∀ key value, req = .get key → m key = some value →
      t'.seen[t.seen.length]? = some (.get key) ∧
        Written (history ++ t'.seen.take t.seen.length) key value := by
    rintro key value rfl stored
    rw [seen, List.take_left]
    exact ⟨by simp, known.known key value stored⟩
  obtain ⟨reads, queue, quiet⟩ :=
    kept.processed known.sound known.cached safe allowed processed
  obtain ⟨⟨point, fits⟩, slabSafe, look, current⟩ := safe
  refine ⟨known.sound.processed fits slabSafe processed, ?_, ?_, reads, ?_, ?_⟩
  · refine items_processed known.sound known.cached point fits slabSafe look ?_ processed
    rintro key s rfl found
    exact (current s found).1
  · intro key value expected
    rw [seen, ← List.append_assoc]
    rcases Worker.expect_known expected with old | rfl | rfl
    · exact (known.known key value old).append _
    · exact Or.inl (by simp)
    · exact Or.inr (by simp)
  · intro a member isWrite
    rcases queue a member with old | empty
    · exact known.writes a old isWrite
    · exact empty
  · intro effect member
    rw [effects] at member
    rcases List.mem_append.mp member with old | late
    · exact known.refused effect old
    · exact quiet effect late

/-! ## Runs -/

/-- Every GET answered with a value got one that was sent for its key before it. -/
def Session.Genuine (s : Session) : Prop :=
  ∀ i key value, s.log[i]? = some (.get key, some (some value, 0)) →
    Written ((s.log.take i).map Prod.fst) key value

/-- A read that succeeds on an item delivers the item's value. -/
theorem answer_of_item {a : Aio} {disk : Disk} {memory : Memory} {key value : Slice}
    (isRead : a.opcode = .pread) (empty : a.batch.requests = [])
    (success : (a.stamp disk).success = true)
    (item : ItemAt memory (a.frame + a.readOff) key value) :
    a.answer disk memory = .respond a.batch.id (some value) 0 := by
  obtain ⟨keyWord, valueWord, bytes⟩ := item.parts
  have batch : (a.stamp disk).batch = a.batch := by unfold Aio.stamp; split <;> rfl
  have same : (a.stamp disk).valueAt memory = a.valueAt memory := by unfold Aio.stamp; split <;> rfl
  have delivered : a.valueAt memory = value := by
    simp only [Aio.valueAt, keyWord, valueWord]
    rw [show a.frame + (a.readOff + 6 + key.length) = a.frame + a.readOff + 6 + key.length by omega]
    exact bytes
  simp only [Aio.answer, isRead, Batch.finishRequest, batch, empty, List.isEmpty_nil, if_true, success,
    same, delivered, Aio.result]

theorem Known.start {s : Session} {m : Contents} (sound : Sound s.worker m)
    (cached : Cached s.worker (Items s.worker m)) (between : s.worker.ioQueue = [])
    (known : ∀ key value, m key = some value → Written (s.log.map Prod.fst) key value) :
    Known (s.log.map Prod.fst) s.worker.taking m := by
  refine ⟨sound, cached, ?_, ?_, ?_, fun effect member => absurd member List.not_mem_nil⟩
  · rw [show s.worker.taking.seen = [] from rfl, List.append_nil]
    exact known
  · intro before a after split
    rw [show s.worker.taking.worker.ioQueue = [] from between] at split
    simp at split
  · rw [show s.worker.taking.worker.ioQueue = [] from between]
    exact fun a member => absurd member List.not_mem_nil

/-- The answers of a round whose queued reads all find items. -/
theorem Known.genuine {history : List Request} {t : Taking} {m : Contents} (known : Known history t m)
    {i : Nat} {key value : Slice} (request : t.seen[i]? = some (.get key))
    (answer : answerTo i (t.effects ++ answers t.worker.page t.worker.ioQueue t.worker.disk
      t.worker.loadedData) = some (some value, 0)) :
    Written (history ++ t.seen.take i) key value := by
  rcases List.mem_append.mp (respond_of_answerTo answer) with early | late
  · obtain ⟨_, _, shape⟩ := known.refused _ early
    cases shape
  · obtain ⟨before, a, after, split, shape⟩ := mem_answers late
    have inQueue : a ∈ t.worker.ioQueue := by simp [split]
    rcases known.sound.prepared a inQueue with isRead | isWrite
    · obtain ⟨empty, key', value', ⟨request', written⟩, finds⟩ :=
        known.reads before a after split isRead.opcode
      rw [answer_of_item isRead.opcode empty finds.success finds.item, Effect.respond.injEq,
        Option.some.injEq] at shape
      obtain ⟨rfl, rfl, -⟩ := shape
      rw [request, Option.some.injEq, Request.get.injEq] at request'
      subst request'
      exact written
    · rw [answer_of_write isWrite (known.writes a inQueue isWrite.opcode)] at shape
      cases shape

/-- The state of a session between rounds. -/
structure Session.Kept (s : Session) (m : Contents) : Prop where
  sound : Sound s.worker m
  cached : Cached s.worker (Items s.worker m)
  between : s.worker.ioQueue = []
  known : ∀ key value, m key = some value → Written (s.log.map Prod.fst) key value
  genuine : s.Genuine

theorem Session.Kept.next {s s' : Session} {m : Contents} {reqs : List Request} {u : Unit}
    (kept : s.Kept m) (ok : RoundOk Worker.GetSafe s.worker reqs)
    (taken : s.next reqs = some (s', u)) : ∃ m', s'.Kept m' := by
  simp only [Session.next, Option.map_eq_some_iff, Prod.mk.injEq] at taken
  obtain ⟨⟨w', effects⟩, served, rfl, -⟩ := taken
  have step : ∀ {t t' : Taking} {req : Request} {new : List Effect},
      (∃ m, Known (s.log.map Prod.fst) t m) → t.worker.GetSafe req →
      Processed t.worker t.seen.length req t'.worker new → t'.seen = t.seen ++ [req] →
      t'.effects = t.effects ++ new → ∃ m, Known (s.log.map Prod.fst) t' m := by
    rintro t t' req new ⟨m, known⟩ safe processed seen effects
    exact ⟨_, known.step safe processed seen effects⟩
  obtain ⟨t, ⟨m', known⟩, rfl, rfl, rfl⟩ := serve_induction step
    ⟨m, Known.start kept.sound kept.cached kept.between kept.known⟩ ok served
  obtain ⟨-, -, -, -, index, -, -, queue, settled⟩ := t.worker.settle_spec known.sound.prepared
  have requests : (answered t.seen (t.effects ++ (t.worker.settle .inOrder).2)).map Prod.fst = t.seen := by
    apply List.ext_getElem <;> simp [answered]
  refine ⟨m', known.sound.settled, known.cached.settled.shrink ?_, queue, ?_, ?_⟩
  · rintro f o ⟨key, slab, value, found, rest⟩
    rw [Worker.pendIndex, queue, List.foldl_nil, index] at found
    exact ⟨key, slab, value, found, rest⟩
  · simp only [List.map_append, requests]
    exact known.known
  · intro i key value found
    simp only at found ⊢
    rw [List.getElem?_append] at found
    split at found
    · rw [List.take_append_of_le_length (by omega)]
      exact kept.genuine i key value found
    · rename_i past
      -- an answer of this round
      rw [answered, List.getElem?_mapIdx, Option.map_eq_some_iff] at found
      obtain ⟨req, request, shape⟩ := found
      simp only [Prod.mk.injEq] at shape
      obtain ⟨rfl, answer⟩ := shape
      rw [settled] at answer
      have written := known.genuine request answer
      have split : i = s.log.length + (i - s.log.length) := by omega
      rw [split, List.take_length_add_append, List.map_append, List.map_take, requests]
      exact written

/-- **Value provenance**, in every run whose requests are `GetSafe` when processed. -/
theorem genuine_of_run (id : Nat) (workDir : String) (pages : Nat) (junk : Memory)
    {rounds : List (List Request)} {s : Session} {outs : List Unit}
    (ok : Run.Along Session.next (fun s => RoundOk Worker.GetSafe s.worker)
      (.new id workDir pages junk) rounds)
    (ran : Run.run Session.next (.new id workDir pages junk) rounds = some (s, outs)) :
    s.Genuine := by
  have preserved : ∀ (s : Session) (reqs : List Request) (s' : Session) (u : Unit),
      (∃ m, s.Kept m) → RoundOk Worker.GetSafe s.worker reqs → s.next reqs = some (s', u) →
      ∃ m, s'.Kept m := by
    rintro s reqs s' u ⟨m, kept⟩ ok taken
    exact kept.next ok taken
  have start : (Session.new id workDir pages junk).Kept fun _ => none := by
    refine ⟨.new id workDir pages junk, (Cached.new id workDir pages junk).shrink ?_, rfl, ?_, ?_⟩
    · rintro f o ⟨_, _, _, -, stored, -⟩
      cases stored
    · intro key value stored
      cases stored
    · intro i key value found
      simp [Session.new] at found
  obtain ⟨m, kept⟩ := Run.invariant preserved ⟨_, start⟩ ok ran
  exact kept.genuine

theorem genuine_of_run_example :
    ∃ s outs, Run.run Session.next (.new 0 "db" 2 fun _ => 0)
      [[.put [1] [2], .get [1]], [.update [1] [3], .get [1], .delete [1]], [.put [4] [5]], [.get [4]]] =
        some (s, outs) ∧ s.log[3]?.map Prod.snd = some (some (some [3], 0)) ∧ s.Genuine := by
  have ok : Run.Along Session.next (fun s => RoundOk Worker.GetSafe s.worker)
      (.new 0 "db" 2 fun _ => 0)
      [[.put [1] [2], .get [1]], [.update [1] [3], .get [1], .delete [1]], [.put [4] [5]], [.get [4]]] := by
    decide +kernel
  have ends : (Run.run Session.next (.new 0 "db" 2 fun _ => 0)
      [[.put [1] [2], .get [1]], [.update [1] [3], .get [1], .delete [1]], [.put [4] [5]],
        [.get [4]]]).map (fun out => out.1.log[3]?.map Prod.snd) = some (some (some (some [3], 0))) := by
    decide +kernel
  obtain ⟨⟨s, outs⟩, ran, answer⟩ := Option.map_eq_some_iff.mp ends
  exact ⟨s, outs, ran, answer, genuine_of_run 0 "db" 2 (fun _ => 0) ok ran⟩

instance (reqs : List Request) (key value : Slice) : Decidable (Written reqs key value) :=
  decidable_of_iff (reqs.any fun req =>
    match req with
    | .put k v => k == key && v == value
    | .update k v => k == key && v == value
    | _ => false) (by
      rw [List.any_eq_true]
      constructor
      · rintro ⟨req, member, hit⟩
        cases req with
        | put k v =>
            simp only [Bool.and_eq_true, beq_iff_eq] at hit
            exact Or.inl (hit.1 ▸ hit.2 ▸ member)
        | update k v =>
            simp only [Bool.and_eq_true, beq_iff_eq] at hit
            exact Or.inr (hit.1 ▸ hit.2 ▸ member)
        | get k => cases hit
        | delete k => cases hit
        | scan minKey maxKey callback tag => cases hit
      · rintro (member | member)
        · exact ⟨_, member, by simp⟩
        · exact ⟨_, member, by simp⟩)

/-- The key of a GET. -/
def Request.getKey : Request → Option Slice
  | .get key => some key
  | _ => none

theorem Request.eq_get_of_getKey {req : Request} {key : Slice} (isGet : req.getKey = some key) :
    req = .get key := by
  cases req with
  | get k =>
      simp only [Request.getKey, Option.some.injEq] at isGet
      rw [isGet]
  | put k v => cases isGet
  | update k v => cases isGet
  | delete k => cases isGet
  | scan minKey maxKey callback tag => cases isGet

/-- DELETE of a key, PUT of another that takes its slab, GET of the deleted key: the
GET returns the other key's value. -/
theorem genuine_fails_on_reused_slab :
    ¬ ∀ (rounds : List (List Request)) (s : Session) (outs : List Unit),
      Run.Along Session.next
        (fun s => RoundOk (fun w req => req.isPoint = true ∧ w.Fits req) s.worker)
        (.new 0 "db" 2 fun _ => 0) rounds →
      Run.run Session.next (.new 0 "db" 2 fun _ => 0) rounds = some (s, outs) → s.Genuine := by
  intro claim
  let rounds : List (List Request) := [[.put [1] [2]], [.delete [1], .put [4] [5], .get [1]]]
  have ok : Run.Along Session.next
      (fun s => RoundOk (fun w req => req.isPoint = true ∧ w.Fits req) s.worker)
      (.new 0 "db" 2 fun _ => 0) rounds := by
    decide +kernel
  have answer : (Run.run Session.next (.new 0 "db" 2 fun _ => 0) rounds).map
      (fun out => out.1.log[3]?.map Prod.snd) = some (some (some (some [5], 0))) := by
    decide +kernel
  have key : (Run.run Session.next (.new 0 "db" 2 fun _ => 0) rounds).map
      (fun out => out.1.log[3]?.bind fun entry => Request.getKey entry.1) = some (some [1]) := by
    decide +kernel
  have foreign : (Run.run Session.next (.new 0 "db" 2 fun _ => 0) rounds).all
      (fun out => !decide (Written ((out.1.log.take 3).map Prod.fst) [1] [5])) = true := by
    decide +kernel
  obtain ⟨⟨s, outs⟩, ran, replied⟩ := Option.map_eq_some_iff.mp answer
  obtain ⟨⟨req, reply⟩, entry, rfl⟩ := Option.map_eq_some_iff.mp replied
  rw [ran, Option.map_some, Option.some.injEq, entry, Option.bind_some] at key
  rw [show req = .get [1] from Request.eq_get_of_getKey key] at entry
  rw [ran] at foreign
  simp only [Option.all_some, Bool.not_eq_true', decide_eq_false_iff_not] at foreign
  exact foreign (claim rounds s outs ok ran 3 [1] [5] entry)

end KTableFS.Kvengine
