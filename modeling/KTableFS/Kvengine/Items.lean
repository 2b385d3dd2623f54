/-
# Kvengine.Items -- the cached bytes of the items keys own

`Items w m` is the region of the bytes of owned items: what a client can observe of
the files.  It is smaller than the region below the files' ends, and that is what
makes it invariant without any condition on the gaps between items.

`items_processed` is the step lemma: with sound ownership, a request whose lookups
are truthful (`Worker.LookSafe`) keeps the region covered.  `ItemAt.cached` is how a
reader uses it: an owned item on disk is an item in the frame its page is bound to.
-/
import KTableFS.Kvengine.Coherence

namespace KTableFS.Kvengine

open KTableFS.Theory

set_option autoImplicit false

/-- The bytes of the items that keys will own. -/
def Items (w : Worker) (m : Contents) (f o : Nat) : Prop :=
  ∃ (key : Slice) (s : SlabT) (value : Slice), w.pendIndex[key]? = some s ∧ m key = some value ∧
    s.file = f ∧ s.off ≤ o ∧ o < s.off + itemSize key value

/-- Every lookup a request makes is truthful, and a load takes no frame a queued
callback writes to. -/
def Worker.LookSafe (w : Worker) : Request → Prop
  | .get key => ∀ s ∈ w.index[key]?, w.PageSafe s.file (s.off / pageSize)
  | .put key value => w.index[key]? = none →
      ∀ out ∈ FileSlab.createIn (itemSize key value) w.slab.slabs w.slab.fileSet,
        w.pagecache.Truthful (pageHash out.1.file (out.1.off / pageSize))
  | .update key _ => ∀ s ∈ w.index[key]?, w.pagecache.Truthful (pageHash s.file (s.off / pageSize))
  | .delete key => ∀ s ∈ w.index[key]?, w.pagecache.Truthful (pageHash s.file (s.off / pageSize))
  | .scan minKey maxKey _ _ => w.ScanSafe minKey maxKey

instance (w : Worker) : (req : Request) → Decidable (w.LookSafe req)
  | .get key => inferInstanceAs (Decidable (∀ s ∈ w.index[key]?, _))
  | .put key _ => inferInstanceAs (Decidable (w.index[key]? = none → ∀ out ∈ FileSlab.createIn .., _))
  | .update key _ => inferInstanceAs (Decidable (∀ s ∈ w.index[key]?, _))
  | .delete key => inferInstanceAs (Decidable (∀ s ∈ w.index[key]?, _))
  | .scan .. => inferInstanceAs (Decidable (Run.Along ..))

/-- An item in one page that is coherent byte for byte lies in the page's frame. -/
theorem ItemAt.cached {w : Worker} {f off ent : Nat} {key value : Slice}
    (item : ItemAt (w.pendDisk f).byte off key value)
    (bound : w.pagecache.index (pageHash f (off / pageSize)) = some ent)
    (inPage : off % pageSize + itemSize key value ≤ pageSize)
    (coherent : ∀ o, off ≤ o → o < off + itemSize key value → CoherentAt w f o) :
    ItemAt w.pendData (ent * pageSize + off % pageSize) key value := by
  apply item.congr
  intro i inside
  have number : (off + i) / pageSize = off / pageSize := by
    simp only [pageSize] at *
    omega
  have rest : (off + i) % pageSize = off % pageSize + i := by
    simp only [pageSize] at *
    omega
  have byte := coherent (off + i) (Nat.le_add_right ..) (by omega) ent (by rw [number]; exact bound)
  rw [rest] at byte
  rw [Nat.add_assoc]
  exact byte

section Step

variable {w : Worker} {m : Contents} (sound : Sound w m) (cached : Cached w (Items w m))

include sound cached

/-- The owned item of a key is in the frame its page is bound to, and inside its file. -/
theorem owned_item_cached {key : Slice} {s : SlabT} {value : Slice}
    (found : w.pendIndex[key]? = some s) (stored : m key = some value) {ent : Nat}
    (bound : w.pagecache.index (pageHash s.file (s.off / pageSize)) = some ent) :
    ItemAt w.pendData (ent * pageSize + s.off % pageSize) key value ∧
      s.off % pageSize + itemSize key value ≤ pageSize ∧ s.off < (w.pendDisk s.file).size := by
  obtain ⟨value', stored', owns⟩ := sound.owner key s found
  rw [stored] at stored'
  cases stored'
  have page := owns.issued.in_page sound.alloc
  have fits := owns.fits
  have positive : 0 < itemSize key value := by simp [itemSize]
  refine ⟨owns.item.cached bound (by omega) fun o low high =>
    cached.coherent _ o ⟨key, s, value, found, stored, rfl, low, high⟩, by omega, ?_⟩
  exact (cached.region _ s.off ⟨key, s, value, found, stored, rfl, le_rfl, by omega⟩).2.2

theorem items_get {id : Nat} {s : SlabT} {a : Aio} {fs : LocalFileSet}
    (issued : Issued w.slab.slabs s)
    (queued : w.slab.fileSet.read s.file s.size s.off ((w.blankAio id).addCallback .fileSlabRead) =
      some (a, fs)) (safe : w.PageSafe s.file (s.off / pageSize)) :
    Cached (w.queue { w.slab with fileSet := fs } a)
        (Items (w.queue { w.slab with fileSet := fs } a) m) ∧
      ∃ ent, fs.pagecache.index (pageHash s.file (s.off / pageSize)) = some ent ∧
        a.frame = ent * pageSize ∧ a.readOff = s.off % pageSize := by
  have file : s.file < 2 ^ 16 := lt_of_le_of_lt (issued.bounds sound.alloc).2.2.2 sound.alloc.narrow
  obtain ⟨cached', frame⟩ := cached.read queued safe file s.off_lt
  refine ⟨cached'.shrink ?_, frame⟩
  have isRead : a.IsRead := by
    obtain ⟨-, hit, c, c', -, rfl, ⟨ent, -, -, rfl⟩ | ⟨ent, -, -, rfl⟩⟩ :=
      LocalFileSet.read_eq_some queued
    · exact Worker.toFake_isRead ..
    · exact Worker.toLoad_isRead ..
  have index := w.pendIndex_queue { w.slab with fileSet := fs } a
  rw [Worker.onIndex_of_read isRead] at index
  rintro f o ⟨key, s, value, found, rest⟩
  exact ⟨key, s, value, index ▸ found, rest⟩

theorem items_put {id : Nat} {key value : Slice} {slab : SlabT} {slabs : List SingleFileSlab}
    {fs fs' : LocalFileSet} {a : Aio}
    (created : FileSlab.createIn (itemSize key value) w.slab.slabs w.slab.fileSet =
      some (slab, slabs, fs))
    (queued : fs.write slab.file (itemBytes key value) slab.off
      ((w.blankAio id).addCallback (.put key slab)) = some (a, fs'))
    (truthful : w.pagecache.Truthful (pageHash slab.file (slab.off / pageSize))) :
    Cached (w.queue ⟨fs', slabs⟩ a)
      (Items (w.queue ⟨fs', slabs⟩ a) (Function.update m key (some ((m key).getD value)))) := by
  have written := queued
  obtain ⟨has, hit, c, -, rfl, rfl⟩ := LocalFileSet.write_eq_some queued
  obtain ⟨sameDisk, -⟩ := createIn_disk sound.blank created
  obtain ⟨alloc, issued, fits, -⟩ :=
    createIn_spec sound.alloc created (createIn_narrow created sound.alloc.narrow has)
  have bounds := issued.bounds alloc
  have length := length_itemBytes (narrow_of_itemSize fits bounds.2.1)
  have page := issued.in_page alloc
  have index := w.pendIndex_queue ⟨{ fs with pagecache := c }, slabs⟩
    (((w.blankAio id).addCallback (.put key slab)).toWrite slab.file (itemBytes key value) slab.off hit)
  rw [Worker.onIndex_toWrite] at index
  change _ = w.pendIndex.insertIfNew key slab at index
  refine cached.write slabs (createIn_files created).1 sameDisk
    (by simp [Aio.addCallback, Worker.blankAio, Aio.new]) written truthful
    (lt_of_le_of_lt bounds.2.2.2 alloc.narrow) slab.off_lt (by omega) (itemBytes_ne_nil key value) ?_
  rintro f o ⟨key', s, value', found, stored, rfl, low, high⟩
  rw [index, getElem?_insertIfNew] at found
  split at found
  · rename_i new
    obtain ⟨rfl, absent⟩ := new
    cases found
    rw [Function.update_self, sound.absent key absent, Option.getD_none, Option.some.injEq] at stored
    subst stored
    exact Or.inr ⟨rfl, by omega, Or.inl low⟩
  · left
    refine ⟨key', s, value', found, ?_, rfl, low, high⟩
    by_cases same : key' = key
    · subst same
      obtain ⟨old, present, -⟩ := sound.owner key' s found
      rw [Function.update_self, present] at stored
      rw [present]
      exact stored
    · rwa [Function.update_of_ne same] at stored

theorem items_update {id : Nat} {key value : Slice} {slab : SlabT} {fs : LocalFileSet} {a : Aio}
    (found : w.index[key]? = some slab) (fits : itemSize key value ≤ slab.size)
    (safe : w.deleting key = true → Free w.slab.slabs slab)
    (queued : w.slab.fileSet.write slab.file (itemBytes key value) slab.off (w.blankAio id) =
      some (a, fs))
    (truthful : w.pagecache.Truthful (pageHash slab.file (slab.off / pageSize))) :
    Cached (w.queue { w.slab with fileSet := fs } a)
      (Items (w.queue { w.slab with fileSet := fs } a)
        (if w.deleting key = false then Function.update m key (some value) else m)) := by
  have written := queued
  obtain ⟨has, hit, c, -, rfl, rfl⟩ := LocalFileSet.write_eq_some queued
  have issued := sound.issued_of_found found safe
  have bounds := issued.bounds sound.alloc
  have length := length_itemBytes (narrow_of_itemSize fits bounds.2.1)
  have page := issued.in_page sound.alloc
  have index := w.pendIndex_queue { w.slab with fileSet := { w.slab.fileSet with pagecache := c } }
    ((w.blankAio id).toWrite slab.file (itemBytes key value) slab.off hit)
  rw [Worker.onIndex_toWrite] at index
  change _ = w.pendIndex at index
  refine cached.write w.slab.slabs rfl rfl (by simp [Worker.blankAio, Aio.new]) written truthful
    (lt_of_le_of_lt bounds.2.2.2 sound.alloc.narrow) slab.off_lt (by omega)
    (itemBytes_ne_nil key value) ?_
  rintro f o ⟨key', s, value', inIndex, stored, rfl, low, high⟩
  rw [index] at inIndex
  split at stored
  · rename_i kept
    by_cases same : key' = key
    · subst same
      rw [Worker.pendIndex_of_some found kept] at inIndex
      cases inIndex
      rw [Function.update_self, Option.some.injEq] at stored
      subst stored
      exact Or.inr ⟨rfl, by omega, Or.inl low⟩
    · rw [Function.update_of_ne same] at stored
      exact Or.inl ⟨key', s, value', inIndex, stored, rfl, low, high⟩
  · exact Or.inl ⟨key', s, value', inIndex, stored, rfl, low, high⟩

theorem items_delete {id : Nat} {key : Slice} {slab : SlabT} {slabs : List SingleFileSlab}
    {fs : LocalFileSet} {a : Aio} (found : w.index[key]? = some slab)
    (safe : w.deleting key = false)
    (queued : w.slab.fileSet.write slab.file (storeLE 8 0) slab.off
      ((w.blankAio id).addCallback (.delete key)) = some (a, fs))
    (truthful : w.pagecache.Truthful (pageHash slab.file (slab.off / pageSize))) :
    Cached (w.queue ⟨fs, slabs⟩ a) (Items (w.queue ⟨fs, slabs⟩ a) (Function.update m key none)) := by
  have written := queued
  obtain ⟨has, hit, c, -, rfl, rfl⟩ := LocalFileSet.write_eq_some queued
  have issued := sound.issued_of_found found fun deleting => by
    rw [safe] at deleting
    cases deleting
  have bounds := issued.bounds sound.alloc
  have page := issued.in_page sound.alloc
  have index := w.pendIndex_queue ⟨{ w.slab.fileSet with pagecache := c }, slabs⟩
    (((w.blankAio id).addCallback (.delete key)).toWrite slab.file (storeLE 8 0) slab.off hit)
  rw [Worker.onIndex_toWrite] at index
  change _ = w.pendIndex.erase key at index
  refine cached.write slabs rfl rfl (by simp [Aio.addCallback, Worker.blankAio, Aio.new]) written
    truthful (lt_of_le_of_lt bounds.2.2.2 sound.alloc.narrow) slab.off_lt
    (by rw [length_storeLE]; omega) (by decide) ?_
  rintro f o ⟨key', s, value', inIndex, stored, rfl, low, high⟩
  rw [index, getElem?_erase] at inIndex
  split at inIndex
  · cases inIndex
  · rename_i differ
    rw [Function.update_of_ne (Ne.symm differ)] at stored
    exact Or.inl ⟨key', s, value', inIndex, stored, rfl, low, high⟩

/-- **One GET, PUT, UPDATE or DELETE keeps the owned items cached right.** -/
theorem items_processed {w' : Worker} {id : Nat} {req : Request} {effects : List Effect}
    (point : req.isPoint = true) (fits : w.Fits req) (slabSafe : w.SlabSafe req)
    (look : w.LookSafe req)
    (current : ∀ key s, req = .get key → w.index[key]? = some s → w.deleting key = false)
    (processed : Processed w id req w' effects) : Cached w' (Items w' (w.expect m req)) := by
  cases processed with
  | refused reason =>
      rw [Worker.expect_of_refused reason]
      exact cached
  | get found queued =>
      have issued := sound.issued_of_found found fun deleting => by
        rw [current _ _ rfl found] at deleting
        cases deleting
      exact (items_get sound cached issued queued (look _ found)).1
  | put absent created queued =>
      have truthful := look absent _ created
      simp only [Worker.expect, absent, Option.isSome_none, Bool.false_eq_true, if_false]
      exact items_put sound cached created queued truthful
  | update found queued =>
      simp only [Worker.expect, found, Option.isSome_some, true_and]
      exact items_update sound cached found (fits _ found) (slabSafe _ found) queued (look _ found)
  | delete found freed queued =>
      simp only [Worker.expect, found, Option.isSome_some, if_true]
      exact items_delete sound cached found (slabSafe (by simp [found])) queued (look _ found)
  | scan scanned => cases point

end Step

end KTableFS.Kvengine
