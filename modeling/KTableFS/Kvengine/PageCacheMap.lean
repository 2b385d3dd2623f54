/-
# Kvengine.PageCacheMap -- when the page cache is a map from pages to frames

The recency list only orders evictions; what a client of the cache relies on is
the map from page hashes to entries.  `Wf` says that this map is well defined:
every allocated entry is indexed under its own hash, every index entry is
allocated, and every pointer of the list is to an allocated entry.  `Wf` asks
nothing of the shape of the list, so it survives the bent lists `update` makes.

It does not survive a lookup that misses a page the index holds, which the walk
of the list can do when it meets a null pointer early.  `Truthful c hash` rules
this out for one lookup; under it

* `find_eq_index` -- `Lookup` returns what the index holds;
* `newEntry_index` -- `NewEntry` rebinds one hash, and unbinds at most the hash
  of the entry it reuses (`Claimed`).

Nothing but the list changes in an `update` (`Relinked`).
-/
import KTableFS.Kvengine.PageCache

namespace KTableFS.Kvengine.PageCache

open KTableFS.Theory

set_option autoImplicit false

/-! ## Operations on the list change the list only -/

/-- `c'` is `c` with other list pointers. -/
structure Relinked (c c' : PageCache) : Prop where
  data : c'.data = c.data
  index : c'.index = c.index
  usedPage : c'.usedPage = c.usedPage
  maxPage : c'.maxPage = c.maxPage
  page : ∀ e, (c'.entry e).page = (c.entry e).page
  hash : ∀ e, (c'.entry e).hash = (c.entry e).hash
  wait : ∀ e, (c'.entry e).wait = (c.entry e).wait
  valid : ∀ e, (c'.entry e).valid = (c.entry e).valid

theorem Relinked.refl (c : PageCache) : Relinked c c :=
  ⟨rfl, rfl, rfl, rfl, fun _ => rfl, fun _ => rfl, fun _ => rfl, fun _ => rfl⟩

theorem Relinked.trans {c c' c'' : PageCache} (first : Relinked c c') (second : Relinked c' c'') :
    Relinked c c'' where
  data := second.data.trans first.data
  index := second.index.trans first.index
  usedPage := second.usedPage.trans first.usedPage
  maxPage := second.maxPage.trans first.maxPage
  page e := (second.page e).trans (first.page e)
  hash e := (second.hash e).trans (first.hash e)
  wait e := (second.wait e).trans (first.wait e)
  valid e := (second.valid e).trans (first.valid e)

theorem modify_entry (c : PageCache) (ent e : Nat) (f : Entry → Entry) :
    (c.modify ent f).entry e = if e = ent then f (c.entry ent) else c.entry e := by
  simp only [modify, Function.update_apply]

theorem setNext_prev (c : PageCache) (ent : Nat) (next : Option Nat) (e : Nat) :
    ((c.setNext ent next).entry e).prev = (c.entry e).prev := by
  rw [setNext, modify_entry]
  split
  · next same => rw [same]
  · rfl

theorem modify_relinked (c : PageCache) (ent : Nat) (f : Entry → Entry)
    (keeps : (f (c.entry ent)).page = (c.entry ent).page ∧ (f (c.entry ent)).hash = (c.entry ent).hash ∧
      (f (c.entry ent)).wait = (c.entry ent).wait ∧ (f (c.entry ent)).valid = (c.entry ent).valid) :
    Relinked c (c.modify ent f) := by
  obtain ⟨page, hash, wait, valid⟩ := keeps
  refine ⟨rfl, rfl, rfl, rfl, ?_, ?_, ?_, ?_⟩ <;> intro e <;> rw [modify_entry] <;> split <;>
    simp_all

theorem setPrev_relinked (c : PageCache) (ent : Nat) (prev : Option Nat) :
    Relinked c (c.setPrev ent prev) :=
  c.modify_relinked ent _ ⟨rfl, rfl, rfl, rfl⟩

theorem setNext_relinked (c : PageCache) (ent : Nat) (next : Option Nat) :
    Relinked c (c.setNext ent next) :=
  c.modify_relinked ent _ ⟨rfl, rfl, rfl, rfl⟩

theorem ends_relinked (c : PageCache) (newest oldest : Option Nat) :
    Relinked c { c with newest := newest, oldest := oldest } :=
  ⟨rfl, rfl, rfl, rfl, fun _ => rfl, fun _ => rfl, fun _ => rfl, fun _ => rfl⟩

theorem dropOldest_relinked {c c' : PageCache} {ent : Nat} (dropped : c.dropOldest ent = some c') :
    Relinked c c' := by
  simp only [dropOldest, Option.map_eq_some_iff] at dropped
  obtain ⟨prev, -, rfl⟩ := dropped
  exact (c.ends_relinked c.newest (some prev)).trans (setNext_relinked _ prev none)

theorem pushNewest_relinked (c : PageCache) (ent newest : Nat) :
    Relinked c (c.pushNewest ent newest) :=
  ((c.setNext_relinked ent (some newest)).trans
    ((setPrev_relinked _ ent none).trans (setPrev_relinked _ newest (some ent)))).trans
      (ends_relinked _ (some ent) _)

theorem update_relinked {c c' : PageCache} {ent : Nat} (updated : c.update ent = some c') :
    Relinked c c' := by
  unfold update at updated
  split at updated
  · cases updated
    exact ((c.setPrev_relinked ent none).trans (setNext_relinked _ ent none)).trans
      (ends_relinked _ _ _)
  · rename_i newest _
    split at updated
    · cases updated
      exact .refl c
    · simp only [Option.map_eq_some_iff] at updated
      obtain ⟨mid, reached, rfl⟩ := updated
      refine Relinked.trans ?_ (mid.pushNewest_relinked ent newest)
      split at reached
      · exact dropOldest_relinked reached
      · cases reached
        exact .refl c

theorem unlink_relinked {c c' : PageCache} {ent : Nat} (unlinked : c.unlink ent = some c') :
    Relinked c c' := by
  unfold unlink at unlinked
  split at unlinked
  · exact dropOldest_relinked unlinked
  · split at unlinked
    · cases unlinked
    · rename_i prev _
      simp only [Option.map_eq_some_iff] at unlinked
      obtain ⟨next, -, rfl⟩ := unlinked
      exact (c.setNext_relinked prev _).trans (setPrev_relinked _ next _)

/-! ## The pointers of the list are to allocated entries -/

structure Linked (c : PageCache) : Prop where
  newest : ∀ e, c.newest = some e → e < c.usedPage
  oldest : ∀ e, c.oldest = some e → e < c.usedPage
  prev : ∀ e p, (c.entry e).prev = some p → p < c.usedPage
  next : ∀ e p, (c.entry e).next = some p → p < c.usedPage

theorem setPrev_linked {c : PageCache} (linked : c.Linked) (ent : Nat) {prev : Option Nat}
    (bound : ∀ p, prev = some p → p < c.usedPage) : (c.setPrev ent prev).Linked where
  newest := linked.newest
  oldest := linked.oldest
  prev e p found := by
    simp only [setPrev, modify_entry] at found
    split at found
    · exact bound p found
    · exact linked.prev e p found
  next e p found := by
    simp only [setPrev, modify_entry] at found
    split at found
    · exact linked.next ent p found
    · exact linked.next e p found

theorem setNext_linked {c : PageCache} (linked : c.Linked) (ent : Nat) {next : Option Nat}
    (bound : ∀ p, next = some p → p < c.usedPage) : (c.setNext ent next).Linked where
  newest := linked.newest
  oldest := linked.oldest
  prev e p found := by
    simp only [setNext, modify_entry] at found
    split at found
    · exact linked.prev ent p found
    · exact linked.prev e p found
  next e p found := by
    simp only [setNext, modify_entry] at found
    split at found
    · exact bound p found
    · exact linked.next e p found

theorem ends_linked {c : PageCache} (linked : c.Linked) {newest oldest : Option Nat}
    (newestBound : ∀ e, newest = some e → e < c.usedPage)
    (oldestBound : ∀ e, oldest = some e → e < c.usedPage) :
    Linked { c with newest := newest, oldest := oldest } :=
  ⟨newestBound, oldestBound, linked.prev, linked.next⟩

theorem some_bound {n ent : Nat} (allocated : ent < n) : ∀ p, some ent = some p → p < n := by
  rintro p ⟨⟩
  exact allocated

theorem none_bound {n : Nat} : ∀ p, (none : Option Nat) = some p → p < n := by
  rintro p ⟨⟩

theorem dropOldest_linked {c c' : PageCache} (linked : c.Linked) {ent : Nat}
    (dropped : c.dropOldest ent = some c') : c'.Linked := by
  simp only [dropOldest, Option.map_eq_some_iff] at dropped
  obtain ⟨prev, found, rfl⟩ := dropped
  have bound := linked.prev ent prev found
  exact setNext_linked (ends_linked linked linked.newest (some_bound bound)) prev none_bound

theorem pushNewest_linked {c : PageCache} (linked : c.Linked) {ent newest : Nat}
    (allocated : ent < c.usedPage) (newestAllocated : newest < c.usedPage) :
    (c.pushNewest ent newest).Linked := by
  have first := setNext_linked linked ent (some_bound newestAllocated)
  have second : ((c.setNext ent (some newest)).setPrev ent none).Linked :=
    setPrev_linked first ent none_bound
  have third := setPrev_linked second newest (some_bound (n := c.usedPage) allocated)
  exact ends_linked third (some_bound (n := c.usedPage) allocated) third.oldest

theorem update_linked {c c' : PageCache} (linked : c.Linked) {ent : Nat}
    (allocated : ent < c.usedPage) (updated : c.update ent = some c') : c'.Linked := by
  unfold update at updated
  split at updated
  · cases updated
    have first : (c.setPrev ent none).Linked := setPrev_linked linked ent none_bound
    have second : ((c.setPrev ent none).setNext ent none).Linked :=
      setNext_linked first ent none_bound
    exact ends_linked second (some_bound (n := c.usedPage) allocated)
      (some_bound (n := c.usedPage) allocated)
  · rename_i newest isNewest
    split at updated
    · cases updated
      exact linked
    · simp only [Option.map_eq_some_iff] at updated
      obtain ⟨mid, reached, rfl⟩ := updated
      have midFacts : mid.Linked ∧ mid.usedPage = c.usedPage := by
        split at reached
        · exact ⟨dropOldest_linked linked reached, (dropOldest_relinked reached).usedPage⟩
        · cases reached
          exact ⟨linked, rfl⟩
      apply pushNewest_linked midFacts.1
      · rw [midFacts.2]
        exact allocated
      · rw [midFacts.2]
        exact linked.newest newest isNewest

theorem unlink_linked {c c' : PageCache} (linked : c.Linked) {ent : Nat}
    (unlinked : c.unlink ent = some c') : c'.Linked := by
  unfold unlink at unlinked
  split at unlinked
  · exact dropOldest_linked linked unlinked
  · split at unlinked
    · cases unlinked
    · rename_i prev found
      simp only [Option.map_eq_some_iff] at unlinked
      obtain ⟨next, nextFound, rfl⟩ := unlinked
      have first := setNext_linked linked prev (linked.next ent)
      exact setPrev_linked first next (first.prev ent)

theorem victimFrom_allocated {c : PageCache} (linked : c.Linked) :
    ∀ (fuel : Nat) {start : Option Nat}, (∀ e, start = some e → e < c.usedPage) →
      ∀ {ent : Nat}, c.victimFrom fuel start = some ent →
        ent < c.usedPage ∧ (c.entry ent).wait = false
  | 0, _, _, _, found => by simp [victimFrom] at found
  | _ + 1, none, _, _, found => by simp [victimFrom] at found
  | fuel + 1, some p, bound, ent, found => by
      have allocated := bound p rfl
      simp only [victimFrom] at found
      split at found
      · exact victimFrom_allocated linked fuel (linked.prev p) found
      · cases found
        exact ⟨allocated, by simpa using ‹¬ (c.entry p).wait = true›⟩

theorem victim_allocated {c : PageCache} (linked : c.Linked) {ent : Nat}
    (found : c.victim = some ent) : ent < c.usedPage ∧ (c.entry ent).wait = false :=
  victimFrom_allocated linked _ linked.oldest found

/-! ## The map -/

/-- The cache is a map from hashes to frames: the index binds every allocated entry
under its hash, and nothing else. -/
structure Wf (c : PageCache) : Prop extends Linked c where
  page : ∀ e, e < c.usedPage → (c.entry e).page = e * pageSize
  valid : ∀ e, e < c.usedPage → (c.entry e).valid = true
  indexed : ∀ e, e < c.usedPage → c.index (c.entry e).hash = some e
  bound : ∀ h e, c.index h = some e → e < c.usedPage ∧ (c.entry e).hash = h

/-- `Lookup(hash)` misses only a page the index does not hold. -/
def Truthful (c : PageCache) (hash : Nat) : Prop :=
  c.find hash = none → c.index hash = none

instance (c : PageCache) (hash : Nat) : Decidable (c.Truthful hash) :=
  inferInstanceAs (Decidable (_ → _))

theorem new_wf (pages : Nat) (junk : Memory) : (new pages junk).Wf where
  newest := none_bound
  oldest := none_bound
  prev _ := none_bound
  next _ := none_bound
  page _ allocated := absurd allocated (Nat.not_lt_zero _)
  valid _ allocated := absurd allocated (Nat.not_lt_zero _)
  indexed _ allocated := absurd allocated (Nat.not_lt_zero _)
  bound _ _ found := by simp [new] at found

theorem Wf.relinked {c c' : PageCache} (wf : c.Wf) (same : Relinked c c') (linked : c'.Linked) :
    c'.Wf where
  toLinked := linked
  page e allocated := by
    rw [same.usedPage] at allocated
    rw [same.page, wf.page e allocated]
  valid e allocated := by
    rw [same.usedPage] at allocated
    rw [same.valid, wf.valid e allocated]
  indexed e allocated := by
    rw [same.usedPage] at allocated
    rw [same.hash, same.index, wf.indexed e allocated]
  bound h e found := by
    rw [same.index] at found
    rw [same.usedPage, same.hash]
    exact wf.bound h e found

theorem walk_hit {c : PageCache} (linked : c.Linked) {hash : Nat} :
    ∀ (fuel : Nat) {start : Option Nat}, (∀ e, start = some e → e < c.usedPage) →
      ∀ {ent : Nat}, c.walk hash fuel start = .hit ent →
        ent < c.usedPage ∧ (c.entry ent).hash = hash
  | 0, _, _, _, hit => by simp [walk] at hit
  | _ + 1, none, _, _, hit => by simp [walk] at hit
  | fuel + 1, some p, allocated, ent, hit => by
      simp only [walk] at hit
      split at hit
      · cases hit
        exact ⟨allocated p rfl, ‹_ ∧ _›.2⟩
      · exact walk_hit linked fuel (linked.next p) hit

/-- What `Lookup` returns is bound in the index. -/
theorem find_index {c : PageCache} (wf : c.Wf) {hash ent : Nat} (found : c.find hash = some ent) :
    c.index hash = some ent := by
  unfold find at found
  split at found
  · rename_i p hit
    cases found
    obtain ⟨allocated, same⟩ := walk_hit wf.toLinked 20 wf.newest hit
    rw [← same]
    exact wf.indexed ent allocated
  · cases found
  · split at found
    · cases found
    · split at found
      · cases found
        assumption
      · cases found

/-- Under a truthful lookup the search is a read of the index. -/
theorem find_eq_index {c : PageCache} (wf : c.Wf) {hash : Nat} (truthful : c.Truthful hash) :
    c.find hash = c.index hash := by
  cases found : c.find hash with
  | none => exact (truthful found).symm
  | some ent => exact (find_index wf found).symm

/-- A truthful `Lookup` reads the index and changes the list only. -/
theorem lookup_spec {c c' : PageCache} (wf : c.Wf) {hash : Nat} (truthful : c.Truthful hash)
    {result : Option Nat} (looked : c.lookup hash = some (result, c')) :
    result = c.index hash ∧ Relinked c c' ∧ c'.Wf := by
  have search := find_eq_index wf truthful
  unfold lookup at looked
  split at looked
  · rename_i missed
    cases looked
    exact ⟨by rw [← search, missed], .refl c, wf⟩
  · rename_i ent found
    simp only [Option.map_eq_some_iff, Prod.mk.injEq] at looked
    obtain ⟨_, updated, rfl, rfl⟩ := looked
    have relinked := update_relinked updated
    have allocated := (wf.bound hash ent (find_index wf found)).1
    exact ⟨by rw [← search, found], relinked,
      wf.relinked relinked (update_linked wf.toLinked allocated updated)⟩

/-- A miss changes nothing. -/
theorem lookup_miss {c c' : PageCache} {hash : Nat} (missed : c.lookup hash = some (none, c')) :
    c' = c ∧ c.find hash = none := by
  unfold lookup at missed
  split at missed
  · rename_i none'
    cases missed
    exact ⟨rfl, none'⟩
  · simp at missed

/-! ## Taking an entry -/

/-- `NewEntry(hash)` gave `ent`: a fresh entry, or the victim, rebound to `hash`. -/
structure Claimed (c : PageCache) (hash ent : Nat) (c' : PageCache) : Prop where
  origin : ent = c.usedPage ∧ c'.usedPage = c.usedPage + 1 ∨
    c.maxPage ≤ c.usedPage ∧ c.victim = some ent ∧ c'.usedPage = c.usedPage
  data : c'.data = c.data
  maxPage : c'.maxPage = c.maxPage
  wait : (c'.entry ent).wait = true
  others : ∀ e, e ≠ ent → (c'.entry e).wait = (c.entry e).wait
  index : ∀ h e, c'.index h = some e ↔ h = hash ∧ e = ent ∨ e ≠ ent ∧ c.index h = some e

/-- Well formed, but for `ent`, which is allocated and not bound. -/
structure Vacant (c : PageCache) (ent : Nat) : Prop extends Linked c where
  allocated : ent < c.usedPage
  page : ∀ e, e < c.usedPage → (c.entry e).page = e * pageSize
  valid : ∀ e, e < c.usedPage → e ≠ ent → (c.entry e).valid = true
  indexed : ∀ e, e < c.usedPage → e ≠ ent → c.index (c.entry e).hash = some e
  bound : ∀ h e, c.index h = some e → e < c.usedPage ∧ e ≠ ent ∧ (c.entry e).hash = h

theorem install_entry (c : PageCache) (ent hash e : Nat) : (c.install ent hash).entry e =
    if e = ent then { c.entry ent with hash := hash, valid := true, wait := true }
    else c.entry e :=
  c.modify_entry ent e fun e => { e with hash := hash, valid := true, wait := true }

theorem Vacant.install {c : PageCache} {ent : Nat} (vacant : c.Vacant ent) {hash : Nat}
    (absent : c.index hash = none) : (c.install ent hash).Wf := by
  have entryOf := c.install_entry ent hash
  have indexOf : (c.install ent hash).index = Function.update c.index hash (some ent) := by
    simp [PageCache.install, absent]
  refine { newest := vacant.newest, oldest := vacant.oldest, prev := ?_, next := ?_, page := ?_,
           valid := ?_, indexed := ?_, bound := ?_ }
  · intro e p found
    rw [entryOf] at found
    split at found
    · exact vacant.prev ent p found
    · exact vacant.prev e p found
  · intro e p found
    rw [entryOf] at found
    split at found
    · exact vacant.next ent p found
    · exact vacant.next e p found
  · intro e allocated
    rw [entryOf]
    split
    · rename_i same
      rw [same]
      exact vacant.page ent vacant.allocated
    · exact vacant.page e allocated
  · intro e allocated
    rw [entryOf]
    split
    · rfl
    · exact vacant.valid e allocated ‹_›
  · intro e allocated
    rw [entryOf, indexOf]
    split
    · rename_i same
      simp [same]
    · rename_i other
      have old := vacant.indexed e allocated other
      have differs : (c.entry e).hash ≠ hash := by
        intro same
        rw [same, absent] at old
        cases old
      rw [Function.update_of_ne differs, old]
  · intro h e found
    rw [indexOf, Function.update_apply] at found
    rw [entryOf]
    split at found
    · cases found
      exact ⟨vacant.allocated, by simp_all⟩
    · obtain ⟨allocated, other, same⟩ := vacant.bound h e found
      exact ⟨allocated, by simp [other, same]⟩

theorem Vacant.claimed {c c' : PageCache} {ent hash : Nat} (vacant : c.Vacant ent)
    (absent : c.index hash = none) (updated : (c.install ent hash).update ent = some c') :
    c'.Wf ∧ c'.data = c.data ∧ c'.maxPage = c.maxPage ∧ c'.usedPage = c.usedPage ∧
      (c'.entry ent).wait = true ∧ (∀ e, e ≠ ent → (c'.entry e).wait = (c.entry e).wait) ∧
      ∀ h e, c'.index h = some e ↔ h = hash ∧ e = ent ∨ c.index h = some e := by
  have installed := vacant.install absent
  have relinked := update_relinked updated
  have waits : ∀ e, (c'.entry e).wait = if e = ent then true else (c.entry e).wait := by
    intro e
    rw [relinked.wait, install_entry]
    split <;> rfl
  refine ⟨installed.relinked relinked (update_linked installed.toLinked vacant.allocated updated),
    relinked.data, relinked.maxPage, relinked.usedPage, by simp [waits],
    fun e other => by simp [waits, other], ?_⟩
  intro h e
  rw [relinked.index]
  simp only [PageCache.install, absent, Option.isSome_none, Bool.false_eq_true, if_false,
    Function.update_apply]
  split
  · rename_i same
    subst same
    simp [absent, eq_comm]
  · simp [*]

theorem fresh_vacant {c : PageCache} (wf : c.Wf) :
    Vacant (modify { c with usedPage := c.usedPage + 1 } c.usedPage fun e =>
      { e with page := c.usedPage * pageSize }) c.usedPage := by
  have entryOf := modify_entry { c with usedPage := c.usedPage + 1 } c.usedPage
    (f := fun e => { e with page := c.usedPage * pageSize })
  have below : ∀ {p : Nat}, p < c.usedPage → p < c.usedPage + 1 := fun lt => Nat.lt_succ_of_lt lt
  refine { newest := fun e h => below (wf.newest e h), oldest := fun e h => below (wf.oldest e h),
           prev := ?_, next := ?_, allocated := Nat.lt_succ_self _, page := ?_, valid := ?_,
           indexed := ?_, bound := ?_ }
  · intro e p found
    rw [entryOf] at found
    split at found
    · exact below (wf.prev c.usedPage p found)
    · exact below (wf.prev e p found)
  · intro e p found
    rw [entryOf] at found
    split at found
    · exact below (wf.next c.usedPage p found)
    · exact below (wf.next e p found)
  · intro e allocated
    rw [entryOf]
    split
    · rename_i same
      rw [same]
    · exact wf.page e (by have : e < c.usedPage + 1 := allocated; omega)
  · intro e allocated other
    rw [entryOf, if_neg other]
    exact wf.valid e (by have : e < c.usedPage + 1 := allocated; omega)
  · intro e allocated other
    rw [entryOf, if_neg other]
    exact wf.indexed e (by have : e < c.usedPage + 1 := allocated; omega)
  · intro h e found
    obtain ⟨allocated, same⟩ := wf.bound h e found
    rw [entryOf, if_neg (Nat.ne_of_lt allocated)]
    exact ⟨below allocated, Nat.ne_of_lt allocated, same⟩

theorem evicted_vacant {c c' : PageCache} (wf : c.Wf) {ent : Nat} (allocated : ent < c.usedPage)
    (unlinked : c.unlink ent = some c') :
    Vacant { c' with index := Function.update c'.index (c'.entry ent).hash none } ent ∧
      ∀ h e, Function.update c'.index (c'.entry ent).hash none h = some e ↔
        e ≠ ent ∧ c.index h = some e := by
  have relinked := unlink_relinked unlinked
  have wf' := wf.relinked relinked (unlink_linked wf.toLinked unlinked)
  have allocated' : ent < c'.usedPage := by rw [relinked.usedPage]; exact allocated
  have bindings : ∀ h e, Function.update c'.index (c'.entry ent).hash none h = some e ↔
      e ≠ ent ∧ c.index h = some e := by
    intro h e
    rw [Function.update_apply, ← relinked.index]
    constructor
    · intro found
      split at found
      · cases found
      · rename_i other
        refine ⟨?_, found⟩
        rintro rfl
        exact other (wf'.bound h e found).2.symm
    · rintro ⟨other, found⟩
      rw [if_neg, found]
      intro same
      have := wf'.indexed ent allocated'
      rw [← same, found] at this
      exact other (Option.some.inj this)
  refine ⟨{ toLinked := ⟨wf'.newest, wf'.oldest, wf'.prev, wf'.next⟩, allocated := allocated',
            page := wf'.page, valid := fun e bound _ => wf'.valid e bound, indexed := ?_,
            bound := ?_ }, bindings⟩
  · intro e bound other
    apply (bindings _ e).mpr
    refine ⟨other, ?_⟩
    rw [← relinked.index]
    exact wf'.indexed e bound
  · intro h e found
    obtain ⟨other, old⟩ := (bindings h e).mp found
    rw [← relinked.index] at old
    obtain ⟨bound, same⟩ := wf'.bound h e old
    exact ⟨bound, other, same⟩

/-- **`NewEntry` of a page the index does not hold rebinds one entry.** -/
theorem newEntry_claimed {c c' : PageCache} (wf : c.Wf) {hash ent : Nat}
    (absent : c.index hash = none) (made : c.newEntry hash = some (ent, c')) :
    c'.Wf ∧ Claimed c hash ent c' := by
  unfold newEntry at made
  split at made
  · simp only [Option.map_eq_some_iff, Prod.mk.injEq] at made
    obtain ⟨_, updated, rfl, rfl⟩ := made
    obtain ⟨wf', data, maxPage, usedPage, wait, others, index⟩ :=
      (fresh_vacant wf).claimed absent updated
    refine ⟨wf', { origin := Or.inl ⟨rfl, usedPage⟩, data := data, maxPage := maxPage, wait := wait,
                   others := ?_, index := ?_ }⟩
    · intro e other
      rw [others e other, modify_entry, if_neg other]
    · intro h e
      rw [index h e]
      constructor
      · rintro (⟨sameHash, same⟩ | old)
        · exact Or.inl ⟨sameHash, same⟩
        · exact Or.inr ⟨Nat.ne_of_lt (wf.bound h e old).1, old⟩
      · rintro (⟨sameHash, same⟩ | ⟨-, old⟩)
        · exact Or.inl ⟨sameHash, same⟩
        · exact Or.inr old
  · rename_i full
    split at made
    · cases made
    · rename_i victimEnt found
      split at made
      · cases made
      · rename_i mid unlinked
        simp only [Option.map_eq_some_iff, Prod.mk.injEq] at made
        obtain ⟨_, updated, rfl, rfl⟩ := made
        obtain ⟨allocated, -⟩ := victim_allocated wf.toLinked found
        have relinked := unlink_relinked unlinked
        obtain ⟨vacant, bindings⟩ := evicted_vacant wf allocated unlinked
        have absent' : Function.update mid.index (mid.entry victimEnt).hash none hash = none := by
          rw [Function.update_apply, relinked.index, absent, ite_self]
        obtain ⟨wf', data, maxPage, usedPage, wait, others, index⟩ := vacant.claimed absent' updated
        refine ⟨wf', { origin := Or.inr ⟨Nat.le_of_not_lt full, found, usedPage.trans relinked.usedPage⟩
                       data := data.trans relinked.data, maxPage := maxPage.trans relinked.maxPage
                       wait := wait, others := ?_, index := ?_ }⟩
        · intro e other
          exact (others e other).trans (relinked.wait e)
        · intro h e
          rw [index h e]
          exact or_congr_right (bindings h e)

theorem newEntry_maxPage {c c' : PageCache} {hash ent : Nat}
    (made : c.newEntry hash = some (ent, c')) : c'.maxPage = c.maxPage := by
  unfold newEntry at made
  split at made
  · simp only [Option.map_eq_some_iff, Prod.mk.injEq] at made
    obtain ⟨_, updated, rfl, rfl⟩ := made
    exact (update_relinked updated).maxPage
  · split at made
    · cases made
    · split at made
      · cases made
      · next mid unlinked =>
          simp only [Option.map_eq_some_iff, Prod.mk.injEq] at made
          obtain ⟨_, updated, rfl, rfl⟩ := made
          exact (update_relinked updated).maxPage.trans (unlink_relinked unlinked).maxPage

/-- A full cache reuses the victim. -/
theorem newEntry_victim {c c' : PageCache} {hash ent : Nat} (full : c.maxPage ≤ c.usedPage)
    (made : c.newEntry hash = some (ent, c')) :
    c.victim = some ent ∧ (c.unlink ent).isSome = true := by
  rw [newEntry, if_neg (Nat.not_lt_of_le full)] at made
  split at made
  · cases made
  · next found =>
      split at made
      · cases made
      · next unlinked =>
          simp only [Option.map_eq_some_iff, Prod.mk.injEq] at made
          obtain ⟨_, -, rfl, -⟩ := made
          exact ⟨found, by rw [unlinked]; rfl⟩

end KTableFS.Kvengine.PageCache
