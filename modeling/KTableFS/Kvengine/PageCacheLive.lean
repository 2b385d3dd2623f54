/-
# Kvengine.PageCacheLive -- the cache never follows a null pointer

Between two requests of a client that waits for its answers, no entry waits for
data.  Then the victim of an eviction is `oldest_`, and the only pointers followed
without a test are `oldest_->prev` in `Update_` and in `NewEntry`.  `Live` says that
they are not null: every entry but the newest has a `prev`, other than itself, and
with two pages or more the oldest entry is not the newest.

`Live` survives the bent lists that `Update_` makes of a middle entry: it speaks of
`prev` only, and `Update_` gives a `prev` to whatever stops being the newest.
-/
import KTableFS.Kvengine.Pending

namespace KTableFS.Kvengine.PageCache

set_option autoImplicit false

structure Live (c : PageCache) : Prop where
  ends : 0 < c.usedPage → ∃ newest oldest, c.newest = some newest ∧ c.oldest = some oldest
  apart : 2 ≤ c.usedPage → c.newest ≠ c.oldest
  prev : ∀ e < c.usedPage, c.newest ≠ some e → ∃ p, (c.entry e).prev = some p ∧ p ≠ e

theorem new_live (pages : Nat) (junk : Theory.Memory) : (new pages junk).Live where
  ends positive := absurd positive (Nat.lt_irrefl 0)
  apart two := absurd two (by simp [new])
  prev e inside := absurd inside (Nat.not_lt_zero e)

theorem Live.completed {c c' : PageCache} (live : c.Live) (done : c.Completed c') : c'.Live where
  ends positive := by
    rw [done.usedPage] at positive
    rw [done.newest, done.oldest]
    exact live.ends positive
  apart two := by
    rw [done.usedPage] at two
    rw [done.newest, done.oldest]
    exact live.apart two
  prev e inside notNewest := by
    rw [done.usedPage] at inside
    rw [done.newest] at notNewest
    rw [done.prev]
    exact live.prev e inside notNewest

/-- The `prev` pointers after `pushNewest`. -/
theorem pushNewest_prev (c : PageCache) {ent newest : Nat} (differ : ent ≠ newest) (e : Nat) :
    ((c.pushNewest ent newest).entry e).prev =
      if e = newest then some ent else if e = ent then none else (c.entry e).prev := by
  simp only [pushNewest, setPrev, setNext, modify_entry]
  by_cases isNewest : e = newest
  · subst isNewest
    simp [Ne.symm differ]
  · by_cases isEnt : e = ent
    · subst isEnt
      simp [isNewest]
    · simp [isNewest, isEnt]

/-- Moving an entry to the front of a list whose oldest entry is another one. -/
theorem Live.pushNewest {c : PageCache} {ent newest oldest : Nat}
    (isOldest : c.oldest = some oldest) (differ : ent ≠ newest) (other : oldest ≠ ent)
    (prev : ∀ e < c.usedPage, e ≠ ent → e ≠ newest → ∃ p, (c.entry e).prev = some p ∧ p ≠ e) :
    (c.pushNewest ent newest).Live where
  ends _ := ⟨ent, oldest, rfl, isOldest⟩
  apart _ same := other (Option.some.inj (same.trans isOldest)).symm
  prev e inside notNewest := by
    have notEnt : e ≠ ent := fun same => notNewest (same ▸ rfl)
    rw [pushNewest_prev c differ, if_neg notEnt]
    split
    · rename_i same
      exact ⟨ent, rfl, same ▸ differ⟩
    · rename_i notOld
      exact prev e inside notEnt notOld

/-- `Update_` of an entry at neither end. -/
theorem update_push {c : PageCache} {ent newest : Nat} (isNewest : c.newest = some newest)
    (notFront : ent ≠ newest) (notBack : c.oldest ≠ some ent) :
    c.update ent = some (c.pushNewest ent newest) := by
  simp only [update, isNewest, if_neg notFront, if_neg notBack, Option.map_some]

theorem dropOldest_live {c : PageCache} (live : c.Live) {ent : Nat} (inside : ent < c.usedPage)
    (notNewest : c.newest ≠ some ent) :
    ∃ c' p, c.dropOldest ent = some c' ∧ c'.oldest = some p ∧ p ≠ ent ∧ c'.newest = c.newest ∧
      c'.usedPage = c.usedPage ∧ ∀ e, (c'.entry e).prev = (c.entry e).prev := by
  obtain ⟨p, found, differ⟩ := live.prev ent inside notNewest
  refine ⟨setNext { c with oldest := some p } p none, p, by simp [dropOldest, found], rfl, differ, rfl,
    rfl, fun e => ?_⟩
  simp only [setNext, modify_entry]
  split <;> simp_all

/-- **`Update_` of an allocated entry succeeds.** -/
theorem update_live {c : PageCache} (live : c.Live) {ent : Nat} (inside : ent < c.usedPage) :
    ∃ c', c.update ent = some c' ∧ c'.Live := by
  obtain ⟨newest, oldest, isNewest, isOldest⟩ := live.ends (by omega)
  unfold update
  rw [isNewest]
  simp only
  by_cases front : ent = newest
  · exact ⟨c, if_pos front, live⟩
  · rw [if_neg front]
    have notNewest : c.newest ≠ some ent := by
      rw [isNewest]
      exact fun same => front (Option.some.inj same).symm
    have others : ∀ e < c.usedPage, e ≠ ent → e ≠ newest → ∃ p, (c.entry e).prev = some p ∧ p ≠ e := by
      intro e allocated _ notFront
      apply live.prev e allocated
      rw [isNewest]
      exact fun same => notFront (Option.some.inj same).symm
    by_cases back : c.oldest = some ent
    · obtain ⟨c', p, dropped, oldest', differ, newest', used, prev⟩ := dropOldest_live live inside notNewest
      rw [if_pos back, dropped]
      refine ⟨_, rfl, .pushNewest oldest' front differ ?_⟩
      intro e allocated notEnt notFront
      rw [prev]
      exact others e (used ▸ allocated) notEnt notFront
    · rw [if_neg back]
      refine ⟨_, rfl, .pushNewest isOldest front ?_ others⟩
      intro same
      exact back (by rw [isOldest, same])

theorem lookup_live {c : PageCache} (wf : c.Wf) (live : c.Live) (hash : Nat) :
    ∃ hit c', c.lookup hash = some (hit, c') ∧ c'.Live := by
  unfold lookup
  split
  · exact ⟨none, c, rfl, live⟩
  · rename_i ent found
    obtain ⟨c', updated, live'⟩ := update_live live (wf.bound _ _ (find_index wf found)).1
    exact ⟨some ent, c', by rw [updated]; rfl, live'⟩

/-! ## New entries -/

/-- `install` leaves the list alone. -/
theorem install_list (c : PageCache) (ent hash : Nat) :
    (c.install ent hash).newest = c.newest ∧ (c.install ent hash).oldest = c.oldest ∧
      (c.install ent hash).usedPage = c.usedPage ∧
      ∀ e, ((c.install ent hash).entry e).prev = (c.entry e).prev := by
  refine ⟨rfl, rfl, rfl, fun e => ?_⟩
  rw [install_entry]
  split
  · rename_i same
    rw [same]
  · rfl

/-- **`NewEntry` succeeds** when no entry waits and a full cache has two pages. -/
theorem newEntry_live {c : PageCache} (linked : c.Linked) (live : c.Live) (two : 2 ≤ c.maxPage)
    (idle : ∀ e < c.usedPage, (c.entry e).wait = false) (hash : Nat) :
    ∃ ent c', c.newEntry hash = some (ent, c') ∧ c'.Live := by
  unfold newEntry
  split
  · -- a fresh entry goes to the front
    let fresh := modify { c with usedPage := c.usedPage + 1 } c.usedPage fun e =>
      { e with page := c.usedPage * pageSize }
    obtain ⟨newestIs, oldestIs, usedIs, prevIs⟩ := fresh.install_list c.usedPage hash
    have prevOf : ∀ e, e ≠ c.usedPage → ((fresh.install c.usedPage hash).entry e).prev =
        (c.entry e).prev := by
      intro e differ
      rw [prevIs, modify_entry, if_neg differ]
    rcases Option.eq_none_or_eq_some c.newest with isNewest | ⟨newest, isNewest⟩
    · have empty : c.usedPage = 0 := by
        by_contra positive
        obtain ⟨_, _, some', -⟩ := live.ends (Nat.pos_of_ne_zero positive)
        rw [isNewest] at some'
        cases some'
      let alone := ((fresh.install c.usedPage hash).setPrev c.usedPage none).setNext c.usedPage none
      refine ⟨c.usedPage, { alone with newest := some c.usedPage, oldest := some c.usedPage },
        ?_, ?_, ?_, ?_⟩
      · show ((fresh.install c.usedPage hash).update c.usedPage).map _ = _
        rw [update, show (fresh.install c.usedPage hash).newest = none from newestIs.trans isNewest]
        rfl
      · exact fun _ => ⟨c.usedPage, c.usedPage, rfl, rfl⟩
      · intro many
        have one : c.usedPage + 1 ≥ 2 := many
        omega
      · intro e allocated notNewest
        have one : e < c.usedPage + 1 := allocated
        exact absurd (show some c.usedPage = some e by rw [show e = c.usedPage by omega]) notNewest
    · have newestIn : newest < c.usedPage := linked.newest newest isNewest
      obtain ⟨_, oldest, -, isOldest⟩ := live.ends (by omega)
      have oldestIn : oldest < c.usedPage := linked.oldest oldest isOldest
      have notFront : c.usedPage ≠ newest := by omega
      have notBack : (fresh.install c.usedPage hash).oldest ≠ some c.usedPage := by
        rw [show (fresh.install c.usedPage hash).oldest = some oldest from oldestIs.trans isOldest]
        intro same
        have := Option.some.inj same
        omega
      refine ⟨c.usedPage, (fresh.install c.usedPage hash).pushNewest c.usedPage newest, ?_,
        .pushNewest (oldestIs.trans isOldest) notFront (by omega) ?_⟩
      · show ((fresh.install c.usedPage hash).update c.usedPage).map _ = _
        rw [update_push (newestIs.trans isNewest) notFront notBack]
        rfl
      · intro e allocated notEnt notOld
        have bound : e < c.usedPage + 1 := allocated
        rw [prevOf e notEnt]
        apply live.prev e (by omega)
        rw [isNewest]
        exact fun same => notOld (Option.some.inj same).symm
  · -- nothing waits: the victim is the oldest entry, which is not the newest
    rename_i full
    have used : 2 ≤ c.usedPage := by omega
    obtain ⟨newest, oldest, isNewest, isOldest⟩ := live.ends (by omega)
    have oldestIn : oldest < c.usedPage := linked.oldest oldest isOldest
    have victim : c.victim = some oldest := by
      rw [PageCache.victim, isOldest]
      simp [victimFrom, idle oldest oldestIn]
    have notNewest : c.newest ≠ some oldest := by
      rw [← isOldest]
      exact live.apart used
    have notFront : oldest ≠ newest := fun same => notNewest (by rw [isNewest, same])
    obtain ⟨c', p, dropped, oldest', differ, newest', used', prev⟩ := dropOldest_live live oldestIn notNewest
    have unlinked : c.unlink oldest = some c' := by rw [unlink, if_pos isOldest, dropped]
    let evicted : PageCache := { c' with index := Function.update c'.index (c'.entry oldest).hash none }
    obtain ⟨newestIs, oldestIs, usedIs, prevIs⟩ := evicted.install_list oldest hash
    have notBack : (evicted.install oldest hash).oldest ≠ some oldest := by
      rw [show (evicted.install oldest hash).oldest = some p from oldestIs.trans oldest']
      exact fun same => differ (Option.some.inj same)
    have front : (evicted.install oldest hash).newest = some newest :=
      newestIs.trans (newest'.trans isNewest)
    simp only [victim, unlinked]
    refine ⟨oldest, (evicted.install oldest hash).pushNewest oldest newest, ?_,
      .pushNewest (oldestIs.trans oldest') notFront differ ?_⟩
    · show ((evicted.install oldest hash).update oldest).map _ = _
      rw [update_push front notFront notBack]
      rfl
    · intro e allocated notEnt notOld
      rw [prevIs]
      change ∃ p, (c'.entry e).prev = some p ∧ p ≠ e
      rw [prev]
      apply live.prev e (by rw [← used']; exact allocated)
      rw [isNewest]
      exact fun same => notOld (Option.some.inj same).symm

/-! ## Between requests -/

/-- A cache with two pages or more and no entry waiting for data, but perhaps `ent`. -/
structure Loading (c : PageCache) (ent : Option Nat) : Prop where
  wf : c.Wf
  live : c.Live
  two : 2 ≤ c.maxPage
  idle : ∀ e < c.usedPage, ent ≠ some e → (c.entry e).wait = false

/-- A cache between two requests of a client that waits for its answers. -/
abbrev Quiet (c : PageCache) : Prop := c.Loading none

theorem Quiet.new {pages : Nat} (two : 2 ≤ pages) (junk : Theory.Memory) :
    (PageCache.new pages junk).Quiet where
  wf := new_wf pages junk
  live := new_live pages junk
  two := two
  idle e allocated := absurd allocated (Nat.not_lt_zero e)

/-- Completions end the wait for data. -/
theorem Loading.completed {c c' : PageCache} {ent : Option Nat} (loading : c.Loading ent)
    (done : c.Completed c') (arrived : ∀ e ∈ ent, (c'.entry e).wait = false) : c'.Quiet where
  wf := loading.wf.completed done
  live := loading.live.completed done
  two := done.maxPage ▸ loading.two
  idle e allocated _ := by
    by_cases same : ent = some e
    · exact arrived e same
    · cases waits : (c'.entry e).wait with
      | false => rfl
      | true =>
          rw [← done.wait e waits]
          exact loading.idle e (done.usedPage ▸ allocated) same

/-- A truthful lookup succeeds and leaves the cache quiet. -/
theorem Quiet.lookup {c : PageCache} (quiet : c.Quiet) {hash : Nat} (truthful : c.Truthful hash) :
    ∃ hit c', c.lookup hash = some (hit, c') ∧ c'.Quiet := by
  obtain ⟨hit, c', looked, live⟩ := lookup_live quiet.wf quiet.live hash
  obtain ⟨-, relinked, wf⟩ := lookup_spec quiet.wf truthful looked
  refine ⟨hit, c', looked, wf, live, relinked.maxPage ▸ quiet.two, fun e allocated _ => ?_⟩
  rw [relinked.wait]
  exact quiet.idle e (relinked.usedPage ▸ allocated) (by simp)

/-- A page that is not there gets an entry, the only one that waits. -/
theorem Quiet.newEntry {c : PageCache} (quiet : c.Quiet) {hash : Nat} (absent : c.index hash = none) :
    ∃ ent c', c.newEntry hash = some (ent, c') ∧ c'.Loading (some ent) := by
  have idle : ∀ e < c.usedPage, (c.entry e).wait = false := fun e allocated =>
    quiet.idle e allocated (by simp)
  obtain ⟨ent, c', made, live⟩ := newEntry_live quiet.wf.toLinked quiet.live quiet.two idle hash
  obtain ⟨wf, claimed⟩ := newEntry_claimed quiet.wf absent made
  refine ⟨ent, c', made, wf, live, claimed.maxPage ▸ quiet.two, fun e allocated other => ?_⟩
  have differ : e ≠ ent := fun same => other (same ▸ rfl)
  rw [claimed.others e differ]
  apply idle
  rcases claimed.origin with ⟨rfl, used⟩ | ⟨-, -, used⟩ <;> omega

end KTableFS.Kvengine.PageCache
