/-
# Kvengine.Lru -- the recent list as an order of last use

`LruUse` is a page cache with a clock: every entry that `Lookup` or `NewEntry` returns is
used at that moment.  `InOrder` says that the list from `newest` on is every allocated
entry, the last used first; `EvictsOldest` that a `NewEntry` on a full cache returns, with
the least recently used entry that does not wait for data.

Both hold as long as every step is `Tidy`, and fail at the first that is not:

* a `Lookup` that finds an entry inside the list leaves it linked there too (`update`), so
  that two entries lead to it;
* a `NewEntry` that finds no entry to reuse but the newest follows its null `prev`.

`lru_iff`: along a run, the list is in order in every state and every `NewEntry` evicts the
oldest, if and only if every step is tidy.
-/
import KTableFS.Kvengine.Recency

namespace KTableFS.Kvengine

open KTableFS.Theory

set_option autoImplicit false

/-- A page cache in use, and when each entry was used last. -/
structure LruUse where
  cache : PageCache
  clock : Nat
  lastUse : Nat → Nat

inductive LruCall where
  | lookup (hash : Nat)
  | newEntry (hash : Nat)
  /-- The read into an entry completes. -/
  | complete (ent : Nat)

namespace LruUse

def new (pages : Nat) (junk : Memory) : LruUse := ⟨.new pages junk, 0, fun _ => 0⟩

/-- The cache after a call that returned `ent`. -/
def use (s : LruUse) (ent : Nat) (cache : PageCache) : LruUse :=
  ⟨cache, s.clock + 1, Function.update s.lastUse ent (s.clock + 1)⟩

/-- One call; the result is the entry it returned. -/
def next (s : LruUse) : LruCall → Option (LruUse × Option Nat)
  | .lookup hash =>
      match s.cache.lookup hash with
      | none => none
      | some (none, c) => some ({ s with cache := c }, none)
      | some (some ent, c) => some (s.use ent c, some ent)
  | .newEntry hash => (s.cache.newEntry hash).map fun out => (s.use out.1 out.2, some out.1)
  | .complete ent => some ({ s with cache := s.cache.readCallback ent }, none)

/-- `next` leads from `newest` over every allocated entry, the last used first, to
`oldest`, and `prev` leads back. -/
def InOrder (s : LruUse) : Prop :=
  ∃ l, s.cache.Recent l ∧ l.Pairwise fun e e' => s.lastUse e' < s.lastUse e

/-- The cache is full, and some entry waits for no data. -/
def CanEvict (s : LruUse) : Prop :=
  s.cache.maxPage ≤ s.cache.usedPage ∧ ∃ e < s.cache.usedPage, (s.cache.entry e).wait = false

/-- Of the entries that wait for no data, this was used least recently. -/
def LeastRecent (s : LruUse) (ent : Nat) : Prop :=
  ent < s.cache.usedPage ∧ (s.cache.entry ent).wait = false ∧
    ∀ e < s.cache.usedPage, e ≠ ent → (s.cache.entry e).wait = false → s.lastUse ent < s.lastUse e

/-- `NewEntry` on a full cache returns, and reuses the least recently used entry. -/
def EvictsOldest (s : LruUse) : LruCall → Prop
  | .newEntry hash => s.CanEvict →
      ∃ s' ent, s.next (.newEntry hash) = some (s', some ent) ∧ s.LeastRecent ent
  | _ => True

/-- The entry a `Lookup` finds is at an end of the list, and an entry other than the newest
can be evicted, if any can. -/
def Tidy (s : LruUse) : LruCall → Prop
  | .lookup hash => ∀ ent ∈ s.cache.find hash, s.cache.newest = some ent ∨ s.cache.oldest = some ent
  | .newEntry _ => s.CanEvict →
      ∃ e < s.cache.usedPage, s.cache.newest ≠ some e ∧ (s.cache.entry e).wait = false
  | .complete _ => True

instance (s : LruUse) : Decidable s.CanEvict := inferInstanceAs (Decidable (_ ∧ _))

instance (s : LruUse) : (call : LruCall) → Decidable (s.Tidy call)
  | .lookup hash => inferInstanceAs (Decidable (∀ ent ∈ s.cache.find hash, _))
  | .newEntry _ => inferInstanceAs (Decidable (s.CanEvict → _))
  | .complete _ => .isTrue trivial

/-! ## The invariant -/

/-- A list in order, whose entries were all used before now. -/
structure Aged (s : LruUse) : Prop where
  sane : s.cache.Sane
  two : 2 ≤ s.cache.maxPage
  inOrder : s.InOrder
  past : ∀ e, s.lastUse e ≤ s.clock

theorem new_aged {pages : Nat} (two : 2 ≤ pages) (junk : Memory) : (LruUse.new pages junk).Aged where
  sane := PageCache.new_sane pages junk
  two := two
  inOrder := ⟨[], ⟨⟨rfl, rfl, List.nodup_nil, trivial, trivial⟩, by simp [LruUse.new, PageCache.new]⟩, .nil⟩
  past _ := le_rfl

variable {s : LruUse}

/-- An entry used now goes in front of the order. -/
theorem Aged.use_inOrder (aged : s.Aged) {l : List Nat} {ent : Nat} {c : PageCache}
    (order : l.Pairwise fun e e' => s.lastUse e' < s.lastUse e) (nodup : l.Nodup)
    (recent : c.Recent (ent :: l.erase ent)) : (s.use ent c).InOrder := by
  have other : ∀ e ∈ l.erase ent, (s.use ent c).lastUse e = s.lastUse e := fun e member =>
    Function.update_of_ne (nodup.mem_erase_iff.mp member).1 ..
  have now : (s.use ent c).lastUse ent = s.clock + 1 := Function.update_self ..
  refine ⟨_, recent, List.pairwise_cons.mpr ⟨fun e member => ?_, ?_⟩⟩
  · rw [other e member, now]
    exact Nat.lt_succ_of_le (aged.past e)
  · refine (order.sublist List.erase_sublist).imp_of_mem fun {e e'} member member' older => ?_
    rw [other e member, other e' member']
    exact older

/-- What every step keeps but the order. -/
theorem Aged.next (aged : s.Aged) {call : LruCall} {s' : LruUse} {hit : Option Nat}
    (taken : s.next call = some (s', hit)) (inOrder : s'.InOrder) : s'.Aged := by
  have later : ∀ ent c e, (s.use ent c).lastUse e ≤ (s.use ent c).clock := by
    intro ent c e
    by_cases same : e = ent
    · rw [same]
      exact (Function.update_self ent (s.clock + 1) s.lastUse).le
    · exact (Function.update_of_ne same (s.clock + 1) s.lastUse).le.trans
        ((aged.past e).trans (Nat.le_succ _))
  cases call with
  | lookup hash =>
      unfold LruUse.next at taken
      simp only at taken
      split at taken
      · cases taken
      · next c looked =>
          cases taken
          obtain ⟨sane, relinked⟩ := aged.sane.lookup looked
          exact ⟨sane, relinked.maxPage ▸ aged.two, inOrder, aged.past⟩
      · next ent c looked =>
          cases taken
          obtain ⟨sane, relinked⟩ := aged.sane.lookup looked
          exact ⟨sane, relinked.maxPage ▸ aged.two, inOrder, later ent c⟩
  | newEntry hash =>
      simp only [LruUse.next, Option.map_eq_some_iff, Prod.mk.injEq] at taken
      obtain ⟨⟨ent, c⟩, made, rfl, -⟩ := taken
      exact ⟨(aged.sane.newEntry made).sane, (PageCache.newEntry_maxPage made).symm ▸ aged.two, inOrder,
        later ent c⟩
  | complete ent =>
      cases taken
      have done := s.cache.readCallback_completed ent
      exact ⟨aged.sane.completed done, done.maxPage.symm ▸ aged.two, inOrder, aged.past⟩

/-! ## One step -/

/-- Where a `Lookup` finds an entry inside the list, two entries lead to it from then on. -/
theorem Aged.lookup_ends (aged : s.Aged) {hash ent : Nat} (found : s.cache.find hash = some ent)
    (keeps : ∀ s' hit, s.next (.lookup hash) = some (s', hit) → s'.InOrder) :
    s.cache.newest = some ent ∨ s.cache.oldest = some ent := by
  obtain ⟨l, recent, -⟩ := aged.inOrder
  obtain ⟨front, back, rfl⟩ := List.append_of_mem ((recent.all ent).mpr (aged.sane.find found))
  by_contra inside
  rw [not_or] at inside
  rcases List.eq_nil_or_concat' front with rfl | ⟨xs, p, rfl⟩
  · exact inside.1 (by simp [recent.chained.first])
  · obtain ⟨n, isNewest⟩ : ∃ n, s.cache.newest = some n := by
      rw [recent.chained.first]
      exact Option.isSome_iff_exists.mp (by simp)
    have notFront : ent ≠ n := fun same => inside.1 (same ▸ isNewest)
    have looked : s.cache.lookup hash = some (some ent, s.cache.pushNewest ent n) := by
      rw [PageCache.lookup, found]
      exact congrArg (Option.map _) (PageCache.update_push isNewest notFront inside.2)
    have split : xs ++ [p] ++ ent :: back = xs ++ p :: ent :: back := by simp
    rw [split] at recent
    have onward : (s.cache.entry p).next = some ent := recent.chained.next_eq
    have differ : p ≠ ent := by
      have apart := (List.nodup_append.mp recent.chained.nodup).2.1
      exact fun same => (List.nodup_cons.mp apart).1 (same ▸ .head _)
    obtain ⟨l', recent', -⟩ := keeps _ _ (by rw [LruUse.next, looked])
    refine recent'.next_ne (e := p) ?_ ?_ rfl
    · exact (recent.all p).mp (by simp)
    · show ((s.cache.pushNewest ent n).entry p).next = some ent
      rw [PageCache.pushNewest_next, if_neg differ, onward]

/-- The newest entry cannot be taken out of a list of two or more. -/
theorem Aged.unlink_newest (aged : s.Aged) (full : s.cache.maxPage ≤ s.cache.usedPage) {ent : Nat}
    (isNewest : s.cache.newest = some ent) : s.cache.unlink ent = none := by
  obtain ⟨l, recent, -⟩ := aged.inOrder
  have two := aged.two
  obtain ⟨rest, rfl⟩ : ∃ rest, l = ent :: rest := by
    rw [recent.chained.first, List.head?_eq_some_iff] at isNewest
    exact isNewest
  have notOldest : s.cache.oldest ≠ some ent := by
    rw [recent.chained.last]
    cases rest with
    | nil =>
        have first := (recent.all 0).mpr (by omega)
        have second := (recent.all 1).mpr (by omega)
        rw [List.mem_singleton] at first second
        omega
    | cons a rest =>
        intro isLast
        refine (List.nodup_cons.mp recent.chained.nodup).1 (List.mem_of_getLast? (a := ent) ?_)
        rwa [List.getLast?_cons_cons] at isLast
  have noPrev : (s.cache.entry ent).prev = none := by
    have chained : Chained _ _ _ _ ([] ++ ent :: rest) := recent.chained
    exact chained.prev_eq
  rw [PageCache.unlink, if_neg notOldest, noPrev]

/-- What the list says of the victim. -/
theorem Aged.victim (aged : s.Aged) {ent : Nat} (found : s.cache.victim = some ent) :
    s.LeastRecent ent := by
  obtain ⟨l, recent, order⟩ := aged.inOrder
  obtain ⟨idle, front, back, rfl, waits⟩ := recent.victim_last found
  refine ⟨(recent.all ent).mp (by simp), idle, fun e allocated differ ready => ?_⟩
  rcases List.mem_append.mp ((recent.all e).mpr allocated) with newer | older
  · exact (List.pairwise_append.mp order).2.2 e newer ent (.head _)
  · rcases List.mem_cons.mp older with same | behind
    · exact absurd same differ
    · rw [waits e behind] at ready
      cases ready

/-- A tidy step keeps the order. -/
theorem Aged.tidy_inOrder (aged : s.Aged) {call : LruCall} (tidy : s.Tidy call) {s' : LruUse}
    {hit : Option Nat} (taken : s.next call = some (s', hit)) : s'.InOrder := by
  obtain ⟨l, recent, order⟩ := aged.inOrder
  cases call with
  | lookup hash =>
      cases found : s.cache.find hash with
      | none =>
          simp only [LruUse.next, PageCache.lookup, found, Option.some.injEq, Prod.mk.injEq] at taken
          obtain ⟨rfl, -⟩ := taken
          exact ⟨l, recent, order⟩
      | some ent =>
          obtain ⟨c, updated, recent'⟩ := recent.update (tidy ent found)
          simp only [LruUse.next, PageCache.lookup, found, updated, Option.map_some, Option.some.injEq,
            Prod.mk.injEq] at taken
          obtain ⟨rfl, -⟩ := taken
          exact aged.use_inOrder order recent.chained.nodup recent'
  | newEntry hash =>
      simp only [LruUse.next, Option.map_eq_some_iff, Prod.mk.injEq] at taken
      obtain ⟨⟨ent, c⟩, made, rfl, -⟩ := taken
      have ready : s.cache.maxPage ≤ s.cache.usedPage →
          ∃ e < s.cache.usedPage, s.cache.newest ≠ some e ∧ (s.cache.entry e).wait = false := by
        intro full
        have victim := aged.victim (PageCache.newEntry_victim full made).1
        exact tidy ⟨full, ent, victim.1, victim.2.1⟩
      obtain ⟨ent', c', made', recent'⟩ := recent.newEntry hash ready
      rw [made, Option.some.injEq, Prod.mk.injEq] at made'
      obtain ⟨rfl, rfl⟩ := made'
      exact aged.use_inOrder order recent.chained.nodup recent'
  | complete ent =>
      cases taken
      have done := s.cache.readCallback_completed ent
      exact ⟨l, ⟨recent.chained.congr (fun x _ => done.next x) fun x _ => done.prev x, recent.all⟩, order⟩

/-- **A step is tidy exactly where it evicts the oldest and keeps the order.** -/
theorem Aged.tidy_iff (aged : s.Aged) (call : LruCall) : s.Tidy call ↔
    s.EvictsOldest call ∧ ∀ s' hit, s.next call = some (s', hit) → s'.InOrder := by
  refine ⟨fun tidy => ⟨?_, fun _ _ taken => aged.tidy_inOrder tidy taken⟩, ?_⟩
  · cases call with
    | lookup hash => exact trivial
    | complete ent => exact trivial
    | newEntry hash =>
        intro can
        obtain ⟨l, recent, -⟩ := aged.inOrder
        obtain ⟨ent, c, made, -⟩ := recent.newEntry hash fun _ => tidy can
        exact ⟨s.use ent c, ent, by rw [LruUse.next, made]; rfl,
          aged.victim (PageCache.newEntry_victim can.1 made).1⟩
  · rintro ⟨evicts, keeps⟩
    cases call with
    | lookup hash => exact fun ent found => aged.lookup_ends found keeps
    | complete ent => exact trivial
    | newEntry hash =>
        intro can
        obtain ⟨s', ent, taken, allocated, idle, -⟩ := evicts can
        refine ⟨ent, allocated, fun isNewest => ?_, idle⟩
        -- the newest entry is reused only by following a null pointer
        simp only [LruUse.next, Option.map_eq_some_iff, Prod.mk.injEq, Option.some.injEq] at taken
        obtain ⟨⟨_, c⟩, made, -, rfl⟩ := taken
        have unlinked := (PageCache.newEntry_victim can.1 made).2
        rw [aged.unlink_newest can.1 isNewest] at unlinked
        cases unlinked

end LruUse

/-- **The recent list is the order of last use while every step is tidy.**  For every
capacity of two pages or more and every sequence of `Lookup`, `NewEntry` and read
completions: in every state reached the list is all allocated entries in order of last use,
and every `NewEntry` on a full cache with an entry that does not wait returns with the
least recently used such entry, if and only if every `Lookup` finds an entry at an end of
the list and every such `NewEntry` finds one to reuse behind the newest. -/
theorem lru_iff {pages : Nat} (two : 2 ≤ pages) (junk : Memory) (calls : List LruCall) :
    Run.Along LruUse.next LruUse.Tidy (.new pages junk) calls ↔
      (∀ n s hits, Run.run LruUse.next (.new pages junk) (calls.take n) = some (s, hits) → s.InOrder) ∧
        Run.Along LruUse.next LruUse.EvictsOldest (.new pages junk) calls := by
  have start := LruUse.new_aged two junk
  rw [Run.Along.congr_kept (fun s call (aged : s.Aged) => aged.tidy_iff call)
    (fun s call s' hit aged tidy taken => aged.next taken (aged.tidy_inOrder tidy taken)) start,
    Run.along_and, and_comm, Run.along_reached start.inOrder]

/-- Two pages: the newest is looked up again, and the first is evicted for a third. -/
theorem lru_iff_example : ∃ s hits,
    Run.run LruUse.next (.new 2 fun _ => 0) [.newEntry 7, .complete 0, .newEntry 8, .complete 1, .lookup 8,
      .lookup 7, .newEntry 9] = some (s, hits) ∧ s.InOrder := by
  have ends : (Run.run LruUse.next (.new 2 fun _ => 0) [.newEntry 7, .complete 0, .newEntry 8, .complete 1,
      .lookup 8, .lookup 7, .newEntry 9]).isSome := by
    decide +kernel
  obtain ⟨⟨s, hits⟩, ran⟩ := Option.isSome_iff_exists.mp ends
  have inOrder := ((lru_iff le_rfl (fun _ => 0) [.newEntry 7, .complete 0, .newEntry 8, .complete 1,
    .lookup 8, .lookup 7, .newEntry 9]).mp (by decide +kernel)).1
  exact ⟨s, hits, ran, inOrder 7 s hits ran⟩

/-- Three pages, and a `Lookup` of the middle one: the list leads back to it, and never to
the oldest. -/
theorem lru_fails : ¬ ∀ (pages : Nat) (junk : Memory) (calls : List LruCall), 2 ≤ pages →
    (∀ n s hits, Run.run LruUse.next (.new pages junk) (calls.take n) = some (s, hits) → s.InOrder) ∧
      Run.Along LruUse.next LruUse.EvictsOldest (.new pages junk) calls := by
  intro always
  have ends : (Run.run LruUse.next (.new 3 fun _ => 0) [.newEntry 7, .newEntry 8, .newEntry 9,
      .lookup 8]).isSome := by
    decide +kernel
  obtain ⟨⟨s, hits⟩, ran⟩ := Option.isSome_iff_exists.mp ends
  have bent : ∀ out ∈ Run.run LruUse.next (.new 3 fun _ => 0) [.newEntry 7, .newEntry 8, .newEntry 9,
      .lookup 8], 2 < out.1.cache.usedPage ∧ (out.1.cache.entry 2).next = some 1 ∧
        out.1.cache.newest = some 1 := by
    decide +kernel
  obtain ⟨allocated, onward, isNewest⟩ := bent _ ran
  obtain ⟨l, recent, -⟩ := (always 3 (fun _ => 0) [.newEntry 7, .newEntry 8, .newEntry 9, .lookup 8]
    (by decide)).1 4 s hits ran
  exact recent.next_ne allocated onward isNewest

end KTableFS.Kvengine
