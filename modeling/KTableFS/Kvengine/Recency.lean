/-
# Kvengine.Recency -- the recent list, and what Lookup makes of it

`Lookup` walks at most twenty entries of the recent list and gives up at a null
pointer; only a walk that is spent consults the index.  So its answer is the index's
answer as long as the list holds every cached entry (`Chained`, over the entries in
use).

* `update` keeps that list when it touches its newest or its oldest entry, and
  `newEntry` keeps it whatever entry it evicts: it unlinks from the middle too.
* `update` of an entry inside the list does not unlink it.  The entry's `next` then
  leads to the old newest entry, whose `next` leads back: the entries behind are off
  the walk, and the next change of `oldest` cuts the walk short.

`lookup_complete`: in every run in which the entry a `Lookup` finds is the newest or
the oldest one, `Lookup` and index agree in every state.
-/
import KTableFS.Theory.Links
import KTableFS.Kvengine.FailedRead
import KTableFS.Kvengine.PageCacheLive
import Mathlib.Data.List.Perm.Subperm

namespace KTableFS.Kvengine

open KTableFS.Theory

set_option autoImplicit false

namespace PageCache

/-- The entries in use, newest first, as the pointers link them. -/
structure Recent (c : PageCache) (l : List Nat) : Prop where
  chained : Chained c.newest c.oldest (fun e => (c.entry e).next) (fun e => (c.entry e).prev) l
  all : ∀ e, e ∈ l ↔ e < c.usedPage

theorem setNext_next (c : PageCache) (ent : Nat) (next : Option Nat) (e : Nat) :
    ((c.setNext ent next).entry e).next = if e = ent then next else (c.entry e).next := by
  rw [setNext, modify_entry]
  split
  · rfl
  · rfl

theorem setPrev_prev (c : PageCache) (ent : Nat) (prev : Option Nat) (e : Nat) :
    ((c.setPrev ent prev).entry e).prev = if e = ent then prev else (c.entry e).prev := by
  rw [setPrev, modify_entry]
  split
  · rfl
  · rfl

theorem setPrev_next (c : PageCache) (ent : Nat) (prev : Option Nat) (e : Nat) :
    ((c.setPrev ent prev).entry e).next = (c.entry e).next := by
  rw [setPrev, modify_entry]
  split
  · next same => rw [same]
  · rfl

/-! ## The walk and the victim search, along the list -/

/-- A walk that ends at the null pointer has passed every entry of the list. -/
theorem walk_null {c : PageCache} {hash : Nat} : ∀ {l : List Nat} {fuel : Nat},
    Segment (fun e => (c.entry e).next) l none → c.walk hash fuel l.head? = .null →
      ∀ e ∈ l, ¬ ((c.entry e).valid = true ∧ (c.entry e).hash = hash)
  | [], _, _, _ => by simp
  | a :: rest, 0, _, ended => by simp [walk] at ended
  | a :: rest, fuel + 1, segment, ended => by
      simp only [List.head?_cons, walk] at ended
      split at ended
      · cases ended
      · next differ =>
          have onward : (c.entry a).next = rest.head? := by simpa using segment.1
          rw [onward] at ended
          intro e member
          rcases List.mem_cons.mp member with rfl | later
          · exact differ
          · exact walk_null segment.2 ended e later

/-- The victim is the first entry that does not wait, from the old end on. -/
theorem victimFrom_segment {c : PageCache} : ∀ {l : List Nat} {fuel : Nat}, l.length ≤ fuel →
    Segment (fun e => (c.entry e).prev) l none →
      c.victimFrom fuel l.head? = l.find? fun e => !(c.entry e).wait
  | [], 0, _, _ => rfl
  | [], _ + 1, _, _ => rfl
  | a :: rest, 0, enough, _ => by simp at enough
  | a :: rest, fuel + 1, enough, segment => by
      have onward : (c.entry a).prev = rest.head? := by simpa using segment.1
      simp only [List.head?_cons, victimFrom]
      cases waits : (c.entry a).wait with
      | true =>
          rw [if_pos rfl, onward, victimFrom_segment (by simpa using enough) segment.2,
            List.find?_cons_of_neg (by simp [waits])]
      | false =>
          rw [if_neg (by decide), List.find?_cons_of_pos (by simp [waits])]

theorem Recent.length_le {c : PageCache} {l : List Nat} (recent : c.Recent l) :
    l.length ≤ c.usedPage := by
  have inside : l ⊆ List.range c.usedPage := fun e member =>
    List.mem_range.mpr ((recent.all e).mp member)
  simpa using (List.subperm_of_subset recent.chained.nodup inside).length_le

/-- **Where the list is whole, Lookup is the index.** -/
theorem Recent.truthful {c : PageCache} {l : List Nat} (recent : c.Recent l) (wf : c.Wf)
    (hash : Nat) : c.Truthful hash := by
  intro missed
  cases indexed : c.index hash with
  | none => rfl
  | some e =>
      obtain ⟨allocated, same⟩ := wf.bound hash e indexed
      have valid := wf.valid e allocated
      unfold PageCache.find at missed
      split at missed
      · cases missed
      · next ended =>
          rw [recent.chained.first] at ended
          exact absurd ⟨valid, same⟩
            (walk_null recent.chained.next ended e ((recent.all e).mpr allocated))
      · simp [indexed, valid] at missed

/-! ## The list operations -/

theorem pushNewest_next (c : PageCache) {ent newest : Nat} (e : Nat) :
    ((c.pushNewest ent newest).entry e).next = if e = ent then some newest else (c.entry e).next := by
  show ((((c.setNext ent (some newest)).setPrev ent none).setPrev newest (some ent)).entry e).next = _
  rw [setPrev_next, setPrev_next, setNext_next]

/-- An entry that is not in the list goes to its front. -/
theorem push_chained {c : PageCache} {n : Nat} {rest : List Nat} {ent : Nat}
    (chained : Chained c.newest c.oldest (fun e => (c.entry e).next) (fun e => (c.entry e).prev)
      (n :: rest)) (fresh : ent ∉ n :: rest) :
    c.update ent = some (c.pushNewest ent n) ∧
      Chained (c.pushNewest ent n).newest (c.pushNewest ent n).oldest
        (fun e => ((c.pushNewest ent n).entry e).next) (fun e => ((c.pushNewest ent n).entry e).prev)
        (ent :: n :: rest) := by
  have front : c.newest = some n := chained.first
  have differ : ent ≠ n := fun same => fresh (same ▸ .head _)
  have inside : ∀ x ∈ n :: rest, x ≠ ent := fun x member same => fresh (same ▸ member)
  have notBack : c.oldest ≠ some ent := by
    rw [chained.last]
    intro isLast
    exact fresh (List.mem_of_getLast? isLast)
  refine ⟨update_push front differ notBack, ?_⟩
  refine chained.push fresh ?_ ?_ ?_ ?_ ?_
  · rw [pushNewest_next, if_pos rfl]
  · rw [pushNewest_prev c differ, if_neg differ, if_pos rfl]
  · rw [pushNewest_prev c differ, if_pos rfl]
  · intro x member
    rw [pushNewest_next, if_neg (inside x member)]
  · intro x member
    have notN : x ≠ n := by
      rintro rfl
      exact (List.nodup_cons.mp chained.nodup).1 member
    rw [pushNewest_prev c differ, if_neg notN, if_neg (inside x (.tail _ member))]

/-- The oldest entry comes off. -/
theorem pop_chained {c : PageCache} {xs : List Nat} {p ent : Nat}
    (chained : Chained c.newest c.oldest (fun e => (c.entry e).next) (fun e => (c.entry e).prev)
      (xs ++ [p, ent])) :
    ∃ c', c.dropOldest ent = some c' ∧ Relinked c c' ∧
      Chained c'.newest c'.oldest (fun e => (c'.entry e).next) (fun e => (c'.entry e).prev)
        (xs ++ [p]) := by
  have back : (c.entry ent).prev = some p := by
    have split : xs ++ [p, ent] = (xs ++ [p]) ++ ent :: [] := by simp
    rw [split] at chained
    simpa using chained.prev_eq
  have dropped : c.dropOldest ent = some (setNext { c with oldest := some p } p none) := by
    rw [dropOldest, back]
    rfl
  refine ⟨_, dropped, dropOldest_relinked dropped, ?_⟩
  have notP : ∀ x ∈ xs, x ≠ p := by
    rintro x member rfl
    exact (List.nodup_append.mp chained.nodup).2.2 x member x (by simp) rfl
  refine chained.pop ?_ ?_ ?_
  · rw [setNext_next, if_pos rfl]
  · intro x member
    rw [setNext_next, if_neg (notP x member)]
  · intro x _
    rw [setNext_prev]

/-- An entry inside the list comes out. -/
theorem remove_chained {c : PageCache} {xs ys : List Nat} {p ent n : Nat}
    (chained : Chained c.newest c.oldest (fun e => (c.entry e).next) (fun e => (c.entry e).prev)
      (xs ++ p :: ent :: n :: ys)) :
    ∃ c', c.unlink ent = some c' ∧ Relinked c c' ∧
      Chained c'.newest c'.oldest (fun e => (c'.entry e).next) (fun e => (c'.entry e).prev)
        (xs ++ p :: n :: ys) := by
  have split : xs ++ p :: ent :: n :: ys = (xs ++ [p]) ++ ent :: n :: ys := by simp
  have nodup := chained.nodup
  have back : (c.entry ent).prev = some p := by
    have here := chained
    rw [split] at here
    simpa using here.prev_eq
  have onward : (c.entry ent).next = some n := by
    have here := chained
    rw [split] at here
    simpa using here.next_eq
  rw [List.nodup_append] at nodup
  obtain ⟨-, inner, outer⟩ := nodup
  simp only [List.nodup_cons, List.mem_cons, not_or] at inner
  obtain ⟨⟨pEnt, pN, pYs⟩, ⟨entN, entYs⟩, nYs, -⟩ := inner
  have notOldest : c.oldest ≠ some ent := by
    rw [chained.last, split, List.getLast?_append_of_ne_nil _ (by simp)]
    intro isLast
    have member : ent ∈ n :: ys := List.mem_of_getLast? (by simpa using isLast)
    rcases List.mem_cons.mp member with same | later
    · exact entN same
    · exact entYs later
  have unlinked : c.unlink ent = some ((c.setNext p (some n)).setPrev n (some p)) := by
    have kept : ((c.setNext p (some n)).entry ent).next = some n := by
      rw [setNext_next, if_neg (fun same => pEnt same.symm), onward]
    simp only [unlink, if_neg notOldest, back, onward, kept, setNext_prev, Option.map_some]
  refine ⟨_, unlinked, unlink_relinked unlinked, ?_⟩
  have notIn : ∀ x ∈ xs, x ≠ p ∧ x ≠ n := fun x member =>
    ⟨fun same => outer x member p (by simp) same, fun same => outer x member n (by simp) same⟩
  refine chained.remove ?_ ?_ ?_ ?_
  · rw [setPrev_next, setNext_next, if_pos rfl]
  · rw [setPrev_prev, if_pos rfl]
  · intro x member
    have notP : x ≠ p := by
      rcases List.mem_append.mp member with inXs | inRest
      · exact (notIn x inXs).1
      · rintro rfl
        rcases List.mem_cons.mp inRest with same | later
        · exact pN same
        · exact pYs later
    rw [setPrev_next, setNext_next, if_neg notP]
  · intro x member
    have notN : x ≠ n := by
      rcases List.mem_append.mp member with inXs | inRest
      · exact (notIn x inXs).2
      · rintro rfl
        rcases List.mem_cons.mp inRest with same | later
        · exact pN same.symm
        · exact nYs later
    rw [setPrev_prev, if_neg notN, setNext_prev]

/-- An entry other than the newest can be taken out wherever it is. -/
theorem unlink_chained {c : PageCache} {l : List Nat} {ent : Nat}
    (chained : Chained c.newest c.oldest (fun e => (c.entry e).next) (fun e => (c.entry e).prev) l)
    (inside : ent ∈ l) (notNewest : c.newest ≠ some ent) :
    ∃ c', c.unlink ent = some c' ∧ Relinked c c' ∧
      Chained c'.newest c'.oldest (fun e => (c'.entry e).next) (fun e => (c'.entry e).prev)
        (l.erase ent) ∧ l.erase ent ≠ [] := by
  obtain ⟨front, back, rfl⟩ := List.append_of_mem inside
  have nodup := chained.nodup
  rw [List.nodup_append, List.nodup_cons] at nodup
  obtain ⟨-, ⟨notBack, -⟩, apart⟩ := nodup
  have notFront : ent ∉ front := fun member => apart ent member ent (.head _) rfl
  have erased : (front ++ ent :: back).erase ent = front ++ back := by
    rw [List.erase_append_right _ notFront, List.erase_cons_head]
  rw [erased]
  rcases List.eq_nil_or_concat' front with rfl | ⟨xs, p, rfl⟩
  · exact absurd chained.first (by simpa using notNewest)
  · cases back with
    | nil =>
        have split : xs ++ [p] ++ [ent] = xs ++ [p, ent] := by simp
        obtain ⟨c', dropped, relinked, chained'⟩ := pop_chained (split ▸ chained)
        have oldest : c.oldest = some ent := by
          rw [chained.last]
          simp
        rw [List.append_nil]
        exact ⟨c', by rw [unlink, if_pos oldest, dropped], relinked, chained', by simp⟩
    | cons m ys =>
        have split : xs ++ [p] ++ ent :: m :: ys = xs ++ p :: ent :: m :: ys := by simp
        obtain ⟨c', unlinked, relinked, chained'⟩ := remove_chained (split ▸ chained)
        have join : xs ++ p :: m :: ys = xs ++ [p] ++ m :: ys := by simp
        exact ⟨c', unlinked, relinked, join ▸ chained', by simp⟩

/-- The entries in use, with one of them moved to the front. -/
theorem Recent.mem_front {c : PageCache} {l : List Nat} (recent : c.Recent l) {ent : Nat}
    (inside : ent ∈ l) (e : Nat) : e ∈ ent :: l.erase ent ↔ e < c.usedPage := by
  rw [List.mem_cons, recent.chained.nodup.mem_erase_iff, ← recent.all e]
  constructor
  · rintro (rfl | ⟨-, old⟩)
    · exact inside
    · exact old
  · intro member
    by_cases same : e = ent
    · exact Or.inl same
    · exact Or.inr ⟨same, member⟩

/-- A touch of the newest or the oldest entry moves it to the front. -/
theorem Recent.update {c : PageCache} {l : List Nat} (recent : c.Recent l) {ent : Nat}
    (ends : c.newest = some ent ∨ c.oldest = some ent) :
    ∃ c', c.update ent = some c' ∧ c'.Recent (ent :: l.erase ent) := by
  by_cases isNewest : c.newest = some ent
  · obtain ⟨rest, rfl⟩ : ∃ rest, l = ent :: rest := by
      rw [recent.chained.first, List.head?_eq_some_iff] at isNewest
      exact isNewest
    rw [List.erase_cons_head]
    exact ⟨c, by simp [PageCache.update, recent.chained.first], recent⟩
  · have isOldest := ends.resolve_left isNewest
    have inside : ent ∈ l := List.mem_of_getLast? (recent.chained.last ▸ isOldest)
    obtain ⟨c', unlinked, relinked, chained, some'⟩ := unlink_chained recent.chained inside isNewest
    obtain ⟨n, rest, shape⟩ := List.exists_cons_of_ne_nil some'
    have counted := recent.mem_front inside
    have fresh : ent ∉ l.erase ent := recent.chained.nodup.not_mem_erase
    rw [shape] at chained fresh counted ⊢
    rw [unlink, if_pos isOldest] at unlinked
    obtain ⟨-, pushed⟩ := push_chained chained fresh
    have newest' : c'.newest = c.newest := by
      cases back : (c.entry ent).prev with
      | none => simp [dropOldest, back] at unlinked
      | some p =>
          rw [dropOldest, back, Option.map_some, Option.some.injEq] at unlinked
          rw [← unlinked]
          rfl
    have front : c.newest = some n := newest' ▸ chained.first
    have notFront : ent ≠ n := fun same => fresh (same ▸ .head _)
    refine ⟨c'.pushNewest ent n, ?_, pushed, ?_⟩
    · simp only [PageCache.update, front, if_neg notFront, isOldest, if_true, unlinked,
        Option.map_some]
    · intro e
      rw [show (c'.pushNewest ent n).usedPage = c.usedPage from relinked.usedPage]
      exact counted e

theorem install_links (c : PageCache) (ent hash e : Nat) :
    ((c.install ent hash).entry e).next = (c.entry e).next ∧
      ((c.install ent hash).entry e).prev = (c.entry e).prev := by
  rw [install_entry]
  split
  · next same => exact ⟨by rw [same], by rw [same]⟩
  · exact ⟨rfl, rfl⟩

/-- The victim search goes along the list from its old end. -/
theorem Recent.victim_eq {c : PageCache} {l : List Nat} (recent : c.Recent l) :
    c.victim = l.reverse.find? fun e => !(c.entry e).wait := by
  rw [PageCache.victim, recent.chained.last, List.getLast?_eq_head?_reverse]
  have short := recent.length_le
  exact victimFrom_segment (by rw [List.length_reverse]; omega) recent.chained.prev

/-- The entries behind the victim all wait. -/
theorem Recent.victim_last {c : PageCache} {l : List Nat} (recent : c.Recent l) {ent : Nat}
    (found : c.victim = some ent) : (c.entry ent).wait = false ∧
      ∃ front back, l = front ++ ent :: back ∧ ∀ e ∈ back, (c.entry e).wait = true := by
  rw [recent.victim_eq, List.find?_eq_some_iff_append] at found
  obtain ⟨idle, older, newer, shape, waits⟩ := found
  refine ⟨by simpa using idle, newer.reverse, older.reverse, ?_, fun e member => ?_⟩
  · rw [← List.reverse_reverse l, shape]
    simp
  · simpa using waits e (List.mem_reverse.mp member)

/-- With an entry other than the newest that does not wait, there is a victim, and it
is not the newest either. -/
theorem Recent.victim {c : PageCache} {l : List Nat} (recent : c.Recent l)
    (ready : ∃ e < c.usedPage, c.newest ≠ some e ∧ (c.entry e).wait = false) :
    ∃ ent ∈ l, c.victim = some ent ∧ c.newest ≠ some ent := by
  obtain ⟨e, allocated, notNewest, idle⟩ := ready
  have inside := (recent.all e).mpr allocated
  have some' : c.victim.isSome := by
    rw [recent.victim_eq, List.find?_isSome]
    exact ⟨e, List.mem_reverse.mpr inside, by rw [idle]; rfl⟩
  obtain ⟨ent, found⟩ := Option.isSome_iff_exists.mp some'
  obtain ⟨-, front, back, rfl, waits⟩ := recent.victim_last found
  refine ⟨ent, by simp, found, ?_⟩
  intro isNewest
  -- otherwise every entry but the newest waits
  rw [recent.chained.first] at isNewest notNewest
  cases front with
  | cons n front =>
      obtain rfl : n = ent := by simpa using isNewest
      exact (List.nodup_cons.mp recent.chained.nodup).1 (by simp)
  | nil =>
      rcases List.mem_cons.mp inside with rfl | behind
      · exact notNewest rfl
      · rw [waits e behind] at idle
        cases idle

/-- Nothing leads back to the front of the list. -/
theorem Recent.next_ne {c : PageCache} {l : List Nat} (recent : c.Recent l) {e n : Nat}
    (allocated : e < c.usedPage) (onward : (c.entry e).next = some n) : c.newest ≠ some n := by
  obtain ⟨front, back, rfl⟩ := List.append_of_mem ((recent.all e).mpr allocated)
  have behind : n ∈ back := List.mem_of_head? (recent.chained.next_eq.symm.trans onward)
  have nodup := recent.chained.nodup
  rw [List.nodup_append, List.nodup_cons] at nodup
  obtain ⟨-, ⟨notBack, -⟩, apart⟩ := nodup
  rw [recent.chained.first]
  intro isFirst
  cases front with
  | nil => exact notBack (Option.some.inj isFirst ▸ behind)
  | cons a front => exact apart n (Option.some.inj isFirst ▸ .head _) n (.tail _ behind) rfl

/-- `NewEntry` puts its entry in front. -/
theorem Recent.newEntry {c : PageCache} {l : List Nat} (recent : c.Recent l) (hash : Nat)
    (ready : c.maxPage ≤ c.usedPage →
      ∃ e < c.usedPage, c.newest ≠ some e ∧ (c.entry e).wait = false) :
    ∃ ent c', c.newEntry hash = some (ent, c') ∧ c'.Recent (ent :: l.erase ent) := by
  unfold PageCache.newEntry
  split
  · let fresh := modify { c with usedPage := c.usedPage + 1 } c.usedPage fun e =>
      { e with page := c.usedPage * pageSize }
    have notIn : c.usedPage ∉ l := fun member => absurd ((recent.all _).mp member) (lt_irrefl _)
    have links : ∀ x ∈ l, ((fresh.install c.usedPage hash).entry x).next = (c.entry x).next ∧
        ((fresh.install c.usedPage hash).entry x).prev = (c.entry x).prev := by
      intro x member
      have other : x ≠ c.usedPage := fun same => notIn (same ▸ member)
      rw [(install_links ..).1, (install_links ..).2, modify_entry, if_neg other]
      exact ⟨rfl, rfl⟩
    have chained : Chained (fresh.install c.usedPage hash).newest (fresh.install c.usedPage hash).oldest
        (fun e => ((fresh.install c.usedPage hash).entry e).next)
        (fun e => ((fresh.install c.usedPage hash).entry e).prev) l :=
      recent.chained.congr (fun x member => (links x member).1) fun x member => (links x member).2
    have counted : ∀ e, e ∈ c.usedPage :: l ↔ e < c.usedPage + 1 := by
      intro e
      rw [List.mem_cons, recent.all]
      omega
    refine ⟨c.usedPage, ?_⟩
    rw [List.erase_of_not_mem notIn]
    cases l with
    | nil =>
        have empty : c.newest = none := recent.chained.first
        let alone := ((fresh.install c.usedPage hash).setPrev c.usedPage none).setNext c.usedPage none
        refine ⟨{ alone with newest := some c.usedPage, oldest := some c.usedPage }, ?_,
          .single ?_ ?_, counted⟩
        · show ((fresh.install c.usedPage hash).update c.usedPage).map _ = _
          rw [PageCache.update, show (fresh.install c.usedPage hash).newest = none from empty]
          rfl
        · show (alone.entry c.usedPage).next = none
          rw [setNext_next, if_pos rfl]
        · show (alone.entry c.usedPage).prev = none
          rw [setNext_prev, setPrev_prev, if_pos rfl]
    | cons n rest =>
        obtain ⟨updated, pushed⟩ := push_chained chained notIn
        refine ⟨_, ?_, pushed, counted⟩
        show ((fresh.install c.usedPage hash).update c.usedPage).map _ = _
        rw [updated]
        rfl
  · next full =>
      obtain ⟨ent, inside, found, notNewest⟩ := recent.victim (ready (Nat.le_of_not_lt full))
      obtain ⟨c', unlinked, relinked, chained, some'⟩ := unlink_chained recent.chained inside notNewest
      obtain ⟨n, rest, shape⟩ := List.exists_cons_of_ne_nil some'
      let evicted : PageCache := { c' with index := Function.update c'.index (c'.entry ent).hash none }
      have counted := recent.mem_front inside
      have fresh : ent ∉ l.erase ent := recent.chained.nodup.not_mem_erase
      have installed : Chained (evicted.install ent hash).newest (evicted.install ent hash).oldest
          (fun e => ((evicted.install ent hash).entry e).next)
          (fun e => ((evicted.install ent hash).entry e).prev) (l.erase ent) :=
        chained.congr (fun x _ => (install_links evicted ent hash x).1)
          fun x _ => (install_links evicted ent hash x).2
      refine ⟨ent, ?_⟩
      rw [shape] at installed fresh counted ⊢
      obtain ⟨updated, pushed⟩ := push_chained installed fresh
      simp only [found, unlinked]
      refine ⟨_, ?_, pushed, ?_⟩
      · show ((evicted.install ent hash).update ent).map _ = _
        rw [updated]
        rfl
      · intro e
        rw [show ((evicted.install ent hash).pushNewest ent n).usedPage = c.usedPage from relinked.usedPage]
        exact counted e

end PageCache

/-! ## Runs of Lookup and NewEntry -/

/-- A page cache in use, and the page last installed in each entry. -/
structure CacheUse where
  cache : PageCache
  held : Nat → Option Nat

inductive CacheAct where
  | lookup (hash : Nat)
  /-- `Lookup`, and `NewEntry` directly after it returned `nullptr`. -/
  | fetch (hash : Nat)
  /-- The read into an entry completes. -/
  | arrive (ent : Nat)

namespace CacheUse

def new (pages : Nat) (junk : Memory) : CacheUse := ⟨.new pages junk, fun _ => none⟩

/-- One call; the result is what `Lookup` returned. -/
def next (s : CacheUse) : CacheAct → Option (CacheUse × Option Nat)
  | .lookup hash => (s.cache.lookup hash).map fun out => (⟨out.2, s.held⟩, out.1)
  | .fetch hash =>
      match s.cache.lookup hash with
      | none => none
      | some (some ent, c) => some (⟨c, s.held⟩, some ent)
      | some (none, c) =>
          (c.newEntry hash).map fun out =>
            (⟨out.2, Function.update s.held out.1 (some hash)⟩, none)
  | .arrive ent => some (⟨s.cache.readCallback ent, s.held⟩, none)

/-- Reads complete before an eviction needs them: a full cache has an entry, other than
the newest, that waits for no data. -/
def Ready (s : CacheUse) : CacheAct → Prop
  | .fetch hash => s.cache.find hash = none → s.cache.maxPage ≤ s.cache.usedPage →
      ∃ e < s.cache.usedPage, s.cache.newest ≠ some e ∧ (s.cache.entry e).wait = false
  | _ => True

/-- The entry a `Lookup` finds is the newest or the oldest one. -/
def AtEnds (s : CacheUse) : CacheAct → Prop
  | .lookup hash | .fetch hash =>
      ∀ ent ∈ s.cache.find hash, s.cache.newest = some ent ∨ s.cache.oldest = some ent
  | .arrive _ => True

instance (s : CacheUse) : (act : CacheAct) → Decidable (s.Ready act)
  | .lookup _ => .isTrue trivial
  | .fetch hash => inferInstanceAs (Decidable (s.cache.find hash = none → _ → _))
  | .arrive _ => .isTrue trivial

instance (s : CacheUse) : (act : CacheAct) → Decidable (s.AtEnds act)
  | .lookup hash => inferInstanceAs (Decidable (∀ ent ∈ s.cache.find hash, _))
  | .fetch hash => inferInstanceAs (Decidable (∀ ent ∈ s.cache.find hash, _))
  | .arrive _ => .isTrue trivial

/-- Entries are unique, the index knows them all, and `Lookup` returns an entry exactly
for the page that was installed in it and not evicted since. -/
structure Complete (s : CacheUse) : Prop where
  unique : ∀ e < s.cache.usedPage, ∀ e' < s.cache.usedPage,
    (s.cache.entry e).hash = (s.cache.entry e').hash → e = e'
  indexed : ∀ e < s.cache.usedPage, s.cache.index (s.cache.entry e).hash = some e
  walk : ∀ hash, s.cache.find hash = s.cache.index hash
  returns : ∀ hash e, (s.cache.lookup hash).map Prod.fst = some (some e) ↔ s.held e = some hash
  misses : ∀ hash, (s.cache.lookup hash).map Prod.fst = some none ↔ ∀ e, s.held e ≠ some hash

/-- The invariant: the list holds every entry in use. -/
structure Whole (s : CacheUse) : Prop where
  wf : s.cache.Wf
  recent : ∃ l, s.cache.Recent l
  held : ∀ e hash, s.held e = some hash ↔ e < s.cache.usedPage ∧ (s.cache.entry e).hash = hash

theorem Whole.new (pages : Nat) (junk : Memory) : (CacheUse.new pages junk).Whole where
  wf := PageCache.new_wf pages junk
  recent := ⟨[], ⟨⟨rfl, rfl, List.nodup_nil, trivial, trivial⟩, by simp [CacheUse.new, PageCache.new]⟩⟩
  held := by simp [CacheUse.new, PageCache.new]

/-- `Lookup` survives in every state with a whole list, and answers as the index does. -/
theorem Whole.lookup_fst {s : CacheUse} (whole : s.Whole) (hash : Nat) :
    (s.cache.lookup hash).map Prod.fst = some (s.cache.index hash) := by
  obtain ⟨l, recent⟩ := whole.recent
  have agrees := PageCache.find_eq_index whole.wf (recent.truthful whole.wf hash)
  unfold PageCache.lookup
  rw [agrees]
  cases indexed : s.cache.index hash with
  | none => rfl
  | some ent =>
      have survives : ∃ c, s.cache.update ent = some c := by
        by_cases ends : s.cache.newest = some ent ∨ s.cache.oldest = some ent
        · obtain ⟨c, updated, -⟩ := recent.update ends
          exact ⟨c, updated⟩
        · rw [not_or] at ends
          have inside : ent ∈ l := (recent.all ent).mpr (whole.wf.bound hash ent indexed).1
          cases l with
          | nil => cases inside
          | cons n rest =>
              have front : s.cache.newest = some n := recent.chained.first
              have notFront : ent ≠ n := fun same => ends.1 (same ▸ front)
              exact ⟨_, PageCache.update_push front notFront ends.2⟩
      obtain ⟨c, updated⟩ := survives
      simp [updated]

theorem Whole.complete {s : CacheUse} (whole : s.Whole) : s.Complete := by
  obtain ⟨l, recent⟩ := whole.recent
  have byIndex : ∀ hash e, s.cache.index hash = some e ↔ s.held e = some hash := by
    intro hash e
    rw [whole.held]
    constructor
    · exact whole.wf.bound hash e
    · rintro ⟨allocated, rfl⟩
      exact whole.wf.indexed e allocated
  refine ⟨?_, whole.wf.indexed, fun hash => PageCache.find_eq_index whole.wf
    (recent.truthful whole.wf hash), ?_, ?_⟩
  · intro e allocated e' allocated' same
    have first := whole.wf.indexed e allocated
    rw [same, whole.wf.indexed e' allocated'] at first
    exact (Option.some.inj first).symm
  · intro hash e
    rw [whole.lookup_fst, Option.some.injEq, byIndex]
  · intro hash
    rw [whole.lookup_fst, Option.some.injEq]
    constructor
    · intro absent e holds
      rw [(byIndex hash e).mpr holds] at absent
      cases absent
    · intro nowhere
      cases indexed : s.cache.index hash with
      | none => rfl
      | some e => exact absurd ((byIndex hash e).mp indexed) (nowhere e)

/-- `Lookup` of the newest or the oldest entry, or of none. -/
theorem Whole.lookup {s : CacheUse} (whole : s.Whole) {hash : Nat}
    (ends : ∀ ent ∈ s.cache.find hash, s.cache.newest = some ent ∨ s.cache.oldest = some ent) :
    ∃ hit c, s.cache.lookup hash = some (hit, c) ∧ hit = s.cache.find hash ∧
      (CacheUse.mk c s.held).Whole := by
  obtain ⟨l, recent⟩ := whole.recent
  have truthful := recent.truthful whole.wf hash
  cases found : s.cache.find hash with
  | none => exact ⟨none, s.cache, by simp [PageCache.lookup, found], rfl, whole⟩
  | some ent =>
      obtain ⟨c, updated, recent'⟩ := recent.update (ends ent found)
      have looked : s.cache.lookup hash = some (some ent, c) := by
        simp [PageCache.lookup, found, updated]
      obtain ⟨-, relinked, wf⟩ := PageCache.lookup_spec whole.wf truthful looked
      refine ⟨some ent, c, looked, rfl, wf, ⟨_, recent'⟩, ?_⟩
      intro e hash'
      rw [whole.held, relinked.usedPage, relinked.hash]

/-- The step: calls that touch only the ends of the list keep it whole, and survive. -/
theorem Whole.next {s : CacheUse} (whole : s.Whole) (act : CacheAct) (ends : s.AtEnds act)
    (ready : s.Ready act) : ∃ s' hit, s.next act = some (s', hit) ∧ s'.Whole := by
  cases act with
  | lookup hash =>
      obtain ⟨hit, c, looked, -, whole'⟩ := whole.lookup ends
      exact ⟨⟨c, s.held⟩, hit, by simp [CacheUse.next, looked], whole'⟩
  | fetch hash =>
      obtain ⟨hit, c, looked, answer, whole'⟩ := whole.lookup ends
      cases hit with
      | some ent => exact ⟨⟨c, s.held⟩, some ent, by simp [CacheUse.next, looked], whole'⟩
      | none =>
          obtain ⟨rfl, missed⟩ := PageCache.lookup_miss looked
          obtain ⟨l, recent⟩ := whole.recent
          have absent : s.cache.index hash = none := recent.truthful whole.wf hash missed
          obtain ⟨ent, c, made, recent'⟩ := recent.newEntry hash (ready missed)
          obtain ⟨wf, claimed⟩ := PageCache.newEntry_claimed whole.wf absent made
          have took := PageCache.Sane.newEntry
            ⟨whole.wf.toLinked, fun h e indexed => (whole.wf.bound h e indexed).1⟩ made
          refine ⟨⟨c, Function.update s.held ent (some hash)⟩, none, ?_, wf, ⟨_, recent'⟩, ?_⟩
          · simp [CacheUse.next, looked, made]
          · intro e hash'
            show Function.update s.held ent (some hash) e = some hash' ↔
              e < c.usedPage ∧ (c.entry e).hash = hash'
            by_cases same : e = ent
            · subst same
              rw [Function.update_self, took.marked.2.2, Option.some.injEq]
              exact ⟨fun this => ⟨took.allocated, this⟩, And.right⟩
            · have range : e < c.usedPage ↔ e < s.cache.usedPage := by
                rcases claimed.origin with ⟨fresh, grown⟩ | ⟨-, -, kept⟩
                · omega
                · rw [kept]
              rw [Function.update_of_ne same, whole.held, range, (took.others e same).2.2]
  | arrive ent =>
      have done := PageCache.readCallback_completed s.cache ent
      obtain ⟨l, recent⟩ := whole.recent
      refine ⟨⟨s.cache.readCallback ent, s.held⟩, none, rfl, whole.wf.completed done,
        ⟨l, ⟨?_, ?_⟩⟩, ?_⟩
      · exact recent.chained.congr (fun x _ => done.next x) fun x _ => done.prev x
      · exact recent.all
      · intro e hash
        rw [whole.held, done.hash]
        rfl

end CacheUse

/-- **Lookup is complete while only the ends of the recent list are touched.**  For every
capacity and every sequence of `Lookup` and `NewEntry` calls, `NewEntry` only for a page
`Lookup` has just missed, with reads that complete before an eviction needs them: if every
entry a `Lookup` finds is the newest or the oldest one, every call returns and, in the
state reached, entries are unique, the index knows them all, and `Lookup` finds exactly
the pages installed and not evicted since. -/
theorem lookup_complete (pages : Nat) (junk : Memory) {acts : List CacheAct}
    (ready : Run.Along CacheUse.next CacheUse.Ready (.new pages junk) acts)
    (ends : Run.Along CacheUse.next CacheUse.AtEnds (.new pages junk) acts) :
    ∃ s hits, Run.run CacheUse.next (.new pages junk) acts = some (s, hits) ∧ s.Complete := by
  obtain ⟨s, hits, ran, whole⟩ := Run.total
    (fun s act whole ok => CacheUse.Whole.next whole act ok.1 ok.2) (.new pages junk)
    (ends.and ready)
  exact ⟨s, hits, ran, whole.complete⟩

theorem lookup_complete_example : ∃ s hits,
    Run.run CacheUse.next (.new 2 fun _ => 0) [.fetch 7, .arrive 0, .fetch 8, .arrive 1, .lookup 7,
      .fetch 9, .lookup 7] = some (s, hits) ∧ s.Complete := by
  exact lookup_complete 2 (fun _ => 0) (by decide +kernel) (by decide +kernel)

/-- Three pages; the middle one is touched, then the oldest: the newest is off the list,
and `Lookup` misses it. -/
theorem lookup_loses_page :
    ¬ ∀ (pages : Nat) (junk : Memory) (acts : List CacheAct), 2 ≤ pages →
      Run.Along CacheUse.next CacheUse.Ready (.new pages junk) acts →
      ∃ s hits, Run.run CacheUse.next (.new pages junk) acts = some (s, hits) ∧ s.Complete := by
  intro always
  obtain ⟨s, hits, ran, complete⟩ := always 3 (fun _ => 0)
    [.fetch 7, .fetch 8, .fetch 9, .lookup 8, .lookup 7] (by decide) (by decide +kernel)
  have lost : ∀ out ∈ Run.run CacheUse.next (.new 3 fun _ => 0)
      [.fetch 7, .fetch 8, .fetch 9, .lookup 8, .lookup 7],
      out.1.cache.find 9 = none ∧ out.1.cache.index 9 = some 2 := by
    decide +kernel
  obtain ⟨missed, indexed⟩ := lost _ ran
  have agrees := complete.walk 9
  rw [missed, indexed] at agrees
  cases agrees

end KTableFS.Kvengine
