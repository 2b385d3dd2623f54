/-
# Index.BtreeMap -- the B-tree index is an ordered map

A tree from `btree_new` answers any sequence of calls as the ordered map does, and is a B-tree
of its order after each of them (`IsBtree`).  A scan is for the keys from `min_key` to
`max_key`, both included.
-/
import KTableFS.Index.BtreeRemove
import KTableFS.Theory.Run

namespace KTableFS.Index.Btree

open KTableFS.Theory

set_option autoImplicit false

variable {σ K V : Type}

/-- The keys of a child lie between the pairs on its two sides. -/
def Tree.Separated (C : KeyCmp K) : (h : Nat) → Tree K V h → Prop
  | 0, _ => True
  | h + 1, t => (∀ (low high : List (Entry K V)) (before after : List (Tree K V h)) (k : Tree K V h),
      t.entries = low ++ high → t.kids = before ++ k :: after → before.length = low.length →
        ∀ x ∈ Tree.pairs h k, (∀ e ∈ low, C.order e.pair.1 x.1 = .lt) ∧ ∀ e ∈ high, C.order x.1 e.pair.1 = .lt) ∧
      ∀ k ∈ t.kids, Tree.Separated C h k

/-- The index is a B-tree.  Its leaves are all at the same depth, since a leaf is a `Tree` of one
level. -/
structure IsBtree (C : KeyCmp K) (T : Btree σ K V) (order : Nat) {h : Nat} (whole : Tree K V h) : Prop where
  root : T.root = Tree.ptr h whole
  /-- The pairs, the children and the parents of the nodes. -/
  memory : Tree.In T h null whole
  /-- No node and no pair is in two places. -/
  nodup : (Tree.addrs h whole).Nodup ∧ (Tree.cells h whole).Nodup
  sized : Tree.Sized order h (if h ≤ 1 then 0 else 1) (2 * order) whole
  separated : Tree.Separated C h whole

section IsBtree

variable {C : KeyCmp K}

theorem separated_of_ascending {order : Nat} : ∀ {h least most : Nat} {t : Tree K V h},
    Tree.Sized order h least most t → ((Tree.pairs h t).Pairwise fun a b => C.order a.1 b.1 = .lt) →
    Tree.Separated C h t
  | 0, _, _, _, _, _ => trivial
  | h + 1, least, most, t, sized, ascending => by
      obtain ⟨a, entries, kids, rfl⟩ := Tree.exists_node t
      obtain ⟨-, count, kidsSized⟩ := Tree.sized_node.mp sized
      have around : ∀ (low high : List (Entry K V)) (before after : List (Tree K V h)) (k : Tree K V h),
          entries = low ++ high → kids = before ++ k :: after → before.length = low.length →
          Tree.pairs (h + 1) (.node a entries kids) = weaveLeft (before.map (Tree.pairs h)) (low.map Entry.pair) ++
            (Tree.pairs h k ++ weaveRight (high.map Entry.pair) (after.map (Tree.pairs h))) ∧
          after.length = high.length := by
        intro low high before after k isEntries isKids same
        cases h with
        | zero => exact Empty.elim k
        | succ h =>
            have count := count (Nat.succ_ne_zero h)
            rw [isEntries, isKids] at count
            simp only [List.length_append, List.length_cons] at count
            have split : Tree.pairs (h + 1 + 1) (.node a (low ++ high) (before ++ [k] ++ after)) = _ := pairs_single k same
            rw [List.append_assoc, List.singleton_append] at split
            exact ⟨by rw [isEntries, isKids, split], by omega⟩
      refine ⟨fun low high before after k isEntries isKids same x member => ?_, fun k member => ?_⟩
      · obtain ⟨split, sameHigh⟩ := around low high before after k isEntries isKids same
        rw [split] at ascending
        obtain ⟨-, inner, below⟩ := List.pairwise_append.mp ascending
        obtain ⟨-, -, above⟩ := List.pairwise_append.mp inner
        constructor
        · intro e inLow
          refine below e.pair (mem_weaveLeft_of_key ?_ (List.mem_map_of_mem inLow)) x (List.mem_append_left _ member)
          simpa using same
        · intro e inHigh
          refine above x member e.pair (mem_weaveRight_of_key ?_ (List.mem_map_of_mem inHigh))
          simpa using sameHigh.symm
      · change k ∈ kids at member
        obtain ⟨before, after, isKids⟩ := List.append_of_mem member
        cases h with
        | zero => exact Empty.elim k
        | succ h =>
            have count := count (Nat.succ_ne_zero h)
            rw [isKids, List.length_append, List.length_cons] at count
            have same : before.length = (entries.take before.length).length := by
              rw [List.length_take]
              omega
            obtain ⟨split, -⟩ := around _ _ before after k (List.take_append_drop before.length entries).symm isKids same
            rw [split] at ascending
            have inner := (List.pairwise_append.mp (List.pairwise_append.mp ascending).2.1).1
            exact separated_of_ascending (kidsSized k member) inner

end IsBtree

/-- The index holds the pairs of the map, in memory that is in use. -/
def Represents {C : KeyCmp K} (A : Allocator σ) (order : Nat) (T : Btree σ K V) (m : OrderedMap K V C.order) : Prop :=
  T.order = order ∧ ∃ h, ∃ whole : Tree K V h, Rests C A T whole ∧ m.pairs = Tree.pairs h whole

section Represents

variable {C : KeyCmp K} {A : Allocator σ} {T : Btree σ K V} {h order : Nat} {whole : Tree K V h}
  {m : OrderedMap K V C.order}

/-- **`btree_lookup`** -/
theorem Rests.lookup [Inhabited V] (rests : Rests C A T whole) (holds : m.pairs = Tree.pairs h whole) (key : K) :
    T.lookup C key = some ((m.get? key).getD default) := by
  have root : T.root = Tree.ptr h whole := rests.stands.focus.root
  rcases rests.located key with ⟨stands, result, cut, same⟩ | ⟨stands, result, equal, below, same⟩ <;> rw [← root] at result
  · have all := same.contents
    rw [contents_top, ← holds] at all
    have missing : m.get? key = none := by
      refine OrderedMap.get?_of_cut cut (all.symm.trans ?_)
      simp only [contents, Tree.pairs_node, List.map_nil, weave_leaf, List.map_append, List.append_assoc]
    simp only [Btree.lookup, result, missing, Option.bind_eq_bind, Option.bind_some]
  · have all := same.contents
    rw [contents_top, ← holds] at all
    obtain ⟨lower, higher, split⟩ := stands.exists_split (List.mem_append_right _ (List.mem_cons_self ..))
    have found := OrderedMap.get?_of_found (all.symm.trans split) equal
    simp only [Btree.lookup, result, found, Option.bind_eq_bind, Option.bind_some]

/-- **`btree_scan`** -/
theorem Rests.scan (rests : Rests C A T whole) (holds : m.pairs = Tree.pairs h whole) (minKey maxKey : K) :
    Scans C minKey maxKey m.pairs (T.scan C minKey maxKey) := by
  have root : T.root = Tree.ptr h whole := rests.stands.focus.root
  rw [holds, Btree.scan, root]
  exact scanNode_spec rests.stands rests.stands.height_le

/-- The tree of `btree_new` is a leaf without pairs. -/
theorem Represents.new (C : KeyCmp K) (A : Allocator σ) (junk : Btree σ K V) (large : 2 < order) :
    ∃ T, Btree.new A junk order = some T ∧ Represents A order T (.empty : OrderedMap K V C.order) := by
  have real : (A.alloc A.new).1 ≠ null := A.alloc_ne_null _
  have run : ∃ T, Btree.new A junk order = some T ∧ T = { junk with
      order := order, size := 0, arena := (A.alloc A.new).2, root := (A.alloc A.new).1
      nodeSize := Function.update junk.nodeSize (A.alloc A.new).1 0
      child := Function.update junk.child (A.alloc A.new).1 null
      head := Function.update junk.head (A.alloc A.new).1 null
      next := Function.update junk.next (A.alloc A.new).1 null
      parent := Function.update junk.parent (A.alloc A.new).1 null } := by
    refine ⟨_, ?_, rfl⟩
    simp only [Btree.new, if_pos large, setNodeSize, setChild, setHead, setNext, setParent, store_real _ _ real,
      Option.map_some, Option.bind_eq_bind, Option.bind_some]
  obtain ⟨T, run, made⟩ := run
  have inUse := A.alloc_inUse A.new
  generalize (A.alloc A.new).1 = root at *
  let whole : Tree K V 1 := .node root [] []
  refine ⟨T, run, by rw [made], 1, whole, ⟨⟨⟨?_, ?_, Tree.in_node.mpr ⟨⟨?_, ?_, ?_,
    fun e member => absurd member List.not_mem_nil, ?_⟩, fun k member => absurd member List.not_mem_nil⟩, ?_, ?_, ?_, ?_⟩,
    ?_, trivial, ?_, ?_, ?_⟩, ?_, ?_⟩, rfl⟩
  · rw [made]
    rfl
  · rw [made]
    exact Function.update_self ..
  · rw [made]
    exact Function.update_self ..
  · rw [made]
    exact Function.update_self ..
  · rw [made]
    exact Function.update_self ..
  · rw [made]
    exact Function.update_self ..
  · exact List.nodup_singleton root
  · intro a member
    rw [List.mem_singleton.mp member]
    exact real
  · exact List.nodup_nil
  · exact fun c member => absurd member List.not_mem_nil
  · rw [made]
    exact large
  · exact Tree.sized_node.mpr ⟨⟨Nat.le_refl 0, Nat.zero_le _⟩, fun positive => absurd rfl positive,
      fun k member => absurd member List.not_mem_nil⟩
  · exact List.Pairwise.nil
  · exact Nat.zero_le _
  · intro p member
    rw [made]
    rcases member with isRoot | isCell
    · rw [List.mem_singleton.mp isRoot]
      exact inUse
    · exact absurd isCell List.not_mem_nil
  · rw [made]
    rfl

/-- **One call.** -/
theorem Represents.call [Inhabited V] (represents : Represents A order T m) (op : Op K V) :
    ∃ T' out, T.call C A op = some (T', out) ∧ out.Agrees (m.next (inRange C) op).2 ∧
      Represents A order T' (m.next (inRange C) op).1 := by
  obtain ⟨rfl, h, whole, rests, holds⟩ := represents
  cases op with
  | insert key value =>
      obtain ⟨T', h', whole', inserted, rests', order', holds'⟩ := rests.insert holds key value
      refine ⟨T', _, by rw [Btree.call, inserted, Option.map_some], ?_, order', h', whole', rests', ?_⟩
      · cases contains : m.contains key <;> simp only [OrderedMap.next, contains] <;> exact .code _
      · cases contains : m.contains key <;> simpa [OrderedMap.next, contains] using holds'.symm
  | remove key =>
      obtain ⟨T', h', whole', removed, rests', order', holds'⟩ := rests.remove holds key
      refine ⟨T', _, by rw [Btree.call, removed, Option.map_some], ?_, order', h', whole', rests', ?_⟩
      · cases contains : m.contains key <;> simp only [OrderedMap.next, contains] <;> exact .code _
      · cases contains : m.contains key <;> simpa [OrderedMap.next, contains] using holds'.symm
  | lookup key =>
      exact ⟨T, _, by rw [Btree.call, rests.lookup holds, Option.map_some], .value _, rfl, h, whole, rests, holds⟩
  | scan minKey maxKey =>
      obtain ⟨calls, scanned, perm⟩ := rests.scan holds minKey maxKey
      exact ⟨T, _, by rw [Btree.call, scanned, Option.map_some], .scanned perm, rfl, h, whole, rests, holds⟩

/-- The tree is a B-tree, and `tree->size` is the number of keys. -/
theorem Represents.isBtree (represents : Represents A order T m) : T.size = m.pairs.length ∧
    ∃ h, ∃ whole : Tree K V h, IsBtree C T order whole ∧ Tree.pairs h whole = m.pairs := by
  obtain ⟨rfl, h, whole, rests, holds⟩ := represents
  have nodup := rests.stands.focus.nodup
  have cellsNodup := rests.stands.focus.cellsNodup
  rw [Ctx.addrs, List.append_nil] at nodup
  rw [Ctx.cells, List.append_nil] at cellsNodup
  have ascending := rests.stands.ascending
  rw [contents_top] at ascending
  exact ⟨by rw [rests.size, holds], h, whole, ⟨rests.stands.focus.root, rests.stands.focus.below,
    ⟨nodup, cellsNodup⟩, rests.stands.sized, separated_of_ascending rests.stands.sized ascending⟩, holds.symm⟩

end Represents

/-- **The B-tree index is an ordered map.**  Every sequence of calls runs to its end and is
answered as the map does; the tree it leaves is a B-tree with the pairs of the map, and its
size is their number. -/
theorem btree_is_map [Inhabited V] (C : KeyCmp K) (A : Allocator σ) (junk : Btree σ K V) (order : Nat)
    (large : 2 < order) (ops : List (Op K V)) :
    ∃ T₀ T outs, Btree.new A junk order = some T₀ ∧ Run.run (Btree.call C A) T₀ ops = some (T, outs) ∧
      List.Forall₂ Out.Agrees outs
        (Run.trace (OrderedMap.next (inRange C)) (.empty : OrderedMap K V C.order) ops).2 ∧
      T.size = (Run.trace (OrderedMap.next (inRange C)) (.empty : OrderedMap K V C.order) ops).1.pairs.length ∧
      ∃ h, ∃ whole : Tree K V h, IsBtree C T order whole ∧ Tree.pairs h whole =
        (Run.trace (OrderedMap.next (inRange C)) (.empty : OrderedMap K V C.order) ops).1.pairs := by
  have steps : ∀ (T : Btree σ K V) (m : OrderedMap K V C.order) (op : Op K V), Represents A order T m →
      ∃ T' out, T.call C A op = some (T', out) ∧ out.Agrees (m.next (inRange C) op).2 ∧
        Represents A order T' (m.next (inRange C) op).1 := fun _ _ op represents => represents.call op
  obtain ⟨T₀, made, start⟩ := Represents.new C A junk large
  obtain ⟨T, outs, ran, agree, represents⟩ := Run.simulates_upTo steps ops start
  exact ⟨T₀, T, outs, made, ran, agree, represents.isBtree⟩

/-- Calls on a tree of order 3: the seventh key splits the root, and the removals merge its two
children. -/
def busy : List (Op Nat Nat) :=
  [.insert 1 10, .insert 2 20, .insert 3 30, .insert 4 40, .insert 5 50, .insert 6 60, .insert 7 70,
    .scan 2 6, .remove 1, .remove 7, .lookup 4, .insert 4 41, .scan 0 9]

/-- The first child of the root behind calls on a new tree. -/
def firstChild (ops : List (Op Nat Nat)) : Option Ptr := do
  let T₀ ← Btree.new Allocator.bump (.blank 0 0 0) 3
  let out ← Run.run (Btree.call KeyCmp.numbers Allocator.bump) T₀ ops
  some (out.1.child out.1.root)

theorem btree_is_map_example :
    (2 < 3 ∧ firstChild (busy.take 7) = some 1 ∧ firstChild busy = some null) ∧
    ∃ (T₀ T : Btree Nat Nat Nat) (outs : List (Out Nat Nat)),
      Btree.new Allocator.bump (.blank 0 0 0) 3 = some T₀ ∧
      Run.run (Btree.call KeyCmp.numbers Allocator.bump) T₀ busy = some (T, outs) ∧
      List.Forall₂ Out.Agrees outs
        (Run.trace (OrderedMap.next (inRange KeyCmp.numbers)) (.empty : OrderedMap Nat Nat KeyCmp.numbers.order)
          busy).2 ∧
      T.size = (Run.trace (OrderedMap.next (inRange KeyCmp.numbers))
        (.empty : OrderedMap Nat Nat KeyCmp.numbers.order) busy).1.pairs.length ∧
      ∃ h, ∃ whole : Tree Nat Nat h, IsBtree KeyCmp.numbers T 3 whole ∧ Tree.pairs h whole =
        (Run.trace (OrderedMap.next (inRange KeyCmp.numbers))
          (.empty : OrderedMap Nat Nat KeyCmp.numbers.order) busy).1.pairs := by
  refine ⟨⟨by decide, ?_, ?_⟩, btree_is_map KeyCmp.numbers Allocator.bump (.blank 0 0 0) 3 (by decide) busy⟩
  · decide +kernel
  · decide +kernel

end KTableFS.Index.Btree
