/-
# Index.RbtreeMap -- the red-black index is an ordered map

A tree from `rbtree_new` answers any sequence of calls as the ordered map does, and is a
red-black tree after each of them.  A scan is for the keys from `min_key` on and below
`max_key`.
-/
import KTableFS.Index.RbtreeUnlink
import KTableFS.Theory.Run

namespace KTableFS.Index.Rbtree

open KTableFS.Theory

set_option autoImplicit false

variable {σ K V : Type}

/-- The index holds the pairs of the map, in a red-black tree. -/
def Represents {C : KeyCmp K} (A : Allocator σ) (T : Rbtree σ K V) (m : OrderedMap K V C.order) : Prop :=
  ∃ whole, Stands A T whole ∧ m.pairs = whole.pairs

section Represents

variable {C : KeyCmp K} {A : Allocator σ} {T : Rbtree σ K V} {m : OrderedMap K V C.order}

/-- The tree of `rbtree_new` is empty. -/
theorem Represents.new [Inhabited K] [Inhabited V] (C : KeyCmp K) (A : Allocator σ)
    (junk : Ptr → RbtreeNode K V) :
    Represents A (Rbtree.new A junk) (OrderedMap.empty : OrderedMap K V C.order) := by
  refine ⟨.leaf, ⟨⟨rfl, trivial, trivial, List.nodup_nil, nofun, A.alloc_ne_null _, ?_⟩, ⟨0, .leaf⟩, rfl, rfl,
    nofun, A.alloc_inUse _⟩, rfl⟩
  show (Function.update junk (A.alloc A.new).1 _ (A.alloc A.new).1).color = .black
  rw [Function.update_self]

/-- **One call.** -/
theorem Represents.next [Inhabited V] (represents : Represents A T m) (op : Op K V) :
    ∃ T' out, T.next C A op = some (T', out) ∧ out.Agrees (m.next (inRange C) op).2 ∧
      Represents A T' (m.next (inRange C) op).1 := by
  obtain ⟨whole, stands, holds⟩ := represents
  cases op with
  | insert key value =>
      obtain ⟨T', whole', inserted, stands', holds'⟩ := stands.insert C holds key value
      refine ⟨T', _, by rw [Rbtree.next, inserted, Option.map_some], ?_, whole', stands', ?_⟩
      · cases contains : m.contains key <;> simp only [OrderedMap.next, contains] <;> exact .code _
      · cases contains : m.contains key <;> simpa [OrderedMap.next, contains] using holds'
  | remove key =>
      obtain ⟨T', whole', removed, stands', holds'⟩ := stands.remove C holds key
      refine ⟨T', _, by rw [Rbtree.next, removed, Option.map_some], ?_, whole', stands', ?_⟩
      · cases contains : m.contains key <;> simp only [OrderedMap.next, contains] <;> exact .code _
      · cases contains : m.contains key <;> simpa [OrderedMap.next, contains] using holds'
  | lookup key =>
      refine ⟨T, _, by rw [Rbtree.next, stands.lookup C holds, Option.map_some], .value _, whole, stands, holds⟩
  | scan minKey maxKey =>
      obtain ⟨calls, scanned, perm⟩ := stands.scan C holds minKey maxKey
      refine ⟨T, _, by rw [Rbtree.next, scanned, Option.map_some], .scanned perm, whole, stands, holds⟩

/-- `T->size` is the number of keys. -/
theorem Represents.size (represents : Represents A T m) : T.size = m.pairs.length := by
  obtain ⟨whole, stands, holds⟩ := represents
  rw [stands.size, holds]

end Represents

/-- **The red-black index is an ordered map.**  Every sequence of calls runs to its end and is
answered as the map does; the tree it leaves is a red-black search tree with the pairs of the
map, its size is their number, and `rb_valid` passes on it. -/
theorem rbtree_is_map [Inhabited K] [Inhabited V] (C : KeyCmp K) (A : Allocator σ)
    (junk : Ptr → RbtreeNode K V) (ops : List (Op K V)) :
    ∃ T outs, Run.run (Rbtree.next C A) (Rbtree.new A junk) ops = some (T, outs) ∧
      List.Forall₂ Out.Agrees outs
        (Run.trace (OrderedMap.next (inRange C)) (.empty : OrderedMap K V C.order) ops).2 ∧
      Represents A T (Run.trace (OrderedMap.next (inRange C)) (.empty : OrderedMap K V C.order) ops).1 ∧
      T.size = (Run.trace (OrderedMap.next (inRange C)) (.empty : OrderedMap K V C.order) ops).1.pairs.length ∧
      ∃ n, T.valid = some n := by
  have steps : ∀ (T : Rbtree σ K V) (m : OrderedMap K V C.order) (op : Op K V), Represents A T m →
      ∃ T' out, T.next C A op = some (T', out) ∧ out.Agrees (m.next (inRange C) op).2 ∧
        Represents A T' (m.next (inRange C) op).1 := fun _ _ op represents => represents.next op
  obtain ⟨T, outs, ran, agree, represents⟩ := Run.simulates_upTo steps ops (Represents.new C A junk)
  refine ⟨T, outs, ran, agree, represents, represents.size, ?_⟩
  obtain ⟨whole, stands, -⟩ := represents
  exact stands.valid

end KTableFS.Index.Rbtree
