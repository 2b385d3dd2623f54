/-
# Index.Depth -- how far down the indexes look

The balance of the two trees bounds the loops that walk down from the root, and the recursion of
the scans: by twice the binary logarithm of the number of keys in the red-black tree
(`rbtree_depth`), by the logarithm to the base `order + 1` in the B-tree (`btree_depth`).  The
fuel of a loop is the number of its turns, so the bounds are stated as fuel that suffices.
-/
import KTableFS.Index.BtreeMap
import KTableFS.Index.RbtreeMap
import Mathlib.Algebra.Ring.Nat
import Mathlib.Data.Nat.Log

namespace KTableFS.Index

open KTableFS.Theory

set_option autoImplicit false

variable {σ K V : Type}

namespace Rbtree

/-! ## The red-black tree -/

def Tree.height : Tree K V → Nat
  | .leaf => 0
  | .node _ _ l _ r => max l.height r.height + 1

/-- At most every other node of a path is red. -/
theorem Tree.RedBlack.height_le {t : Tree K V} {n : Nat} (redBlack : t.RedBlack n) :
    t.height ≤ 2 * n + if t.color = .red then 1 else 0 := by
  induction redBlack with
  | leaf => exact Nat.le_refl 0
  | @black n _ l r _ _ _ ihL ihR =>
      have low : ∀ c : Color, (if c = .red then 1 else 0) ≤ 1 := fun c => by split <;> omega
      have left := low l.color
      have right := low r.color
      simp only [Tree.height, Tree.color]
      omega
  | red _ _ blackLeft blackRight ihL ihR =>
      rw [blackLeft] at ihL
      rw [blackRight] at ihR
      simp only [Tree.height, Tree.color, if_true, reduceCtorEq, if_false] at ihL ihR ⊢
      omega

/-- A path has a logarithm of black nodes. -/
theorem Tree.RedBlack.two_pow_le {t : Tree K V} {n : Nat} (redBlack : t.RedBlack n) :
    2 ^ n ≤ t.pairs.length + 1 := by
  induction redBlack with
  | leaf => exact Nat.le_refl 1
  | black _ _ ihL ihR =>
      rw [Tree.pairs, List.length_append, List.length_cons, Nat.pow_succ]
      omega
  | red _ _ _ _ ihL _ =>
      rw [Tree.pairs, List.length_append, List.length_cons]
      omega

theorem Tree.height_le_length : ∀ t : Tree K V, t.height ≤ t.pairs.length
  | .leaf => Nat.le_refl 0
  | .node _ _ l _ r => by
      have left := l.height_le_length
      have right := r.height_le_length
      rw [Tree.height, Tree.pairs, List.length_append, List.length_cons]
      omega

theorem Stands.height_le {A : Allocator σ} {T : Rbtree σ K V} {whole : Tree K V} (stands : Stands A T whole) :
    whole.height ≤ 2 * Nat.log 2 (T.size + 1) := by
  obtain ⟨n, redBlack⟩ := stands.redBlack
  have height := redBlack.height_le
  rw [stands.black, if_neg (by decide)] at height
  have black : n ≤ Nat.log 2 (T.size + 1) := by
    rw [stands.size]
    exact Nat.le_log_of_pow_le (by decide) redBlack.two_pow_le
  omega

section Loops

variable {T : Rbtree σ K V} (C : KeyCmp K)

/-- Turns beyond the height of the tree are not taken. -/
theorem search_turns (key : K) {t : Tree K V} : ∀ {n m : Nat} {ctx : Ctx K V}, Focus T ctx t → t.height < n →
    t.height < m → T.search C key n (t.ptr T.nil) = T.search C key m (t.ptr T.nil) := by
  induction t with
  | leaf =>
      intro n m ctx focus roomN roomM
      obtain ⟨n, rfl⟩ := Nat.exists_eq_succ_of_ne_zero (Nat.ne_of_gt roomN)
      obtain ⟨m, rfl⟩ := Nat.exists_eq_succ_of_ne_zero (Nat.ne_of_gt roomM)
      rw [Tree.ptr_leaf, search, search, if_pos rfl, if_pos rfl]
  | node a c l pair r ihL ihR =>
      intro n m ctx focus roomN roomM
      obtain ⟨n, rfl⟩ := Nat.exists_eq_succ_of_ne_zero (Nat.ne_of_gt (Nat.lt_of_le_of_lt (Nat.zero_le _) roomN))
      obtain ⟨m, rfl⟩ := Nat.exists_eq_succ_of_ne_zero (Nat.ne_of_gt (Nat.lt_of_le_of_lt (Nat.zero_le _) roomM))
      obtain ⟨notNil, keyIs, -, leftIs, rightIs⟩ := focus.reads
      have atL : Focus T (⟨.left, a, c, pair, r⟩ :: ctx) l := Focus.up.mpr focus
      have atR : Focus T (⟨.right, a, c, pair, l⟩ :: ctx) r := Focus.up.mpr focus
      rw [Tree.height] at roomN roomM
      simp only [Tree.ptr_node, search, if_neg notNil, keyIs, leftIs, rightIs, Option.bind_eq_bind,
        Option.bind_some, ihL atL (show l.height < n by omega) (show l.height < m by omega),
        ihR atR (show r.height < n by omega) (show r.height < m by omega)]

/-- Nor does a scan go deeper. -/
theorem scanRecurse_depth (minKey maxKey : K) {t : Tree K V} : ∀ {n m : Nat} {ctx : Ctx K V}, Focus T ctx t →
    t.height < n → t.height < m →
    T.scanRecurse C minKey maxKey n (t.ptr T.nil) = T.scanRecurse C minKey maxKey m (t.ptr T.nil) := by
  induction t with
  | leaf =>
      intro n m ctx focus roomN roomM
      obtain ⟨n, rfl⟩ := Nat.exists_eq_succ_of_ne_zero (Nat.ne_of_gt roomN)
      obtain ⟨m, rfl⟩ := Nat.exists_eq_succ_of_ne_zero (Nat.ne_of_gt roomM)
      rw [Tree.ptr_leaf, scanRecurse, scanRecurse, if_pos rfl, if_pos rfl]
  | node a c l pair r ihL ihR =>
      intro n m ctx focus roomN roomM
      obtain ⟨n, rfl⟩ := Nat.exists_eq_succ_of_ne_zero (Nat.ne_of_gt (Nat.lt_of_le_of_lt (Nat.zero_le _) roomN))
      obtain ⟨m, rfl⟩ := Nat.exists_eq_succ_of_ne_zero (Nat.ne_of_gt (Nat.lt_of_le_of_lt (Nat.zero_le _) roomM))
      obtain ⟨notNil, keyIs, valueIs, leftIs, rightIs⟩ := focus.reads
      have atL : Focus T (⟨.left, a, c, pair, r⟩ :: ctx) l := Focus.up.mpr focus
      have atR : Focus T (⟨.right, a, c, pair, l⟩ :: ctx) r := Focus.up.mpr focus
      rw [Tree.height] at roomN roomM
      simp only [Tree.ptr_node, scanRecurse, if_neg notNil, keyIs, valueIs, leftIs, rightIs, Option.bind_eq_bind,
        Option.bind_some, ihL atL (show l.height < n by omega) (show l.height < m by omega),
        ihR atR (show r.height < n by omega) (show r.height < m by omega)]

end Loops

/-- **A search of the red-black index takes at most `2 log (size + 1) + 1` turns**, and a scan nests no
deeper, after any calls. -/
theorem rbtree_depth [Inhabited K] [Inhabited V] (C : KeyCmp K) (A : Allocator σ)
    (junk : Ptr → RbtreeNode K V) (ops : List (Op K V)) :
    ∃ T outs, Run.run (Rbtree.next C A) (Rbtree.new A junk) ops = some (T, outs) ∧
      (∀ key, ∃ found, T.search C key (2 * Nat.log 2 (T.size + 1) + 1) T.root = some found ∧
        T.search C key (T.size + 1) T.root = some found) ∧
      ∀ minKey maxKey, ∃ out, T.scanRecurse C minKey maxKey (2 * Nat.log 2 (T.size + 1) + 1) T.root = some out ∧
        T.scan C minKey maxKey = some out := by
  have steps : ∀ (T : Rbtree σ K V) (m : OrderedMap K V C.order) (op : Op K V), Represents A T m →
      ∃ T' out, T.next C A op = some (T', out) ∧ out.Agrees (m.next (inRange C) op).2 ∧
        Represents A T' (m.next (inRange C) op).1 := fun _ _ op represents => represents.next op
  obtain ⟨T, outs, ran, -, whole, stands, holds⟩ := Run.simulates_upTo steps ops (Represents.new C A junk)
  have root : T.root = whole.ptr T.nil := stands.focus.root
  have height := stands.height_le
  have all : whole.height < T.size + 1 := Nat.lt_of_le_of_lt whole.height_le_length stands.room
  refine ⟨T, outs, ran, fun key => ?_, fun minKey maxKey => ?_⟩
  · have searched := search_spec C key stands.focus stands.room
    rw [← root] at searched
    refine ⟨_, ?_, searched⟩
    rw [← searched, root]
    exact search_turns C key stands.focus (Nat.lt_succ_of_le height) all
  · obtain ⟨calls, scanned, -⟩ := stands.scan C holds minKey maxKey
    refine ⟨_, ?_, scanned⟩
    rw [← scanned, Rbtree.scan, root]
    exact scanRecurse_depth C minKey maxKey stands.focus (Nat.lt_succ_of_le height) all

end Rbtree

namespace Btree

/-! ## The B-tree -/

/-- Children with many pairs each. -/
theorem length_mul_le {α β : Type} {c : Nat} {f : α → List β} : ∀ {kids : List α},
    (∀ k ∈ kids, c ≤ (f k).length + 1) → kids.length * c ≤ (kids.flatMap f).length + kids.length
  | [], _ => by rw [List.length_nil, Nat.zero_mul]; exact Nat.zero_le _
  | k :: kids, many => by
      have here := many k (List.mem_cons_self ..)
      have rest := length_mul_le fun k' member => many k' (List.mem_cons_of_mem _ member)
      rw [List.length_cons, Nat.succ_mul, List.flatMap_cons, List.length_append]
      omega

/-- A tree of `h + 1` levels has exponentially many pairs. -/
theorem Tree.Sized.pow_le {order : Nat} : ∀ {h least most : Nat} {t : Tree K V (h + 1)},
    Tree.Sized order (h + 1) least most t → (least + 1) * (order + 1) ^ h ≤ (Tree.pairs (h + 1) t).length + 1
  | 0, least, most, t, sized => by
      obtain ⟨a, entries, kids, rfl⟩ := Tree.exists_node t
      have low : least ≤ entries.length := sized.1.1
      rw [Tree.length_pairs sized, Nat.pow_zero, Nat.mul_one]
      omega
  | h + 1, least, most, t, sized => by
      obtain ⟨a, entries, kids, rfl⟩ := Tree.exists_node t
      obtain ⟨⟨low, -⟩, count, kidsSized⟩ := Tree.sized_node.mp sized
      have count := count (Nat.succ_ne_zero h)
      have each : ∀ k ∈ kids, (order + 1) ^ (h + 1) ≤ (Tree.pairs (h + 1) k).length + 1 := fun k member => by
        rw [Nat.pow_succ, Nat.mul_comm]
        exact (kidsSized k member).pow_le
      have all := length_mul_le each
      have more : (least + 1) * (order + 1) ^ (h + 1) ≤ kids.length * (order + 1) ^ (h + 1) :=
        Nat.mul_le_mul_right _ (by omega)
      rw [Tree.length_pairs sized]
      omega

/-- As many levels as the bound allows. -/
theorem Rests.height_le {C : KeyCmp K} {A : Allocator σ} {T : Btree σ K V} {h : Nat} {whole : Tree K V h}
    (rests : Rests C A T whole) : h ≤ Nat.log (T.order + 1) ((T.size + 1) / 2) + 1 := by
  have order := rests.stands.order
  cases h with
  | zero => exact Nat.zero_le _
  | succ h =>
      have many := rests.stands.sized.pow_le
      rw [← rests.size] at many
      apply Nat.succ_le_succ
      cases h with
      | zero => exact Nat.zero_le _
      | succ h =>
          -- the root has a pair, and so two children
          apply Nat.le_log_of_pow_le (by omega)
          rw [Nat.le_div_iff_mul_le (by decide), Nat.mul_comm]
          exact many

/-- What a search has found is the answer of the map. -/
theorem Located.answer {C : KeyCmp K} {T : Btree σ K V} {key : K} {fuel h : Nat} {whole : Tree K V h}
    (located : Located C T key fuel .top whole) {m : OrderedMap K V C.order}
    (holds : m.pairs = Tree.pairs h whole) :
    ∃ node, T.lookupNode C key fuel (Tree.ptr h whole) = some (node, m.get? key) := by
  cases located with
  | missing stands result cut same =>
      have all := same.contents
      rw [contents_top, ← holds] at all
      have missing : m.get? key = none := by
        refine OrderedMap.get?_of_cut cut (all.symm.trans ?_)
        simp only [contents, Tree.pairs_node, List.map_nil, weave_leaf, List.map_append, List.append_assoc]
      rw [missing]
      exact ⟨_, result⟩
  | found stands result equal below same =>
      have all := same.contents
      rw [contents_top, ← holds] at all
      obtain ⟨lower, higher, split⟩ := stands.exists_split (List.mem_append_right _ (List.mem_cons_self ..))
      rw [OrderedMap.get?_of_found (all.symm.trans split) equal]
      exact ⟨_, result⟩

/-- **A search of the B-tree index reads at most `log ((size + 1) / 2) + 1` nodes**, the logarithm to the
base `order + 1`, and a scan nests no deeper, after any calls. -/
theorem btree_depth [Inhabited V] (C : KeyCmp K) (A : Allocator σ) (junk : Btree σ K V) (order : Nat)
    (large : 2 < order) (ops : List (Op K V)) :
    ∃ T₀ T outs, Btree.new A junk order = some T₀ ∧ Run.run (Btree.call C A) T₀ ops = some (T, outs) ∧
      (∀ key, ∃ node, T.lookupNode C key (Nat.log (order + 1) ((T.size + 1) / 2) + 1) T.root = some (node,
        (Run.trace (OrderedMap.next (inRange C)) (.empty : OrderedMap K V C.order) ops).1.get? key)) ∧
      ∀ minKey maxKey, Scans C minKey maxKey
        (Run.trace (OrderedMap.next (inRange C)) (.empty : OrderedMap K V C.order) ops).1.pairs
        (T.scanNode C minKey maxKey (Nat.log (order + 1) ((T.size + 1) / 2) + 1) T.root) := by
  have steps : ∀ (T : Btree σ K V) (m : OrderedMap K V C.order) (op : Op K V), Represents A order T m →
      ∃ T' out, T.call C A op = some (T', out) ∧ out.Agrees (m.next (inRange C) op).2 ∧
        Represents A order T' (m.next (inRange C) op).1 := fun _ _ op represents => represents.call op
  obtain ⟨T₀, made, start⟩ := Represents.new C A junk large
  obtain ⟨T, outs, ran, -, rfl, h, whole, rests, holds⟩ := Run.simulates_upTo steps ops start
  have root : T.root = Tree.ptr h whole := rests.stands.focus.root
  refine ⟨T₀, T, outs, made, ran, fun key => ?_, fun minKey maxKey => ?_⟩
  · have outside : OrderedMap.Cut C.order key (Ctx.top : Ctx K V h).low (Ctx.top : Ctx K V h).high :=
      ⟨fun _ member => absurd member List.not_mem_nil, fun _ member => absurd member List.not_mem_nil⟩
    rw [root]
    exact (lookupNode_spec rests.stands outside rests.height_le).answer holds
  · rw [root, holds]
    exact scanNode_spec rests.stands rests.height_le

theorem btree_depth_example : 2 < 3 ∧ ∃ (T₀ T : Btree Nat Nat Nat) (outs : List (Out Nat Nat)),
    Btree.new Allocator.bump (.blank 0 0 0) 3 = some T₀ ∧
    Run.run (Btree.call KeyCmp.numbers Allocator.bump) T₀ [.insert 1 10, .insert 2 20] = some (T, outs) ∧
    (∀ key, ∃ node, T.lookupNode KeyCmp.numbers key (Nat.log (3 + 1) ((T.size + 1) / 2) + 1) T.root =
      some (node, (Run.trace (OrderedMap.next (inRange KeyCmp.numbers))
        (.empty : OrderedMap Nat Nat KeyCmp.numbers.order) [.insert 1 10, .insert 2 20]).1.get? key)) ∧
    ∀ minKey maxKey, Scans KeyCmp.numbers minKey maxKey
      (Run.trace (OrderedMap.next (inRange KeyCmp.numbers))
        (.empty : OrderedMap Nat Nat KeyCmp.numbers.order) [.insert 1 10, .insert 2 20]).1.pairs
      (T.scanNode KeyCmp.numbers minKey maxKey (Nat.log (3 + 1) ((T.size + 1) / 2) + 1) T.root) :=
  ⟨by decide, btree_depth KeyCmp.numbers Allocator.bump (.blank 0 0 0) 3 (by decide)
    [.insert 1 10, .insert 2 20]⟩

end Btree

end KTableFS.Index
