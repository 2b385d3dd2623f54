/-
# Index.RbtreeSearch -- descents in the red-black index

Every operation of the index looks for a key from the root downwards.  `descend` is that
walk over trees: it ends at the node of the key, or at the leaf where the key belongs, and it
keeps the pairs that are off its path cut in two at the key (`descend_cut`).  The loops of
`rbtree_insert`, `rbtree_remove` and `rbtree_lookup` all take it (`place_spec`, `search_spec`).

`Stands` is what holds of the index between two operations.
-/
import KTableFS.Index.RbtreeBalance

namespace KTableFS.Index

open KTableFS.Theory

set_option autoImplicit false

namespace Rbtree

variable {σ K V : Type}

/-! ## The walk -/

section Walk

variable (C : KeyCmp K) (key : K)

def descend : Ctx K V → Tree K V → Ctx K V × Tree K V
  | ctx, .leaf => (ctx, .leaf)
  | ctx, .node a c l pair r =>
      if C.keyLess key pair.1 then descend (⟨.left, a, c, pair, r⟩ :: ctx) l
      else if C.keyEqual key pair.1 then (ctx, .node a c l pair r)
      else descend (⟨.right, a, c, pair, l⟩ :: ctx) r

theorem plug_descend (t : Tree K V) : ∀ ctx : Ctx K V,
    Ctx.plug (descend C key ctx t).1 (descend C key ctx t).2 = Ctx.plug ctx t := by
  induction t with
  | leaf => exact fun _ => rfl
  | node a c l pair r ihL ihR =>
      intro ctx
      unfold descend
      split
      · exact ihL _
      · split
        · rfl
        · exact ihR _

/-- The hole is on the key's side of its parent. -/
def Ctx.Faces (ctx : Ctx K V) : Prop :=
  ∀ f ∈ ctx.head?, f.side = if C.keyLess key f.pair.1 then .left else .right

/-- **Where the walk ends.**  The pairs are still cut at the key, and the tree at the end is a
leaf or the node of the key. -/
theorem descend_cut {t : Tree K V} : ∀ {ctx : Ctx K V},
    ((Ctx.plug ctx t).pairs.Pairwise fun a b => C.order a.1 b.1 = .lt) →
    OrderedMap.Cut C.order key (Ctx.low ctx) (Ctx.high ctx) → Ctx.Faces C key ctx →
    OrderedMap.Cut C.order key (Ctx.low (descend C key ctx t).1) (Ctx.high (descend C key ctx t).1) ∧
      Ctx.Faces C key (descend C key ctx t).1 ∧
      ((descend C key ctx t).2 = .leaf ∨ ∃ a c l pair r,
        (descend C key ctx t).2 = .node a c l pair r ∧ C.order key pair.1 = .eq) := by
  induction t with
  | leaf => exact fun _ cut faces => ⟨cut, faces, Or.inl rfl⟩
  | node a c l pair r ihL ihR =>
      intro ctx ascending cut faces
      have sorted := ascending
      rw [Ctx.pairs_plug, Tree.pairs, List.append_assoc, List.cons_append] at sorted
      have around := (List.pairwise_append.mp ((List.pairwise_append.mp sorted).2.1))
      obtain ⟨-, ofPair, beforePair⟩ := around
      unfold descend
      split
      · next less =>
          have below : C.order key pair.1 = .lt := C.order_lt.mpr less
          refine ihL ascending ⟨cut.low, fun e member => ?_⟩ fun f isHead => ?_
          · -- what is behind the pair is greater still
            rcases List.mem_cons.mp member with rfl | later
            · exact below
            · rcases List.mem_append.mp later with inR | inHigh
              · exact Std.TransCmp.lt_trans below
                  ((List.pairwise_cons.mp ofPair).1 e (List.mem_append_left _ inR))
              · exact cut.high e inHigh
          · cases isHead
            exact (if_pos less).symm
      · next notLess =>
          split
          · next equal => exact ⟨cut, faces, Or.inr ⟨a, c, l, pair, r, rfl, C.order_eq.mpr equal⟩⟩
          · next notEqual =>
              have above : C.order pair.1 key = .lt := by
                refine Std.OrientedCmp.lt_of_gt ?_
                unfold KeyCmp.order
                rw [if_neg notLess, if_neg notEqual]
              refine ihR ascending ⟨fun e member => ?_, cut.high⟩ fun f isHead => ?_
              · simp only [Ctx.low, List.mem_append, List.mem_singleton] at member
                rcases member with inLow | inL | rfl
                · exact cut.low e inLow
                · exact Std.TransCmp.lt_trans (beforePair e inL pair (List.mem_cons_self ..)) above
                · exact above
              · cases isHead
                exact (if_neg notLess).symm

end Walk

/-! ## The loops that take it -/

/-- The node a walk has ended at. -/
def Tree.found : Tree K V → Option Ptr
  | .leaf => none
  | .node a .. => some a

section Loops

variable {T : Rbtree σ K V} (C : KeyCmp K) (key : K)

/-- What the loops read of the node at the focus. -/
theorem Focus.reads {ctx : Ctx K V} {a : Ptr} {c : Color} {pair : K × V} {l r : Tree K V}
    (focus : Focus T ctx (.node a c l pair r)) : a ≠ T.nil ∧ T.key a = some pair.1 ∧
      T.value a = some pair.2 ∧ T.left a = some (l.ptr T.nil) ∧ T.right a = some (r.ptr T.nil) := by
  have made : Focus T ctx (.make .left a c pair l r) := focus
  obtain ⟨notNull, notNil⟩ := made.addr_real
  exact ⟨notNil, key_cell made.cell notNull, value_cell made.cell notNull, child_near made.cell notNull,
    child_far made.cell notNull⟩

/-- **The loop of `rbtree_remove` and `rbtree_lookup`.** -/
theorem search_spec {t : Tree K V} : ∀ {fuel : Nat} {ctx : Ctx K V}, Focus T ctx t →
    t.pairs.length < fuel →
    T.search C key fuel (t.ptr T.nil) = some (descend C key ctx t).2.found := by
  induction t with
  | leaf =>
      intro fuel ctx focus room
      obtain ⟨fuel, rfl⟩ := Nat.exists_eq_succ_of_ne_zero (Nat.ne_of_gt room)
      rw [Tree.ptr_leaf, search, if_pos rfl]
      rfl
  | node a c l pair r ihL ihR =>
      intro fuel ctx focus room
      obtain ⟨fuel, rfl⟩ := Nat.exists_eq_succ_of_ne_zero (Nat.ne_of_gt (Nat.lt_of_le_of_lt (Nat.zero_le _) room))
      obtain ⟨notNil, keyIs, -, leftIs, rightIs⟩ := focus.reads
      rw [Tree.pairs, List.length_append, List.length_cons] at room
      have atL : Focus T (⟨.left, a, c, pair, r⟩ :: ctx) l := Focus.up.mpr focus
      have atR : Focus T (⟨.right, a, c, pair, l⟩ :: ctx) r := Focus.up.mpr focus
      simp only [Tree.ptr_node, search, if_neg notNil, keyIs, leftIs, rightIs, descend, Option.bind_eq_bind,
        Option.bind_some]
      split
      · exact ihL atL (by omega)
      · split
        · rfl
        · exact ihR atR (by omega)

/-- **The loop of `rbtree_insert`.** -/
theorem place_spec {z : Ptr} (keyIs : T.key z = some key) {t : Tree K V} : ∀ {fuel : Nat} {ctx : Ctx K V},
    Focus T ctx t → t.pairs.length < fuel →
    T.place C z fuel (Ctx.parent T.nil ctx) (t.ptr T.nil) =
      some (match (descend C key ctx t).2 with
        | .leaf => some (Ctx.parent T.nil (descend C key ctx t).1)
        | .node .. => none) := by
  induction t with
  | leaf =>
      intro fuel ctx focus room
      obtain ⟨fuel, rfl⟩ := Nat.exists_eq_succ_of_ne_zero (Nat.ne_of_gt room)
      rw [Tree.ptr_leaf, place, if_pos rfl]
      rfl
  | node a c l pair r ihL ihR =>
      intro fuel ctx focus room
      obtain ⟨fuel, rfl⟩ := Nat.exists_eq_succ_of_ne_zero (Nat.ne_of_gt (Nat.lt_of_le_of_lt (Nat.zero_le _) room))
      obtain ⟨notNil, hereIs, -, leftIs, rightIs⟩ := focus.reads
      rw [Tree.pairs, List.length_append, List.length_cons] at room
      have atL : Focus T (⟨.left, a, c, pair, r⟩ :: ctx) l := Focus.up.mpr focus
      have atR : Focus T (⟨.right, a, c, pair, l⟩ :: ctx) r := Focus.up.mpr focus
      have roomL : l.pairs.length < fuel := by omega
      have roomR : r.pairs.length < fuel := by omega
      simp only [Tree.ptr_node, place, if_neg notNil, keyIs, hereIs, leftIs, rightIs, descend,
        Option.bind_eq_bind, Option.bind_some]
      split
      · exact ihL atL (by omega)
      · split
        · rfl
        · exact ihR atR (by omega)

end Loops

/-! ## Scans, and the check of the DEBUG build -/

/-- The keys of a scan. -/
def inRange (C : KeyCmp K) (minKey maxKey key : K) : Bool := !C.keyLess key minKey && C.keyLess key maxKey

section Scan

variable {T : Rbtree σ K V} (C : KeyCmp K) (minKey maxKey : K)

/-- Pairs below a key that is not in range, on the low side. -/
theorem filter_low {key : K} {pairs : List (K × V)} (before : ∀ e ∈ pairs, C.order e.1 key = .lt)
    (less : C.keyLess key minKey = true) : pairs.filter (fun e => inRange C minKey maxKey e.1) = [] := by
  refine List.filter_eq_nil_iff.mpr fun e member => ?_
  have lower : C.keyLess e.1 minKey = true :=
    C.order_lt.mp (Std.TransCmp.lt_trans (before e member) (C.order_lt.mpr less))
  simp [inRange, lower]

theorem filter_high {key : K} {pairs : List (K × V)} (behind : ∀ e ∈ pairs, C.order key e.1 = .lt)
    (notLess : C.keyLess key maxKey = false) : pairs.filter (fun e => inRange C minKey maxKey e.1) = [] := by
  refine List.filter_eq_nil_iff.mpr fun e member => ?_
  have notLower : C.keyLess e.1 maxKey = false := by
    refine Bool.eq_false_iff.mpr fun lower => ?_
    have between : C.order key maxKey = .lt := Std.TransCmp.lt_trans (behind e member) (C.order_lt.mpr lower)
    rw [C.order_lt.mp between] at notLess
    cases notLess
  simp [inRange, notLower]

/-- The second test of the scan: the key is not below `max_key`. -/
theorem reaches_max {key : K} :
    (C.keyGreater key maxKey || C.keyEqual key maxKey) = !C.keyLess key maxKey := by
  have less := C.order_lt (a := key) (b := maxKey)
  have equal := C.order_eq (a := key) (b := maxKey)
  have greater := C.order_gt (a := key) (b := maxKey)
  cases here : C.order key maxKey with
  | lt => simp_all
  | eq => simp_all
  | gt => simp_all

/-- **`rbtree_scan_recurse`** calls back for the pairs in range, each of them once. -/
theorem scanRecurse_spec {t : Tree K V} : ∀ {fuel : Nat} {ctx : Ctx K V}, Focus T ctx t →
    t.pairs.length < fuel → (t.pairs.Pairwise fun a b => C.order a.1 b.1 = .lt) →
    ∃ calls, T.scanRecurse C minKey maxKey fuel (t.ptr T.nil) =
        some (calls, (t.pairs.filter fun e => inRange C minKey maxKey e.1).length) ∧
      calls.Perm (t.pairs.filter fun e => inRange C minKey maxKey e.1) := by
  induction t with
  | leaf =>
      intro fuel ctx focus room _
      obtain ⟨fuel, rfl⟩ := Nat.exists_eq_succ_of_ne_zero (Nat.ne_of_gt room)
      exact ⟨[], by rw [Tree.ptr_leaf, scanRecurse, if_pos rfl]; rfl, .refl _⟩
  | node a c l pair r ihL ihR =>
      intro fuel ctx focus room ascending
      obtain ⟨fuel, rfl⟩ := Nat.exists_eq_succ_of_ne_zero (Nat.ne_of_gt (Nat.lt_of_le_of_lt (Nat.zero_le _) room))
      obtain ⟨notNil, keyIs, valueIs, leftIs, rightIs⟩ := focus.reads
      rw [Tree.pairs, List.length_append, List.length_cons] at room
      have atL : Focus T (⟨.left, a, c, pair, r⟩ :: ctx) l := Focus.up.mpr focus
      have atR : Focus T (⟨.right, a, c, pair, l⟩ :: ctx) r := Focus.up.mpr focus
      have roomL : l.pairs.length < fuel := by omega
      have roomR : r.pairs.length < fuel := by omega
      rw [Tree.pairs, List.pairwise_append, List.pairwise_cons] at ascending
      obtain ⟨sortedL, ⟨behind, sortedR⟩, apart⟩ := ascending
      have before : ∀ e ∈ l.pairs, C.order e.1 pair.1 = .lt := fun e member =>
        apart e member pair (List.mem_cons_self ..)
      obtain ⟨callsL, scanL, permL⟩ :=
        ihL atL roomL sortedL
      obtain ⟨callsR, scanR, permR⟩ :=
        ihR atR roomR sortedR
      simp only [Tree.ptr_node, scanRecurse, if_neg notNil, keyIs, valueIs, leftIs, rightIs, Tree.pairs,
        List.filter_append, reaches_max, Option.bind_eq_bind, Option.bind_some, scanL, scanR]
      cases less : C.keyLess pair.1 minKey with
      | true =>
          have out : inRange C minKey maxKey pair.1 = false := by simp [inRange, less]
          rw [filter_low C minKey maxKey before less, List.filter_cons_of_neg (by simp [out])]
          exact ⟨callsR, rfl, permR⟩
      | false =>
          cases reaches : C.keyLess pair.1 maxKey with
          | false =>
              have out : inRange C minKey maxKey pair.1 = false := by simp [inRange, reaches]
              rw [List.filter_cons_of_neg (by simp [out]), filter_high C minKey maxKey behind reaches,
                List.append_nil]
              exact ⟨callsL, rfl, permL⟩
          | true =>
              have inside : inRange C minKey maxKey pair.1 = true := by simp [inRange, less, reaches]
              rw [List.filter_cons_of_pos (by simp [inside])]
              refine ⟨pair :: (callsL ++ callsR), ?_, ?_⟩
              · simp only [Bool.false_eq_true, Bool.not_true, if_false, List.length_append,
                  List.length_cons]
                congr 2
                omega
              · exact ((permL.append permR).cons pair).trans List.perm_middle.symm

/-- **`rb_valid_recurse`** passes on a red-black tree, and counts its black nodes. -/
theorem validRecurse_spec {t : Tree K V} : ∀ {fuel n : Nat} {ctx : Ctx K V}, Focus T ctx t →
    t.pairs.length < fuel → t.RedBlack n → T.validRecurse fuel (t.ptr T.nil) = some (n + 1) := by
  induction t with
  | leaf =>
      intro fuel n ctx focus room redBlack
      obtain ⟨fuel, rfl⟩ := Nat.exists_eq_succ_of_ne_zero (Nat.ne_of_gt room)
      cases redBlack
      rw [Tree.ptr_leaf, validRecurse, if_pos rfl]
  | node a c l pair r ihL ihR =>
      intro fuel n ctx focus room redBlack
      obtain ⟨fuel, rfl⟩ := Nat.exists_eq_succ_of_ne_zero (Nat.ne_of_gt (Nat.lt_of_le_of_lt (Nat.zero_le _) room))
      obtain ⟨notNil, -, -, leftIs, rightIs⟩ := focus.reads
      rw [Tree.pairs, List.length_append, List.length_cons] at room
      have atL : Focus T (⟨.left, a, c, pair, r⟩ :: ctx) l := Focus.up.mpr focus
      have atR : Focus T (⟨.right, a, c, pair, l⟩ :: ctx) r := Focus.up.mpr focus
      have roomL : l.pairs.length < fuel := by omega
      have roomR : r.pairs.length < fuel := by omega
      have colorIs : T.color a = some c := focus.color_eq
      cases redBlack with
      | black redL redR =>
          simp only [Tree.ptr_node, validRecurse, if_neg notNil, leftIs, rightIs, colorIs, Option.bind_eq_bind,
            Option.bind_some, ihL atL roomL redL, ihR atR roomR redR,
            if_true, reduceCtorEq, if_false]
      | red redL redR blackL blackR =>
          have colorL := atL.color_eq
          have colorR := atR.color_eq
          rw [blackL] at colorL
          rw [blackR] at colorR
          simp only [Tree.ptr_node, validRecurse, if_neg notNil, leftIs, rightIs, colorIs, colorL, colorR,
            Option.bind_eq_bind, Option.bind_some, ihL atL roomL redL,
            ihR atR roomR redR, if_true, and_self]

end Scan

/-! ## Between two operations -/

/-- The index holds this tree, in nodes that are in use. -/
structure Stands (A : Allocator σ) (T : Rbtree σ K V) (whole : Tree K V) : Prop where
  focus : Focus T [] whole
  redBlack : ∃ n, whole.RedBlack n
  black : whole.color = .black
  size : T.size = whole.pairs.length
  inUse : ∀ a ∈ whole.addrs, A.InUse T.nodeSlab a
  nilInUse : A.InUse T.nodeSlab T.nil

/-- The fuel of the loops suffices. -/
theorem Stands.room {A : Allocator σ} {T : Rbtree σ K V} {whole : Tree K V} (stands : Stands A T whole) :
    whole.pairs.length < T.size + 1 := by
  rw [stands.size]
  exact Nat.lt_succ_self _

section Stands

variable {A : Allocator σ} {T : Rbtree σ K V} {whole : Tree K V} (stands : Stands A T whole)
  (C : KeyCmp K) {m : OrderedMap K V C.order} (holds : m.pairs = whole.pairs) (key : K)

include holds

/-- **A search of the whole tree**, and what it says of the contents. -/
theorem descend_spec : (∃ ctx, descend C key [] whole = (ctx, .leaf) ∧
      OrderedMap.Cut C.order key (Ctx.low ctx) (Ctx.high ctx) ∧ Ctx.Faces C key ctx ∧
      Ctx.plug ctx .leaf = whole ∧ m.pairs = Ctx.low ctx ++ Ctx.high ctx) ∨
    ∃ ctx a c l pair r, descend C key [] whole = (ctx, .node a c l pair r) ∧
      C.order key pair.1 = .eq ∧ Ctx.plug ctx (.node a c l pair r) = whole ∧
      m.pairs = (Ctx.low ctx ++ l.pairs) ++ pair :: (r.pairs ++ Ctx.high ctx) := by
  have ascending := m.ascending
  rw [holds] at ascending
  have start : OrderedMap.Cut C.order key (Ctx.low ([] : Ctx K V)) (Ctx.high ([] : Ctx K V)) :=
    ⟨nofun, nofun⟩
  obtain ⟨cut, faces, ends⟩ := descend_cut C key ascending start nofun
  have plugged := plug_descend C key whole []
  have pairs := Ctx.pairs_plug (descend C key [] whole).1 (descend C key [] whole).2
  rw [plugged] at pairs
  rcases ends with isLeaf | ⟨a, c, l, pair, r, isNode, found⟩
  · rw [isLeaf] at plugged pairs
    exact Or.inl ⟨_, Prod.ext rfl isLeaf, cut, faces, plugged, holds.trans pairs⟩
  · rw [isNode] at plugged pairs
    refine Or.inr ⟨_, a, c, l, pair, r, Prod.ext rfl isNode, found, plugged, holds.trans (pairs.trans ?_)⟩
    simp only [Tree.pairs, List.append_assoc, List.cons_append]

include stands

/-- **`rbtree_lookup`** -/
theorem Stands.lookup [Inhabited V] : T.lookup C key = some ((m.get? key).getD default) := by
  have root : T.root = whole.ptr T.nil := stands.focus.root
  have searched := search_spec C key stands.focus stands.room
  rw [← root] at searched
  rcases descend_spec C holds key with ⟨ctx, walk, cut, -, -, pairs⟩ |
    ⟨ctx, a, c, l, pair, r, walk, found, plugged, pairs⟩
  · rw [walk] at searched
    rw [OrderedMap.get?_of_cut cut pairs]
    simp only [Rbtree.lookup, searched, Tree.found, Option.bind_eq_bind, Option.bind_some]
    rfl
  · rw [walk] at searched
    have there : Focus T ctx (.node a c l pair r) := Focus.whole.mpr (plugged ▸ stands.focus)
    rw [OrderedMap.get?_of_found pairs found]
    simp only [Rbtree.lookup, searched, Tree.found, Option.bind_eq_bind, Option.bind_some]
    exact there.reads.2.2.1

/-- **`rbtree_scan`** -/
theorem Stands.scan (minKey maxKey : K) : ∃ calls, T.scan C minKey maxKey =
      some (calls, (m.pairs.filter fun e => inRange C minKey maxKey e.1).length) ∧
    calls.Perm (m.pairs.filter fun e => inRange C minKey maxKey e.1) := by
  have root : T.root = whole.ptr T.nil := stands.focus.root
  rw [Rbtree.scan, root, holds]
  exact scanRecurse_spec C minKey maxKey stands.focus stands.room (holds ▸ m.ascending)

omit holds in
/-- **`rb_valid`** passes. -/
theorem Stands.valid : ∃ n, T.valid = some n := by
  obtain ⟨n, redBlack⟩ := stands.redBlack
  have root : T.root = whole.ptr T.nil := stands.focus.root
  have black : T.color (whole.ptr T.nil) = some .black := stands.black ▸ stands.focus.color_eq
  refine ⟨n + 1, ?_⟩
  simp only [Rbtree.valid, root, black, if_true, Option.bind_eq_bind, Option.bind_some]
  exact validRecurse_spec stands.focus stands.room redBlack

end Stands

end Rbtree

end KTableFS.Index
