/-
# Index.BtreeSearch -- descents in the B-tree

A node's pairs and its children's are woven together: `Tree.pairs` are the contents of a tree
in the order of a search, and `contents ctx t` those of a whole tree that has been taken
apart at a hole.  `Tree.Sized` bounds the number of pairs of every node and fixes that of its
children.

`lookupNode_spec` says where `btree_lookup_` ends: at the pair of the key, or in the leaf where
the key belongs, with the contents cut in two there.
-/
import KTableFS.Index.BtreeLoops
import KTableFS.Theory.Weave

namespace KTableFS.Index

open KTableFS.Theory

set_option autoImplicit false

namespace Btree

variable {σ K V : Type}

/-! ## Contents -/

def Tree.pairs : (h : Nat) → Tree K V h → List (K × V)
  | 0, t => Empty.elim t
  | h + 1, t => weave (t.kids.map (Tree.pairs h)) (t.entries.map Entry.pair)

@[simp] theorem Tree.pairs_node {h : Nat} (a : Ptr) (entries : List (Entry K V)) (kids : List (Tree K V h)) :
    Tree.pairs (h + 1) (.node a entries kids) = weave (kids.map (Tree.pairs h)) (entries.map Entry.pair) := rfl

/-- What is below the hole, and above it. -/
def Ctx.low : {h : Nat} → Ctx K V h → List (K × V)
  | _, .top => []
  | h, .frame f up => low up ++ weaveLeft (f.before.map (Tree.pairs h)) (f.low.map Entry.pair)

def Ctx.high : {h : Nat} → Ctx K V h → List (K × V)
  | _, .top => []
  | h, .frame f up => weaveRight (f.high.map Entry.pair) (f.after.map (Tree.pairs h)) ++ high up

def contents {h : Nat} (ctx : Ctx K V h) (t : Tree K V h) : List (K × V) :=
  ctx.low ++ (Tree.pairs h t ++ ctx.high)

@[simp] theorem contents_top {h : Nat} (t : Tree K V h) : contents .top t = Tree.pairs h t :=
  List.append_nil _

theorem contents_up {h : Nat} {f : Frame K V h} (up : Ctx K V (h + 1)) (t : Tree K V h)
    (same : f.before.length = f.low.length) : contents (.frame f up) t = contents up (f.fill [t]) := by
  have split := weave_split (Tree.pairs h t) (f.after.map (Tree.pairs h)) (f.high.map Entry.pair)
    (show (f.before.map (Tree.pairs h)).length = (f.low.map Entry.pair).length by simpa using same)
  simp only [contents, Ctx.low, Ctx.high, Frame.fill, Tree.pairs_node, List.map_append, List.map_cons,
    List.append_assoc, List.cons_append, List.nil_append, split]

section Pairs

variable {h : Nat} {p : Ptr} {low high : List (Entry K V)} {before after : List (Tree K V h)}

/-- The contents of a node around two neighbours. -/
theorem pairs_neighbours {e : Entry K V} (l r : Tree K V h) (same : before.length = low.length) :
    Tree.pairs (h + 1) (.node p (low ++ e :: high) (before ++ [l, r] ++ after)) =
      weaveLeft (before.map (Tree.pairs h)) (low.map Entry.pair) ++
        ((Tree.pairs h l ++ e.pair :: Tree.pairs h r) ++
          weaveRight (high.map Entry.pair) (after.map (Tree.pairs h))) := by
  have split := weave_split (Tree.pairs h l) (Tree.pairs h r :: after.map (Tree.pairs h))
    (e.pair :: high.map Entry.pair)
    (show (before.map (Tree.pairs h)).length = (low.map Entry.pair).length by simpa using same)
  simp only [Tree.pairs_node, List.map_append, List.map_cons, List.append_assoc, List.cons_append,
    List.nil_append, split, weaveRight_cons]

/-- The contents of a node around a child. -/
theorem pairs_single (t : Tree K V h) (same : before.length = low.length) :
    Tree.pairs (h + 1) (.node p (low ++ high) (before ++ [t] ++ after)) =
      weaveLeft (before.map (Tree.pairs h)) (low.map Entry.pair) ++
        (Tree.pairs h t ++ weaveRight (high.map Entry.pair) (after.map (Tree.pairs h))) := by
  have split := weave_split (Tree.pairs h t) (after.map (Tree.pairs h)) (high.map Entry.pair)
    (show (before.map (Tree.pairs h)).length = (low.map Entry.pair).length by simpa using same)
  simp only [Tree.pairs_node, List.map_append, List.map_cons, List.append_assoc, List.cons_append,
    List.nil_append, split]

/-- Two nodes and the pair between them, in one node. -/
theorem pairs_join {a l r : Ptr} {e : Entry K V} {el er : List (Entry K V)} {kl kr : List (Tree K V h)}
    (count : kl.length = el.length + 1 ∧ kr.length = er.length + 1 ∨ kl = [] ∧ kr = []) :
    Tree.pairs (h + 1) (.node a (el ++ e :: er) (kl ++ kr)) =
      Tree.pairs (h + 1) (.node l el kl) ++ e.pair :: Tree.pairs (h + 1) (.node r er kr) := by
  simp only [Tree.pairs_node, List.map_append, List.map_cons]
  refine weave_join _ ?_
  rcases count with ⟨countL, countR⟩ | ⟨rfl, rfl⟩
  · exact Or.inl ⟨by simpa using countL, by simpa using countR⟩
  · exact Or.inr ⟨rfl, rfl⟩

end Pairs

/-- The same tree, taken apart at another hole. -/
structure Refocus {h h' : Nat} (ctx : Ctx K V h) (t : Tree K V h) (ctx' : Ctx K V h') (t' : Tree K V h') : Prop where
  contents : contents ctx t = Btree.contents ctx' t'
  addrs : (Tree.addrs h t ++ ctx.addrs).Perm (Tree.addrs h' t' ++ ctx'.addrs)
  cells : (Tree.cells h t ++ ctx.cells).Perm (Tree.cells h' t' ++ ctx'.cells)

namespace Refocus

variable {h h' h'' : Nat} {ctx : Ctx K V h} {ctx' : Ctx K V h'} {ctx'' : Ctx K V h''} {t : Tree K V h}
  {t' : Tree K V h'} {t'' : Tree K V h''}

protected theorem refl (ctx : Ctx K V h) (t : Tree K V h) : Refocus ctx t ctx t := ⟨rfl, .refl _, .refl _⟩

protected theorem symm (same : Refocus ctx t ctx' t') : Refocus ctx' t' ctx t :=
  ⟨same.contents.symm, same.addrs.symm, same.cells.symm⟩

protected theorem trans (same : Refocus ctx t ctx' t') (same' : Refocus ctx' t' ctx'' t'') :
    Refocus ctx t ctx'' t'' :=
  ⟨same.contents.trans same'.contents, same.addrs.trans same'.addrs, same.cells.trans same'.cells⟩

protected theorem up {f : Frame K V h} (up : Ctx K V (h + 1)) (t : Tree K V h)
    (before : f.before.length = f.low.length) : Refocus (.frame f up) t up (f.fill [t]) :=
  ⟨contents_up up t before, f.addrs_perm t up, f.cells_perm t up⟩

end Refocus

/-! ## Sizes -/

/-- The root has this number of pairs, the other nodes between `order` and `2 * order`; a node
that is no leaf has one child more than pairs. -/
def Tree.Sized (order : Nat) : (h : Nat) → Nat → Nat → Tree K V h → Prop
  | 0, _, _, _ => True
  | h + 1, least, most, t => (least ≤ t.entries.length ∧ t.entries.length ≤ most) ∧
      (h ≠ 0 → t.kids.length = t.entries.length + 1) ∧ ∀ k ∈ t.kids, Tree.Sized order h order (2 * order) k

theorem Tree.sized_node {order h least most : Nat} {a : Ptr} {entries : List (Entry K V)}
    {kids : List (Tree K V h)} : Tree.Sized order (h + 1) least most (.node a entries kids) ↔
      (least ≤ entries.length ∧ entries.length ≤ most) ∧ (h ≠ 0 → kids.length = entries.length + 1) ∧
        ∀ k ∈ kids, Tree.Sized order h order (2 * order) k := Iff.rfl

theorem Tree.Sized.mono {order h least most least' most' : Nat} {t : Tree K V h}
    (sized : Tree.Sized order h least most t) (less : least' ≤ least) (more : most ≤ most') :
    Tree.Sized order h least' most' t := by
  cases h with
  | zero => exact Empty.elim t
  | succ h => exact ⟨⟨Nat.le_trans less sized.1.1, Nat.le_trans sized.1.2 more⟩, sized.2⟩

/-- A leaf has no children. -/
theorem no_kids (kids : List (Tree K V 0)) : kids = [] := by
  cases kids with
  | nil => rfl
  | cons k _ => exact Empty.elim k

/-- The least number of pairs of a node in the hole: the root may have few, but a root with
children has a pair. -/
def Ctx.least (order : Nat) : {h : Nat} → Ctx K V h → Nat
  | h, .top => if h ≤ 1 then 0 else 1
  | _, .frame .. => order

theorem Ctx.least_pos {order h : Nat} (positive : 1 ≤ order) (deep : 1 < h) (ctx : Ctx K V h) :
    1 ≤ ctx.least order := by
  cases ctx with
  | top =>
      have leastIs : Ctx.least order (Ctx.top : Ctx K V h) = 1 := by
        unfold Ctx.least
        exact if_neg (by omega)
      exact Nat.le_of_eq leastIs.symm
  | frame => exact positive

def Ctx.Sized (order : Nat) : {h : Nat} → Ctx K V h → Prop
  | _, .top => True
  | h, .frame f up => (f.before.length = f.low.length ∧ f.after.length = f.high.length) ∧
      (up.least order ≤ f.low.length + f.high.length ∧ f.low.length + f.high.length ≤ 2 * order) ∧
      (∀ k ∈ f.before ++ f.after, Tree.Sized order h order (2 * order) k) ∧ Ctx.Sized order up

/-- The sizes, with the focus moved to the node of the hole. -/
theorem sized_up {order h : Nat} {f : Frame K V h} {up : Ctx K V (h + 1)} {t : Tree K V h}
    (ctxSized : Ctx.Sized order (.frame f up)) (sized : Tree.Sized order h order (2 * order) t) :
    up.Sized order ∧ Tree.Sized order (h + 1) (up.least order) (2 * order) (f.fill [t]) := by
  obtain ⟨⟨before, after⟩, ⟨least, most⟩, kids, upSized⟩ := ctxSized
  refine ⟨upSized, Tree.sized_node.mpr ⟨?_, fun _ => ?_, fun k member => ?_⟩⟩
  · rw [List.length_append]
    exact ⟨least, most⟩
  · simp only [List.length_append, List.length_cons, List.length_nil]
    omega
  · simp only [List.append_assoc, List.mem_append, List.mem_cons, List.not_mem_nil, or_false] at member
    rcases member with inBefore | rfl | inAfter
    · exact kids k (List.mem_append_left _ inBefore)
    · exact sized
    · exact kids k (List.mem_append_right _ inAfter)

theorem sized_down {order h : Nat} {f : Frame K V h} {up : Ctx K V (h + 1)} {t : Tree K V h}
    (before : f.before.length = f.low.length) (positive : h ≠ 0) (upSized : up.Sized order)
    (sized : Tree.Sized order (h + 1) (up.least order) (2 * order) (f.fill [t])) :
    Ctx.Sized order (.frame f up) ∧ Tree.Sized order h order (2 * order) t := by
  obtain ⟨bounds, count, kids⟩ := Tree.sized_node.mp sized
  have count := count positive
  simp only [List.length_append, List.length_cons, List.length_nil] at bounds count
  refine ⟨⟨⟨before, by omega⟩, bounds, fun k member => kids k ?_, upSized⟩, kids t (by simp)⟩
  simp only [List.append_assoc, List.mem_append, List.mem_cons] at member ⊢
  tauto

/-- There is one child more than pairs, but for a leaf. -/
theorem Tree.Sized.more {order h least most : Nat} {a : Ptr} {entries : List (Entry K V)}
    {kids : List (Tree K V h)} (sized : Tree.Sized order (h + 1) least most (.node a entries kids)) :
    (kids.map (Tree.pairs h)).length = (entries.map Entry.pair).length + 1 ∨ kids.map (Tree.pairs h) = [] := by
  cases h with
  | zero => exact Or.inr (by rw [no_kids kids, List.map_nil])
  | succ h =>
      rw [List.length_map, List.length_map]
      exact Or.inl (sized.2.1 (Nat.succ_ne_zero h))

/-- What is in the tree at the focus, counted. -/
theorem Tree.length_pairs {order h least most : Nat} {a : Ptr} {entries : List (Entry K V)}
    {kids : List (Tree K V h)} (sized : Tree.Sized order (h + 1) least most (.node a entries kids)) :
    (Tree.pairs (h + 1) (.node a entries kids)).length =
      (kids.flatMap (Tree.pairs h)).length + entries.length := by
  rw [Tree.pairs_node, length_weave sized.more, List.length_map, List.flatMap_def]

theorem Tree.height_le {order : Nat} (positive : 1 ≤ order) : ∀ {h least most : Nat} {t : Tree K V h},
    Tree.Sized order h least most t → h ≤ 1 ∨ 1 ≤ least → h ≤ (Tree.pairs h t).length + 1
  | 0, _, _, t, _, _ => Empty.elim t
  | 1, _, _, _, _, _ => Nat.le_add_left ..
  | h + 2, least, most, t, sized, low => by
      obtain ⟨a, entries, kids, rfl⟩ := Tree.exists_node t
      have some_entry : 1 ≤ entries.length := by
        rcases low with short | low
        · omega
        · exact Nat.le_trans low sized.1.1
      obtain ⟨k, rest, rfl⟩ : ∃ k rest, kids = k :: rest := by
        have count : kids.length = entries.length + 1 := sized.2.1 (Nat.succ_ne_zero h)
        cases kids with
        | nil => cases count
        | cons k rest => exact ⟨k, rest, rfl⟩
      have ofKid := Tree.height_le positive (sized.2.2 k (List.mem_cons_self ..)) (Or.inr positive)
      rw [Tree.length_pairs sized, List.flatMap_cons, List.length_append]
      omega

/-- Every frame has a pair. -/
theorem Ctx.length_le {order : Nat} (positive : 1 ≤ order) : ∀ {h : Nat} {ctx : Ctx K V h}, h ≠ 0 →
    ctx.Sized order → ctx.length ≤ ctx.low.length + ctx.high.length
  | _, .top, _, _ => Nat.zero_le _
  | 0, _, notZero, _ => absurd rfl notZero
  | h + 1, .frame f up, _, ⟨⟨before, after⟩, ⟨least, _⟩, _, upSized⟩ => by
      have rest := Ctx.length_le positive (Nat.succ_ne_zero _) upSized
      have some_pair := Ctx.least_pos positive (Nat.succ_lt_succ (Nat.succ_pos h)) up
      have low := length_weaveLeft (show (f.before.map (Tree.pairs (h + 1))).length =
        (f.low.map Entry.pair).length by simpa using before)
      have high := length_weaveRight (show (f.high.map Entry.pair).length =
        (f.after.map (Tree.pairs (h + 1))).length by simpa using after.symm)
      simp only [Ctx.length, Ctx.low, Ctx.high, List.length_append, low, high, List.length_map]
      omega

/-! ## Between two steps of an operation -/

/-- The index holds a search tree with the sizes of a B-tree, and no more pairs than it
counts but for one that is being inserted. -/
structure Stands (C : KeyCmp K) (T : Btree σ K V) {h : Nat} (ctx : Ctx K V h) (t : Tree K V h) : Prop where
  focus : Focus T ctx t
  order : 2 < T.order
  ctxSized : ctx.Sized T.order
  sized : Tree.Sized T.order h (ctx.least T.order) (2 * T.order) t
  ascending : (contents ctx t).Pairwise fun a b => C.order a.1 b.1 = .lt
  room : (contents ctx t).length ≤ T.size + 1

section Stands

variable {C : KeyCmp K} {T : Btree σ K V}

theorem Stands.up {h : Nat} {f : Frame K V h} {up : Ctx K V (h + 1)} {t : Tree K V h}
    (stands : Stands C T (.frame f up) t) : Stands C T up (f.fill [t]) := by
  have same := contents_up up t stands.ctxSized.1.1
  obtain ⟨ctxSized, sized⟩ := sized_up stands.ctxSized stands.sized
  exact ⟨Focus.up.mp stands.focus, stands.order, ctxSized, sized, same ▸ stands.ascending, same ▸ stands.room⟩

theorem Stands.down {h : Nat} {f : Frame K V h} {up : Ctx K V (h + 1)} {t : Tree K V h}
    (stands : Stands C T up (f.fill [t])) (positive : h ≠ 0) (before : f.before.length = f.low.length) :
    Stands C T (.frame f up) t := by
  have same := contents_up up t before
  obtain ⟨ctxSized, sized⟩ := sized_down before positive stands.ctxSized stands.sized
  exact ⟨Focus.up.mpr stands.focus, stands.order, ctxSized, sized, same ▸ stands.ascending, same ▸ stands.room⟩

theorem Stands.length_le {h : Nat} {ctx : Ctx K V h} {t : Tree K V h} (stands : Stands C T ctx t) :
    (Tree.pairs h t).length ≤ T.size + 1 := by
  have room := stands.room
  simp only [contents, List.length_append] at room
  omega

/-- The fuel of a loop over the pairs of a node. -/
theorem Stands.entries_lt {h : Nat} {ctx : Ctx K V (h + 1)} {a : Ptr} {entries : List (Entry K V)}
    {kids : List (Tree K V h)} (stands : Stands C T ctx (.node a entries kids)) : entries.length < T.fuel := by
  have pairs := Tree.length_pairs stands.sized
  have room := stands.length_le
  rw [fuel]
  omega

/-- The fuel of a descent. -/
theorem Stands.height_le {h : Nat} {ctx : Ctx K V h} {t : Tree K V h} (stands : Stands C T ctx t) :
    h ≤ T.fuel := by
  have order := stands.order
  have room := stands.length_le
  have low : h ≤ 1 ∨ 1 ≤ ctx.least T.order := by
    cases ctx with
    | top =>
        rw [Ctx.least]
        split
        · exact Or.inl ‹_›
        · exact Or.inr (Nat.le_refl 1)
    | frame f up => exact Or.inr (show 1 ≤ T.order by omega)
  have high := Tree.height_le (by omega) stands.sized low
  rw [fuel]
  omega

/-- A pair of the node among the contents. -/
theorem Stands.exists_split {h : Nat} {ctx : Ctx K V (h + 1)} {a : Ptr} {entries : List (Entry K V)}
    {kids : List (Tree K V h)} {e : Entry K V} (stands : Stands C T ctx (.node a entries kids))
    (member : e ∈ entries) : ∃ low high, contents ctx (.node a entries kids) = low ++ e.pair :: high := by
  refine List.append_of_mem (List.mem_append_right _ (List.mem_append_left _ ?_))
  exact mem_weave_of_key stands.sized.more (List.mem_map_of_mem member)

/-- The focus moves to the root. -/
theorem Stands.whole : ∀ {h : Nat} {ctx : Ctx K V h} {t : Tree K V h}, Stands C T ctx t →
    ∃ h', ∃ whole : Tree K V h', Stands C T .top whole ∧ Refocus .top whole ctx t
  | h, .top, t, stands => ⟨h, t, stands, .refl _ t⟩
  | h, .frame f up, t, stands => by
      obtain ⟨h', whole, atTop, same⟩ := Stands.whole stands.up
      exact ⟨h', whole, atTop, same.trans (Refocus.up up t stands.ctxSized.1.1).symm⟩

end Stands

/-! ## One node -/

theorem exists_stop (C : KeyCmp K) (key : K) : ∀ entries : List (Entry K V), ∃ low high, entries = low ++ high ∧
    (∀ e ∈ low, C.keyLess e.pair.1 key = true) ∧ Stops C key high
  | [] => ⟨[], [], rfl, nofun, nofun⟩
  | e :: entries => by
      cases less : C.keyLess e.pair.1 key with
      | false => exact ⟨[], e :: entries, rfl, nofun, fun z isHead => by cases isHead; exact less⟩
      | true =>
          obtain ⟨low, high, rfl, below, stops⟩ := exists_stop C key entries
          exact ⟨e :: low, high, rfl, List.forall_mem_cons.mpr ⟨less, below⟩, stops⟩

theorem exists_kid {α : Type} : ∀ {kids : List α} {n m : Nat}, kids.length = n + m + 1 →
    ∃ before k after, kids = before ++ k :: after ∧ before.length = n ∧ after.length = m
  | k :: kids, 0, m, count => ⟨[], k, kids, rfl, rfl, by simpa using count⟩
  | k :: kids, n + 1, m, count => by
      have count' : kids.length = n + m + 1 := by
        rw [List.length_cons] at count
        omega
      obtain ⟨before, k', after, rfl, first, second⟩ := exists_kid count'
      exact ⟨k :: before, k', after, rfl, by rw [List.length_cons, first], second⟩

section Node

variable {T : Btree σ K V}

/-- What the loops read of the node at the focus. -/
theorem Focus.reads {h : Nat} {ctx : Ctx K V (h + 1)} {a : Ptr} {entries : List (Entry K V)}
    {kids : List (Tree K V h)} (focus : Focus T ctx (.node a entries kids)) : a ≠ null ∧
      Laid T ctx.parent a entries (kids.map (Tree.ptr h)) ∧ (∀ e ∈ entries, e.addr ≠ null) ∧
      ∀ k ∈ kids, Tree.ptr h k ≠ null := by
  refine ⟨focus.real a (by simp), focus.below.1, fun e member => focus.cellsReal _ ?_,
    fun k member => focus.real _ ?_⟩
  · exact List.mem_append_left _ (List.mem_append_left _ (List.mem_map_of_mem member))
  · refine List.mem_append_left _ (List.mem_cons_of_mem _ (List.mem_flatMap.mpr ⟨k, member, ?_⟩))
    exact List.mem_cons_self ..

/-- A node is a leaf if its first child is null. -/
theorem Focus.child {h : Nat} {ctx : Ctx K V (h + 1)} {a : Ptr} {entries : List (Entry K V)}
    {kids : List (Tree K V h)} (focus : Focus T ctx (.node a entries kids)) :
    T.child a = (kids.map (Tree.ptr h)).headD null := focus.reads.2.1.kids.start

variable {C : KeyCmp K} {key : K}

/-- A node's pairs below the key and the children before them are below it too. -/
theorem Cut.frame {h : Nat} {f : Frame K V h} {up : Ctx K V (h + 1)} {t : Tree K V h}
    (ascending : (contents (.frame f up) t).Pairwise fun a b => C.order a.1 b.1 = .lt)
    (before : f.before.length = f.low.length) (after : f.after.length = f.high.length)
    (cut : OrderedMap.Cut C.order key up.low up.high) (below : ∀ e ∈ f.low, C.keyLess e.pair.1 key = true)
    (above : ∀ e ∈ f.high.head?, C.order key e.pair.1 = .lt) :
    OrderedMap.Cut C.order key (Ctx.frame f up).low (Ctx.frame f up).high := by
  simp only [contents, Ctx.low, Ctx.high] at ascending ⊢
  have split := ascending
  rw [List.append_assoc] at ascending
  rw [← List.append_assoc] at split
  have lower := cut.more_low ascending fun e isLast => by
    rw [getLast?_weaveLeft (by simpa using before), List.getLast?_map] at isLast
    obtain ⟨z, last, rfl⟩ := Option.map_eq_some_iff.mp isLast
    exact C.order_lt.mpr (below z (List.mem_of_getLast? last))
  refine lower.more_high split fun e isHead => ?_
  rw [head?_weaveRight (by simpa using after.symm), List.head?_map] at isHead
  obtain ⟨z, head, rfl⟩ := Option.map_eq_some_iff.mp isHead
  exact above z head

/-- A leaf has been cut. -/
theorem Cut.leaf {ctx : Ctx K V 1} {a : Ptr} {low high : List (Entry K V)}
    (ascending : (contents ctx (.node a (low ++ high) [])).Pairwise fun a b => C.order a.1 b.1 = .lt)
    (cut : OrderedMap.Cut C.order key ctx.low ctx.high) (below : ∀ e ∈ low, C.keyLess e.pair.1 key = true)
    (above : ∀ e ∈ high.head?, C.order key e.pair.1 = .lt) :
    OrderedMap.Cut C.order key (ctx.low ++ low.map Entry.pair) (high.map Entry.pair ++ ctx.high) := by
  simp only [contents, Tree.pairs_node, List.map_nil, weave_leaf, List.map_append, List.append_assoc] at ascending
  have lower := cut.more_low ascending fun e isLast => by
    rw [List.getLast?_map] at isLast
    obtain ⟨z, last, rfl⟩ := Option.map_eq_some_iff.mp isLast
    exact C.order_lt.mpr (below z (List.mem_of_getLast? last))
  rw [← List.append_assoc] at ascending
  refine lower.more_high ascending fun e isHead => ?_
  rw [List.head?_map] at isHead
  obtain ⟨z, head, rfl⟩ := Option.map_eq_some_iff.mp isHead
  exact above z head

/-- Where a loop has stopped, the key is there or below the pair. -/
theorem isAt_spec {high : List (Entry K V)} (stops : Stops C key high)
    (held : ∀ e ∈ high, e.addr ≠ null ∧ T.key e.addr = e.pair.1) :
    (T.isAt C key ((high.map Entry.addr).headD null) = some false ∧
      ∀ e ∈ high.head?, C.order key e.pair.1 = .lt) ∨
    ∃ e rest, high = e :: rest ∧ T.isAt C key ((high.map Entry.addr).headD null) = some true ∧
      C.order key e.pair.1 = .eq := by
  cases high with
  | nil => exact Or.inl ⟨if_pos rfl, nofun⟩
  | cons e rest =>
      obtain ⟨real, here⟩ := held e (List.mem_cons_self ..)
      have notLess : C.keyLess e.pair.1 key = false := stops e rfl
      have found : T.isAt C key (((e :: rest).map Entry.addr).headD null) =
          some (C.keyEqual e.pair.1 key) := by
        simp only [List.map_cons, List.headD_cons, isAt, if_neg real, load_real _ real, here, Option.map_some]
      cases equal : C.keyEqual e.pair.1 key with
      | true =>
          exact Or.inr ⟨e, rest, rfl, found.trans (by rw [equal]),
            Std.OrientedCmp.eq_symm (C.order_eq.mpr equal)⟩
      | false =>
          refine Or.inl ⟨found.trans (by rw [equal]), fun z isHead => ?_⟩
          cases isHead
          refine Std.OrientedCmp.lt_of_gt ?_
          unfold KeyCmp.order
          rw [if_neg (by rw [notLess]; decide), if_neg (by rw [equal]; decide)]

end Node

/-! ## Lookup -/

section Lookup

variable {C : KeyCmp K} {T : Btree σ K V} {key : K}

/-- A child that stands, and the sorting around it. -/
theorem Stands.kid {h : Nat} {ctx : Ctx K V (h + 2)} {a : Ptr} {low high : List (Entry K V)}
    {before after : List (Tree K V (h + 1))} {k : Tree K V (h + 1)}
    (stands : Stands C T ctx (.node a (low ++ high) (before ++ k :: after))) (same : before.length = low.length) :
    Stands C T (.frame ⟨a, low, high, before, after⟩ ctx) k := by
  refine Stands.down ?_ (Nat.succ_ne_zero h) same
  simpa only [Frame.fill, List.append_assoc, List.cons_append, List.nil_append] using stands

theorem Refocus.kid {h : Nat} {ctx : Ctx K V (h + 1)} {a : Ptr} {low high : List (Entry K V)}
    {before after : List (Tree K V h)} {k : Tree K V h} (same : before.length = low.length) :
    Refocus (.frame ⟨a, low, high, before, after⟩ ctx) k ctx (.node a (low ++ high) (before ++ k :: after)) := by
  have up := Refocus.up (f := ⟨a, low, high, before, after⟩) ctx k same
  simpa only [Frame.fill, List.append_assoc, List.cons_append, List.nil_append] using up

/-- What `btree_lookup_` says of the key. -/
inductive Located (C : KeyCmp K) (T : Btree σ K V) (key : K) (fuel : Nat) {h₀ : Nat} (ctx₀ : Ctx K V h₀)
    (t₀ : Tree K V h₀) : Prop
  /-- The key belongs between two pairs of a leaf. -/
  | missing {ctx : Ctx K V 1} {a : Ptr} {low high : List (Entry K V)}
      (stands : Stands C T ctx (.node a (low ++ high) []))
      (result : T.lookupNode C key fuel (Tree.ptr h₀ t₀) = some (a, none))
      (cut : OrderedMap.Cut C.order key (ctx.low ++ low.map Entry.pair) (high.map Entry.pair ++ ctx.high))
      (same : Refocus ctx (.node a (low ++ high) []) ctx₀ t₀)
  /-- The key is in a node. -/
  | found {h : Nat} {ctx : Ctx K V (h + 1)} {a : Ptr} {low high : List (Entry K V)} {e : Entry K V}
      {kids : List (Tree K V h)} (stands : Stands C T ctx (.node a (low ++ e :: high) kids))
      (result : T.lookupNode C key fuel (Tree.ptr h₀ t₀) = some (a, some e.pair.2))
      (equal : C.order key e.pair.1 = .eq) (below : ∀ x ∈ low, C.keyLess x.pair.1 key = true)
      (same : Refocus ctx (.node a (low ++ e :: high) kids) ctx₀ t₀)

/-- **`btree_lookup_`** -/
theorem lookupNode_spec : ∀ {h fuel : Nat} {ctx : Ctx K V h} {t : Tree K V h}, Stands C T ctx t →
    OrderedMap.Cut C.order key ctx.low ctx.high → h ≤ fuel →
    Located C T key fuel ctx t
  | 0, _, _, t, _, _, _ => Empty.elim t
  | _ + 1, 0, _, _, _, _, spent => absurd spent (Nat.not_succ_le_zero _)
  | h + 1, fuel + 1, ctx, t, stands, cut, room => by
      obtain ⟨a, entries, kids, rfl⟩ := Tree.exists_node t
      obtain ⟨low, high, rfl, below, stops⟩ := exists_stop C key entries
      obtain ⟨real, laid, cellsReal, kidsReal⟩ := stands.focus.reads
      have held : ∀ e ∈ low ++ high, e.addr ≠ null ∧ T.key e.addr = e.pair.1 := fun e member =>
        ⟨cellsReal e member, (laid.stored e member).1⟩
      have child := stands.focus.child
      have enough : low.length < T.fuel := by
        have := stands.entries_lt
        rw [List.length_append] at this
        omega
      have at_ := isAt_spec stops fun e member => held e (List.mem_append_right _ member)
      cases h with
      | zero =>
          obtain rfl := no_kids kids
          have isLeaf : T.child a = null := child
          have stopped := seek_spec C key stops laid.chain held below enough
          rcases at_ with ⟨missed, above⟩ | ⟨e, rest, rfl, hit, equal⟩
          · refine .missing stands ?_ (Cut.leaf stands.ascending cut below above) (.refl _ _)
            simp only [Tree.ptr_node, lookupNode, if_neg real, load_real _ real, isLeaf, stopped, missed, if_true,
              Option.bind_eq_bind, Option.bind_some, Bool.false_eq_true, if_false]
          · refine .found stands ?_ equal below (.refl _ _)
            obtain ⟨eReal, -⟩ := held e (by simp)
            obtain ⟨-, stored⟩ := laid.stored e (by simp)
            simp only [List.map_cons, List.headD_cons] at stopped hit
            simp only [Tree.ptr_node, lookupNode, if_neg real, load_real _ real, isLeaf, stopped, hit, if_true,
              Option.bind_eq_bind, Option.bind_some, load_real _ eReal, stored]
      | succ h =>
          have count := stands.sized.2.1 (Nat.succ_ne_zero h)
          change kids.length = (low ++ high).length + 1 at count
          rw [List.length_append] at count
          obtain ⟨before, k, after, rfl, sameLow, sameHigh⟩ := exists_kid count
          have notLeaf : T.child a ≠ null := by
            rw [child, List.map_append, List.map_cons]
            refine headD_ne_null fun b member => ?_
            rw [← List.map_cons, ← List.map_append] at member
            obtain ⟨k', inKids, rfl⟩ := List.mem_map.mp member
            exact kidsReal k' inKids
          have kidsLead := laid.kids
          rw [List.map_append, List.map_cons] at kidsLead
          have stopped := seekChild_spec C key stops laid.chain kidsLead (by simpa using sameLow) held
            (fun b member => by
              obtain ⟨k', inBefore, rfl⟩ := List.mem_map.mp member
              exact kidsReal k' (List.mem_append_left _ inBefore)) below enough
          rcases at_ with ⟨missed, above⟩ | ⟨e, rest, rfl, hit, equal⟩
          · -- the walk goes on in the child before the first pair that is not below the key
            have inner := stands.kid sameLow
            have same : Refocus (.frame ⟨a, low, high, before, after⟩ ctx) k ctx
              (.node a (low ++ high) (before ++ k :: after)) := .kid sameLow
            have goesOn : T.lookupNode C key (fuel + 1) a = T.lookupNode C key fuel (Tree.ptr (h + 1) k) := by
              simp only [lookupNode, if_neg real, load_real _ real, if_neg notLeaf, stopped, missed,
                Option.bind_eq_bind, Option.bind_some, Bool.false_eq_true, if_false]
            have cut' := Cut.frame inner.ascending sameLow sameHigh cut below above
            have rest := lookupNode_spec inner cut' (Nat.le_of_succ_le_succ room)
            cases rest with
            | missing stands' result cut' same' =>
                exact .missing stands' (goesOn.trans result) cut' (same'.trans same)
            | found stands' result equal below' same' =>
                exact .found stands' (goesOn.trans result) equal below' (same'.trans same)
          · refine .found stands ?_ equal below (.refl _ _)
            obtain ⟨eReal, -⟩ := held e (by simp)
            obtain ⟨-, stored⟩ := laid.stored e (by simp)
            simp only [List.map_cons, List.headD_cons] at stopped hit
            simp only [Tree.ptr_node, lookupNode, if_neg real, load_real _ real, if_neg notLeaf, stopped, hit, if_true,
              Option.bind_eq_bind, Option.bind_some, load_real _ eReal, stored]

end Lookup

/-! ## Scan -/

/-- The keys of a scan. -/
def inRange (C : KeyCmp K) (minKey maxKey key : K) : Bool := !C.keyLess key minKey && !C.keyGreater key maxKey

section Scan

variable (C : KeyCmp K) (minKey maxKey : K)

/-- The scan of some pairs has called back for those in range, each of them once. -/
def Scans (pairs : List (K × V)) (out : Option (List (K × V) × Nat)) : Prop :=
  ∃ calls, out = some (calls, (pairs.filter fun e => inRange C minKey maxKey e.1).length) ∧
    calls.Perm (pairs.filter fun e => inRange C minKey maxKey e.1)

theorem filter_low {key : K} {pairs : List (K × V)} (before : ∀ e ∈ pairs, C.order e.1 key = .lt)
    (less : C.keyLess key minKey = true) : pairs.filter (fun e => inRange C minKey maxKey e.1) = [] := by
  refine List.filter_eq_nil_iff.mpr fun e member => ?_
  have lower : C.keyLess e.1 minKey = true :=
    C.order_lt.mp (Std.TransCmp.lt_trans (before e member) (C.order_lt.mpr less))
  simp [inRange, lower]

theorem filter_high {key : K} {pairs : List (K × V)} (behind : ∀ e ∈ pairs, C.order key e.1 = .lt)
    (greater : C.keyGreater key maxKey = true) : pairs.filter (fun e => inRange C minKey maxKey e.1) = [] := by
  refine List.filter_eq_nil_iff.mpr fun e member => ?_
  have higher : C.keyGreater e.1 maxKey = true := by
    have less := Std.OrientedCmp.lt_of_gt (C.order_gt.mpr greater)
    exact C.order_gt.mp (Std.OrientedCmp.gt_of_lt (Std.TransCmp.lt_trans less (behind e member)))
  simp [inRange, higher]

variable {C minKey maxKey} {T : Btree σ K V}

/-- One turn of the loop; `child'` is the next child, if there are children. -/
theorem scanLoop_turn {scanChild : Ptr → Option (List (K × V) × Nat)} {pos child child' : Ptr} {fuel : Nat}
    (real : pos ≠ null) (moves : child = null ∧ child' = null ∨ child ≠ null ∧ T.next child = child') :
    T.scanLoop C minKey maxKey scanChild (fuel + 1) pos child =
      if C.keyGreater (T.key pos) maxKey then visit scanChild child
      else if C.keyLess (T.key pos) minKey then
        T.scanLoop C minKey maxKey scanChild fuel (T.pairNext pos) child'
      else (visit scanChild child).bind fun first =>
        (T.scanLoop C minKey maxKey scanChild fuel (T.pairNext pos) child').bind fun rest =>
          some ((T.key pos, T.value pos) :: (first.1 ++ rest.1), 1 + first.2 + rest.2) := by
  rcases moves with ⟨isNull, rfl⟩ | ⟨notNull, rfl⟩
  · simp only [scanLoop, if_neg real, load_real _ real, if_pos isNull, Option.bind_eq_bind, Option.bind_some]
  · simp only [scanLoop, if_neg real, load_real _ real, if_neg notNull, load_real _ notNull,
      Option.bind_eq_bind, Option.bind_some]

/-- **The loop of `btree_node_scan`**, if it scans the children right. -/
theorem scanLoop_spec {h : Nat} {scanChild : Ptr → Option (List (K × V) × Nat)} :
    ∀ {entries : List (Entry K V)} {kids : List (Tree K V h)} {pos child : Ptr} {fuel : Nat},
    Leads T.pairNext pos (entries.map Entry.addr) null → Leads T.next child (kids.map (Tree.ptr h)) null →
    (∀ e ∈ entries, e.addr ≠ null ∧ T.key e.addr = e.pair.1 ∧ T.value e.addr = e.pair.2) →
    (∀ k ∈ kids, Tree.ptr h k ≠ null ∧
      Scans C minKey maxKey (Tree.pairs h k) (scanChild (Tree.ptr h k))) →
    kids.length = entries.length + 1 ∨ kids = [] →
    ((weave (kids.map (Tree.pairs h)) (entries.map Entry.pair)).Pairwise fun a b => C.order a.1 b.1 = .lt) →
    entries.length < fuel →
    Scans C minKey maxKey (weave (kids.map (Tree.pairs h)) (entries.map Entry.pair))
      (T.scanLoop C minKey maxKey scanChild fuel pos child)
  | _, _, _, _, 0, _, _, _, _, _, _, spent => absurd spent (Nat.not_lt_zero _)
  | [], kids, pos, child, fuel + 1, leads, kidsLead, _, scanned, count, _, _ => by
      have done : pos = null := leads
      rw [scanLoop, if_pos done]
      rcases count with count | rfl
      · obtain ⟨k, rfl⟩ : ∃ k, kids = [k] := List.length_eq_one_iff.mp count
        obtain ⟨real, scan⟩ := scanned k (List.mem_cons_self ..)
        have here : child = Tree.ptr h k := kidsLead.start
        rw [visit, here, if_neg real]
        simpa [weave] using scan
      · have none : child = null := kidsLead
        rw [visit, if_pos none]
        exact ⟨[], rfl, .refl _⟩
  | e :: entries, kids, pos, child, fuel + 1, leads, kidsLead, held, scanned, count, ascending, room => by
      obtain ⟨rfl, leads⟩ := leads
      obtain ⟨real, keyIs, valueIs⟩ := held e (List.mem_cons_self ..)
      -- what is in front of the pair, and what is behind it
      obtain ⟨front, kids', woven, visited, ⟨child', moves, kidsLead'⟩, scanned', count'⟩ :
          ∃ front, ∃ kids' : List (Tree K V h),
            weave (kids.map (Tree.pairs h)) ((e :: entries).map Entry.pair) =
              front ++ e.pair :: weave (kids'.map (Tree.pairs h)) (entries.map Entry.pair) ∧
            Scans C minKey maxKey front (visit scanChild child) ∧
            (∃ child', (child = null ∧ child' = null ∨ child ≠ null ∧ T.next child = child') ∧
              Leads T.next child' (kids'.map (Tree.ptr h)) null) ∧
            (∀ k ∈ kids', Tree.ptr h k ≠ null ∧
              Scans C minKey maxKey (Tree.pairs h k) (scanChild (Tree.ptr h k))) ∧
            (kids'.length = entries.length + 1 ∨ kids' = []) := by
        rcases count with count | rfl
        · obtain ⟨k, k', kids', rfl⟩ : ∃ k k' kids', kids = k :: k' :: kids' := by
            rcases kids with _ | ⟨k, _ | ⟨k', kids'⟩⟩
            · cases count
            · cases Nat.succ.inj count
            · exact ⟨k, k', kids', rfl⟩
          obtain ⟨rfl, kidsLead⟩ := kidsLead
          obtain ⟨kidReal, scan⟩ := scanned k (List.mem_cons_self ..)
          refine ⟨Tree.pairs h k, k' :: kids', weave_cons .., ?_, ⟨_, Or.inr ⟨kidReal, rfl⟩, kidsLead⟩,
            fun k'' member => scanned k'' (List.mem_cons_of_mem _ member), Or.inl (Nat.succ.inj count)⟩
          rw [visit, if_neg kidReal]
          exact scan
        · have none : child = null := kidsLead
          refine ⟨[], [], rfl, ⟨[], by rw [visit, if_pos none]; rfl, .refl _⟩, ⟨null, Or.inl ⟨none, rfl⟩, rfl⟩,
            fun k member => absurd member List.not_mem_nil, Or.inr rfl⟩
      rw [woven] at ascending ⊢
      obtain ⟨-, inner, apart⟩ := List.pairwise_append.mp ascending
      obtain ⟨behind, sorted⟩ := List.pairwise_cons.mp inner
      have before : ∀ x ∈ front, C.order x.1 e.pair.1 = .lt := fun x member =>
        apart x member e.pair (List.mem_cons_self ..)
      obtain ⟨calls, rest, perm⟩ := scanLoop_spec leads kidsLead'
        (fun x member => held x (List.mem_cons_of_mem _ member)) scanned' count' sorted
        (Nat.lt_of_succ_lt_succ room)
      obtain ⟨callsFront, visitFront, permFront⟩ := visited
      rw [scanLoop_turn real moves, keyIs, valueIs]
      cases greater : C.keyGreater e.pair.1 maxKey with
      | true =>
          have out : inRange C minKey maxKey e.pair.1 = false := by simp [inRange, greater]
          refine ⟨callsFront, ?_, ?_⟩
          · rw [if_pos rfl, visitFront, List.filter_append, List.filter_cons_of_neg (by simp [out]),
              filter_high C minKey maxKey behind greater, List.append_nil]
          · rw [List.filter_append, List.filter_cons_of_neg (by simp [out]),
              filter_high C minKey maxKey behind greater, List.append_nil]
            exact permFront
      | false =>
          cases less : C.keyLess e.pair.1 minKey with
          | true =>
              have out : inRange C minKey maxKey e.pair.1 = false := by simp [inRange, less]
              refine ⟨calls, ?_, ?_⟩
              · rw [if_neg Bool.false_ne_true, if_pos rfl, rest, List.filter_append,
                  List.filter_cons_of_neg (by simp [out]), filter_low C minKey maxKey before less, List.nil_append]
              · rw [List.filter_append, List.filter_cons_of_neg (by simp [out]),
                  filter_low C minKey maxKey before less, List.nil_append]
                exact perm
          | false =>
              have inside : inRange C minKey maxKey e.pair.1 = true := by simp [inRange, less, greater]
              rw [Scans, List.filter_append, List.filter_cons_of_pos (by simp [inside])]
              refine ⟨e.pair :: (callsFront ++ calls), ?_, ((permFront.append perm).cons e.pair).trans
                List.perm_middle.symm⟩
              simp only [visitFront, rest, Bool.false_eq_true, if_false, Option.bind_some, List.length_append,
                List.length_cons]
              congr 2
              omega

/-- **`btree_node_scan`** -/
theorem scanNode_spec : ∀ {h fuel : Nat} {ctx : Ctx K V h} {t : Tree K V h}, Stands C T ctx t → h ≤ fuel →
    Scans C minKey maxKey (Tree.pairs h t) (T.scanNode C minKey maxKey fuel (Tree.ptr h t))
  | 0, _, _, t, _, _ => Empty.elim t
  | _ + 1, 0, _, _, _, spent => absurd spent (Nat.not_succ_le_zero _)
  | h + 1, fuel + 1, ctx, t, stands, room => by
      obtain ⟨a, entries, kids, rfl⟩ := Tree.exists_node t
      obtain ⟨real, laid, cellsReal, kidsReal⟩ := stands.focus.reads
      have count : kids.length = entries.length + 1 ∨ kids = [] := by
        cases h with
        | zero => exact Or.inr (no_kids kids)
        | succ h => exact Or.inl (stands.sized.2.1 (Nat.succ_ne_zero h))
      have sorted := (List.pairwise_append.mp (List.pairwise_append.mp stands.ascending).2.1).1
      simp only [Tree.ptr_node, scanNode, load_real _ real, Option.bind_eq_bind, Option.bind_some]
      refine scanLoop_spec laid.chain laid.kids
        (fun e member => ⟨cellsReal e member, laid.stored e member⟩) (fun k member => ⟨kidsReal k member, ?_⟩)
        count sorted stands.entries_lt
      cases h with
      | zero => exact Empty.elim k
      | succ h =>
          obtain ⟨before, after, rfl⟩ := List.append_of_mem member
          have count : (before ++ k :: after).length = entries.length + 1 := stands.sized.2.1 (Nat.succ_ne_zero h)
          simp only [List.length_append, List.length_cons] at count
          obtain ⟨low, high, rfl, same⟩ : ∃ low high, entries = low ++ high ∧ before.length = low.length := by
            refine ⟨entries.take before.length, entries.drop before.length, (List.take_append_drop ..).symm, ?_⟩
            rw [List.length_take]
            omega
          exact scanNode_spec (stands.kid same) (Nat.le_of_succ_le_succ room)

end Scan

end Btree

end KTableFS.Index
