/-
# Index.BtreeRemove -- `btree_remove`

A pair of a leaf is unlinked (`Focus.unlink`) and the sizes are mended behind it.  A pair of an
inner node is followed by the first pair of a leaf, which takes its cell and is removed from the
leaf (`removeInner_spec`): for a moment the tree holds that pair twice, so what is said of the
leaf does not depend on the order of the contents.
-/
import KTableFS.Index.BtreeMerge

namespace KTableFS.Index

open KTableFS.Theory

set_option autoImplicit false

namespace Btree

variable {σ K V : Type}

/-! ## A pair out of a leaf -/

section Leaf

variable {C : KeyCmp K} {A : Allocator σ} {T : Btree σ K V} {ctx : Ctx K V 1} {a : Ptr}
  {low high : List (Entry K V)} {e : Entry K V} {key : K}

/-- The link in front of a pair leads past it now. -/
theorem Focus.unlink {link : Link} (focus : Focus T ctx (.node a (low ++ e :: high) []))
    (at_ : link.At a (low.map Entry.addr)) : ∃ head pairNext,
      T.storeLink link (T.pairNext e.addr) = some { T with head := head, pairNext := pairNext } ∧
      Focus { T with
        head := head, pairNext := pairNext, nodeSize := Function.update T.nodeSize a (T.nodeSize a - 1) } ctx
        (.node a (low ++ high) []) := by
  obtain ⟨aReal, laid, real, -⟩ := focus.reads
  obtain ⟨cellsNodup, -, -⟩ := focus.apart
  have chain := laid.chain
  rw [List.map_append, List.map_cons] at cellsNodup chain
  obtain ⟨toE, behind, fromE⟩ := leads_cons_append.mp chain
  obtain ⟨lowNodup, restNodup, apart⟩ := List.nodup_append.mp cellsNodup
  have lowReal : ∀ x ∈ low.map Entry.addr, x ≠ null := by
    intro x member
    obtain ⟨z, inLow, rfl⟩ := List.mem_map.mp member
    exact real z (List.mem_append_left _ inLow)
  obtain ⟨head, pairNext, stored, toHigh, headKept, pairNextKept⟩ :=
    storeLink_spec at_ toE aReal lowReal lowNodup (T.pairNext e.addr)
  refine ⟨head, pairNext, stored, ?_⟩
  have outside : Outside T { T with
      head := head, pairNext := pairNext, nodeSize := Function.update T.nodeSize a (T.nodeSize a - 1) }
      [a] [] (low.map Entry.addr) :=
    ⟨fun _ _ => rfl, fun b other => headKept b (by simpa using other),
      fun b other => Function.update_of_ne (by simpa using other) .., fun _ _ => rfl, fun _ _ => rfl, fun _ _ => rfl,
      fun _ _ => rfl, pairNextKept⟩
  have addrsPerm : ([] ++ Tree.addrs 1 (Tree.node (K := K) (V := V) a (low ++ high) [])).Perm
      ([] ++ Tree.addrs 1 (.node a (low ++ e :: high) [])) := .refl _
  have cellsPerm : ([e.addr] ++ Tree.cells 1 (Tree.node a (low ++ high) [])).Perm
      ([] ++ Tree.cells 1 (.node a (low ++ e :: high) [])) := by
    simp only [Tree.cells_node, List.map_append, List.map_cons, List.nil_append, List.append_assoc, List.cons_append]
    exact List.perm_middle.symm
  refine focus.replace outside rfl rfl rfl (Tree.in_node.mpr ⟨⟨laid.parent, ?_, ?_, fun x member => ?_, laid.kids⟩,
    fun k member => absurd member List.not_mem_nil⟩) addrsPerm List.nodup_nil
    (fun b member => absurd member List.not_mem_nil) cellsPerm List.nodup_nil
    (fun c member => absurd member List.not_mem_nil) (fun b member => ?_) fun c member => ?_
  · have size := laid.nodeSize
    simp only [List.length_append, List.length_cons] at size ⊢
    exact (Function.update_self ..).trans (by omega)
  · rw [List.map_append]
    refine leads_append.mpr ⟨behind ▸ toHigh, ?_⟩
    rw [behind] at fromE
    refine fromE.congr fun x member => pairNextKept x fun inLow => ?_
    exact apart x inLow x (List.mem_cons_of_mem _ member) rfl
  · refine laid.stored x ?_
    simp only [List.mem_append, List.mem_cons] at member ⊢
    tauto
  · rcases member with inOwn | inMoved
    · rw [List.mem_singleton.mp inOwn]
      exact List.mem_cons_self ..
    · cases inMoved
  · simp only [Tree.cells_node, List.map_append, List.nil_append, List.mem_append]
    exact Or.inl (Or.inl member)

/-- `btree_node_remove` up to its call of `btree_node_merge`: the pair is unlinked. -/
theorem nodeRemove_unlinks (focus : Focus T ctx (.node a (low ++ e :: high) []))
    (equal : C.keyEqual e.pair.1 key = true) (below : ∀ x ∈ low, C.keyLess x.pair.1 key = true)
    (room : low.length < T.fuel) : ∃ T₁, T.nodeRemove C a key = ((T₁.merge T₁.fuel a).map fun T => (T, 0)) ∧
      T₁.order = T.order ∧ T₁.size = T.size ∧ T₁.arena = T.arena ∧ Focus T₁ ctx (.node a (low ++ high) []) := by
  obtain ⟨aReal, laid, real, -⟩ := focus.reads
  have leaf : T.child a = null := laid.kids
  have size := laid.nodeSize
  have notEmpty : ¬T.nodeSize a = 0 := by
    rw [size, List.length_append, List.length_cons]
    omega
  have held : ∀ x ∈ low ++ e :: high, x.addr ≠ null ∧ T.key x.addr = x.pair.1 := fun x member =>
    ⟨real x member, (laid.stored x member).1⟩
  obtain ⟨eReal, eKey⟩ := held e (by simp)
  have chain := laid.chain
  have start := chain.start
  rcases low with _ | ⟨y, es⟩
  · have at_ : Link.At a (([] : List (Entry K V)).map Entry.addr) (.head a) := ⟨rfl, rfl⟩
    obtain ⟨head, pairNext, stored, unlinked⟩ := focus.unlink at_
    have first : T.head a = e.addr := start
    let T₁ : Btree σ K V := { T with
      head := head, pairNext := pairNext, nodeSize := Function.update T.nodeSize a (T.nodeSize a - 1) }
    refine ⟨T₁, ?_, rfl, rfl, rfl, unlinked⟩
    rw [storeLink] at stored
    simp only [nodeRemove, load_real _ aReal, leaf, ne_eq, not_true_eq_false, if_false, notEmpty, first,
      load_real _ eReal, eKey, equal, if_true, Option.bind_eq_bind, Option.bind_some, stored, setNodeSize,
      store_real _ _ aReal, Option.map_some]
    exact Option.map_eq_bind.symm
  · have first : T.head a = y.addr := start
    obtain ⟨yReal, yKey⟩ := held y (by simp)
    have notFirst : C.keyEqual y.pair.1 key = false := by
      refine Bool.eq_false_iff.mpr fun same => ?_
      have less := C.order_lt.mpr (below y (List.mem_cons_self ..))
      rw [C.order_eq.mpr same] at less
      cases less
    have stops : Stops C key (e :: high) := by
      intro z isHead
      cases isHead
      refine Bool.eq_false_iff.mpr fun less => ?_
      have same := C.order_eq.mpr equal
      rw [C.order_lt.mpr less] at same
      cases same
    rw [first] at chain
    obtain ⟨init, last, shape, found⟩ := lastBelow_spec C key stops chain held
      (fun x member => below x (List.mem_cons_of_mem _ member)) (Nat.lt_of_succ_lt room)
    have at_ : Link.At a ((y :: es).map Entry.addr) (.next last.addr) :=
      ⟨init.map Entry.addr, by rw [shape, List.map_append]; rfl⟩
    obtain ⟨head, pairNext, stored, unlinked⟩ := focus.unlink at_
    have lastReal := (held last (by rw [shape]; simp)).1
    have behind : T.pairNext last.addr = e.addr := by
      rw [shape, List.map_append, List.map_append, List.append_assoc] at chain
      exact (leads_append.mp chain).2.2.1
    let T₁ : Btree σ K V := { T with
      head := head, pairNext := pairNext, nodeSize := Function.update T.nodeSize a (T.nodeSize a - 1) }
    refine ⟨T₁, ?_, rfl, rfl, rfl, unlinked⟩
    rw [storeLink] at stored
    simp only [nodeRemove, load_real _ aReal, leaf, ne_eq, not_true_eq_false, if_false, notEmpty, first,
      load_real _ yReal, yKey, notFirst, Bool.false_eq_true, found, load_real _ lastReal, behind, eReal,
      load_real _ eReal, eKey, equal, Option.all_some, Bool.not_true, or_self, Option.bind_eq_bind,
      Option.bind_some, stored, setNodeSize, store_real _ _ aReal, Option.map_some]
    exact Option.map_eq_bind.symm

/-- **`btree_node_remove`** -/
theorem nodeRemove_spec (focus : Focus T ctx (.node a (low ++ e :: high) [])) (order : 2 < T.order)
    (ctxSized : ctx.Sized T.order)
    (sized : Tree.Sized T.order 1 (ctx.least T.order) (2 * T.order) (.node a (low ++ e :: high) []))
    (ascending : (contents ctx (.node a (low ++ high) [])).Pairwise fun a b => C.order a.1 b.1 = .lt)
    (room : (contents ctx (.node a (low ++ e :: high) [])).length ≤ T.size + 1)
    (inUse : InUse A T ctx (.node a (low ++ e :: high) [])) (equal : C.keyEqual e.pair.1 key = true)
    (below : ∀ x ∈ low, C.keyLess x.pair.1 key = true) : ∃ T', T.nodeRemove C a key = some (T', 0) ∧
      Mended C A T T' (contents ctx (.node a (low ++ high) [])) [] := by
  simp only [contents, Tree.pairs_node, List.map_nil, weave_leaf, List.length_append, List.length_map,
    List.length_cons] at room
  have enough : low.length < T.fuel := by
    rw [Btree.fuel]
    omega
  obtain ⟨T₁, run, order₁, size₁, arena₁, unlinked⟩ := nodeRemove_unlinks focus equal below enough
  have deep := Ctx.length_le (show 1 ≤ T.order by omega) Nat.one_ne_zero ctxSized
  have fuelIs : T₁.fuel = T.size + 2 := by rw [Btree.fuel, size₁]
  have few : ctx.few T₁.order ≤ (low ++ high).length ∧ (low ++ high).length ≤ 2 * T₁.order := by
    obtain ⟨⟨least, most⟩, -, -⟩ := Tree.sized_node.mp sized
    rw [List.length_append, List.length_cons] at least most
    rw [List.length_append, order₁]
    refine ⟨?_, by omega⟩
    cases ctx with
    | top => exact Nat.zero_le _
    | frame f up =>
        show T.order - 1 ≤ _
        change T.order ≤ _ at least
        omega
  have falling : Falling C A T₁ ctx (.node a (low ++ high) []) := by
    refine ⟨unlinked, order₁ ▸ order, order₁ ▸ ctxSized, Tree.sized_node.mpr ⟨few, fun positive => absurd rfl positive,
      fun k member => absurd member List.not_mem_nil⟩, ascending, ?_, fun p member => ?_⟩
    · simp only [contents, Tree.pairs_node, List.map_nil, weave_leaf, List.length_append, List.length_map, size₁]
      omega
    · rw [arena₁]
      refine inUse p ?_
      simp only [Tree.addrs_node, Tree.cells_node, List.map_append, List.map_cons, List.mem_append,
        List.mem_cons] at member ⊢
      tauto
  obtain ⟨T', merged, mended⟩ := merge_spec falling (show _ ≤ T₁.fuel by omega)
  refine ⟨T', ?_, mended.of_step size₁ order₁⟩
  rw [Tree.ptr_node] at merged
  rw [run, merged, Option.map_some]

end Leaf

/-! ## A pair out of an inner node -/

section Inner

variable {C : KeyCmp K} {A : Allocator σ} {T : Btree σ K V}

/-- The first leaf of a tree, which is the same wherever the tree hangs. -/
structure FirstLeaf (order : Nat) {h : Nat} (ctx : Ctx K V (h + 1)) (t : Tree K V (h + 1)) (ctx' : Ctx K V 1) (a : Ptr)
    (entries : List (Entry K V)) : Prop where
  same : Refocus ctx' (.node a entries []) ctx t
  low : ctx'.low = ctx.low
  least : ctx'.least order = order
  ctxSized : ctx'.Sized order
  sized : Tree.Sized order 1 order (2 * order) (.node a entries [])

/-- `while (child->child) child = child->child;` -/
theorem exists_firstLeaf {order : Nat} : ∀ {h : Nat} {t : Tree K V (h + 1)},
    Tree.Sized order (h + 1) order (2 * order) t → ∃ (a : Ptr) (entries : List (Entry K V)),
      ∀ ctx : Ctx K V (h + 1), ctx.Sized order → ctx.least order = order → ∃ ctx' : Ctx K V 1,
        FirstLeaf order ctx t ctx' a entries ∧ ∀ (T : Btree σ K V), Focus T ctx t →
          Focus T ctx' (.node a entries []) ∧
            ∀ fuel, h + 1 ≤ fuel → T.firstLeaf fuel (Tree.ptr (h + 1) t) = some a
  | 0, t, sized => by
      obtain ⟨a, entries, kids, rfl⟩ := Tree.exists_node t
      obtain rfl := no_kids kids
      refine ⟨a, entries, fun ctx ctxSized least => ⟨ctx, ⟨.refl _ _, rfl, least, ctxSized, sized⟩, fun T focus =>
        ⟨focus, fun fuel room => ?_⟩⟩⟩
      obtain ⟨fuel, rfl⟩ : ∃ fuel', fuel = fuel' + 1 := ⟨fuel - 1, by omega⟩
      have isLeaf : T.child a = null := focus.child
      simp only [Tree.ptr_node, firstLeaf, load_real _ focus.reads.1, isLeaf, if_true, Option.bind_eq_bind,
        Option.bind_some]
  | h + 1, t, sized => by
      obtain ⟨b, es, kids, rfl⟩ := Tree.exists_node t
      have count : kids.length = es.length + 1 := sized.2.1 (Nat.succ_ne_zero h)
      obtain ⟨k, after, rfl⟩ : ∃ k after, kids = k :: after := by
        cases kids with
        | nil => cases count
        | cons k after => exact ⟨k, after, rfl⟩
      obtain ⟨a, entries, leaf⟩ := exists_firstLeaf (sized.2.2 k (List.mem_cons_self ..))
      refine ⟨a, entries, fun ctx ctxSized least => ?_⟩
      let f : Frame K V (h + 1) := ⟨b, [], es, [], after⟩
      have whole : Tree.Sized order (h + 2) (ctx.least order) (2 * order) (f.fill [k]) :=
        sized.mono (Nat.le_of_eq least) (Nat.le_refl _)
      have inner := (sized_down rfl (Nat.succ_ne_zero h) ctxSized whole).1
      obtain ⟨ctx', first, reached⟩ := leaf (.frame f ctx) inner rfl
      refine ⟨ctx', ⟨first.same.trans (Refocus.up ctx k rfl), first.low.trans (List.append_nil _), first.least,
        first.ctxSized, first.sized⟩, fun T focus => ?_⟩
      obtain ⟨atLeaf, run⟩ := reached T (Focus.up.mpr focus)
      refine ⟨atLeaf, fun fuel room => ?_⟩
      obtain ⟨fuel, rfl⟩ : ∃ fuel', fuel = fuel' + 1 := ⟨fuel - 1, by omega⟩
      obtain ⟨real, -, -, kidsReal⟩ := focus.reads
      have first : T.child b = Tree.ptr (h + 1) k := focus.child
      have notLeaf : Tree.ptr (h + 1) k ≠ null := kidsReal k (List.mem_cons_self ..)
      simp only [Tree.ptr_node, firstLeaf, load_real _ real, first, if_neg notLeaf, Option.bind_eq_bind, Option.bind_some]
      exact run fuel (Nat.le_of_succ_le_succ room)

/-- Another pair in the cell of a pair. -/
theorem Focus.overwrite {h : Nat} {ctx : Ctx K V (h + 1)} {a : Ptr} {low high : List (Entry K V)} {e : Entry K V}
    {kids : List (Tree K V h)} (focus : Focus T ctx (.node a (low ++ e :: high) kids)) (pair : K × V) :
    Focus { T with
      key := Function.update T.key e.addr pair.1, value := Function.update T.value e.addr pair.2 } ctx
      (.node a (low ++ ⟨e.addr, pair⟩ :: high) kids) := by
  obtain ⟨aReal, laid, real, -⟩ := focus.reads
  obtain ⟨cellsNodup, -, kidsApart⟩ := focus.apart
  have outside : Outside T { T with
      key := Function.update T.key e.addr pair.1, value := Function.update T.value e.addr pair.2 } [] [] [e.addr] :=
    ⟨fun _ _ => rfl, fun _ _ => rfl, fun _ _ => rfl, fun _ _ => rfl, fun _ _ => rfl,
      fun c other => Function.update_of_ne (by simpa using other) ..,
      fun c other => Function.update_of_ne (by simpa using other) .., fun _ _ => rfl⟩
  have sameCells : (low ++ ⟨e.addr, pair⟩ :: high).map Entry.addr = (low ++ e :: high).map Entry.addr := by
    simp only [List.map_append, List.map_cons]
  have addrsPerm : ([] ++ Tree.addrs (h + 1) (.node a (low ++ (⟨e.addr, pair⟩ : Entry K V) :: high) kids)).Perm
      ([] ++ Tree.addrs (h + 1) (.node a (low ++ e :: high) kids)) := .refl _
  have cellsPerm : ([] ++ Tree.cells (h + 1) (.node a (low ++ (⟨e.addr, pair⟩ : Entry K V) :: high) kids)).Perm
      ([] ++ Tree.cells (h + 1) (.node a (low ++ e :: high) kids)) := by
    rw [Tree.cells_node, Tree.cells_node, sameCells]
  have eIn : e.addr ∈ (low ++ e :: high).map Entry.addr := List.mem_map_of_mem (by simp)
  rw [List.map_append, List.map_cons] at cellsNodup
  refine focus.replace outside rfl rfl rfl (Tree.in_node.mpr ⟨⟨laid.parent, ?_, ?_, fun x member => ?_, laid.kids⟩,
    fun k member => ?_⟩) addrsPerm List.nodup_nil (fun b member => absurd member List.not_mem_nil) cellsPerm
    List.nodup_nil (fun c member => absurd member List.not_mem_nil) (fun b member => ?_) fun c member => ?_
  · have size := laid.nodeSize
    simp only [List.length_append, List.length_cons] at size ⊢
    exact size
  · rw [sameCells]
    exact laid.chain
  · rcases List.mem_append.mp member with inLow | rest
    · have other : x.addr ≠ e.addr := fun same =>
        (List.nodup_append.mp cellsNodup).2.2 x.addr (List.mem_map_of_mem inLow) e.addr (List.mem_cons_self ..) same
      obtain ⟨keyIs, valueIs⟩ := laid.stored x (List.mem_append_left _ inLow)
      exact ⟨(Function.update_of_ne other ..).trans keyIs, (Function.update_of_ne other ..).trans valueIs⟩
    · rcases List.mem_cons.mp rest with rfl | inHigh
      · exact ⟨Function.update_self .., Function.update_self ..⟩
      · have other : x.addr ≠ e.addr := fun same =>
          (List.nodup_cons.mp (List.nodup_append.mp cellsNodup).2.1).1 (same ▸ List.mem_map_of_mem inHigh)
        obtain ⟨keyIs, valueIs⟩ := laid.stored x (List.mem_append_right _ (List.mem_cons_of_mem _ inHigh))
        exact ⟨(Function.update_of_ne other ..).trans keyIs, (Function.update_of_ne other ..).trans valueIs⟩
  · have inKid := focus.below.2 k member
    refine inKid.outside outside ?_ (fun _ _ => List.not_mem_nil) (fun _ _ => List.not_mem_nil) fun c inCells isE => ?_
    · cases h with
      | zero => exact Empty.elim k
      | succ h => exact inKid.1.parent
    · refine kidsApart k member c inCells ?_
      rw [List.mem_singleton.mp isE]
      exact eIn
  · exact (member.elim List.not_mem_nil List.not_mem_nil).elim
  · rw [List.mem_singleton.mp member]
    exact List.mem_append_right _ (List.mem_append_left _ eIn)

/-- The contents of an inner node, cut behind a pair. -/
theorem low_at {h : Nat} {ctx : Ctx K V (h + 1)} {a : Ptr} {low high : List (Entry K V)} {e : Entry K V}
    {before after : List (Tree K V h)} {k : Tree K V h} (same : before.length = low.length) :
    (Ctx.frame ⟨a, low ++ [e], high, before ++ [k], after⟩ ctx).low =
      ctx.low ++ weaveLeft (before.map (Tree.pairs h)) (low.map Entry.pair) ++ Tree.pairs h k ++ [e.pair] := by
  have sameLength : (before.map (Tree.pairs h)).length = (low.map Entry.pair).length := by simpa using same
  simp only [Ctx.low, List.map_append, List.map_cons, List.map_nil, weaveLeft_append sameLength, weaveLeft_cons,
    weaveLeft_nil, List.append_assoc]

/-- **A pair of an inner node**: the first pair behind it takes its cell, and leaves its own leaf. -/
theorem removeInner_spec {h : Nat} {ctx : Ctx K V (h + 2)} {a : Ptr} {low high : List (Entry K V)} {e : Entry K V}
    {kids : List (Tree K V (h + 1))} {key : K} (stands : Stands C T ctx (.node a (low ++ e :: high) kids))
    (inUse : InUse A T ctx (.node a (low ++ e :: high) kids)) (equal : C.order key e.pair.1 = .eq)
    (below : ∀ x ∈ low, C.keyLess x.pair.1 key = true) : ∃ (T' : Btree σ K V) (before rest : List (K × V)),
      T.removeInner C a (T.child a) key = some (T', 0) ∧
      contents ctx (.node a (low ++ e :: high) kids) = before ++ e.pair :: rest ∧
      Mended C A T T' (before ++ rest) [] := by
  obtain ⟨aReal, laid, real, kidsReal⟩ := stands.focus.reads
  have count : kids.length = (low ++ e :: high).length + 1 := stands.sized.2.1 (Nat.succ_ne_zero h)
  rw [List.length_append, List.length_cons] at count
  obtain ⟨kb, k, after, rfl, sameLow, sameHigh⟩ := exists_kid (show kids.length = low.length + (high.length + 1) + 1 by
    omega)
  obtain ⟨k', ka, rfl⟩ : ∃ k' ka, after = k' :: ka := by
    cases after with
    | nil => cases sameHigh
    | cons k' ka => exact ⟨k', ka, rfl⟩
  -- where the pair is, and the child behind it
  have kidsLead := laid.kids
  rw [List.map_append, List.map_cons, List.map_cons] at kidsLead
  have held : ∀ x ∈ low ++ e :: high, x.addr ≠ null ∧ T.key x.addr = x.pair.1 := fun x member =>
    ⟨real x member, (laid.stored x member).1⟩
  have equal' : C.keyEqual e.pair.1 key = true := C.order_eq.mp (Std.OrientedCmp.eq_symm equal)
  have notBefore : ∀ x ∈ low, C.keyEqual x.pair.1 key = false := by
    intro x member
    refine Bool.eq_false_iff.mpr fun same => ?_
    have less := C.order_lt.mpr (below x member)
    rw [C.order_eq.mpr same] at less
    cases less
  have enough : low.length < T.fuel := by
    have := stands.entries_lt
    rw [List.length_append] at this
    omega
  have found := findPair_spec C key equal' laid.chain kidsLead (by simpa using sameLow) held (fun b member => by
    obtain ⟨k'', inBefore, rfl⟩ := List.mem_map.mp member
    exact kidsReal k'' (List.mem_append_left _ inBefore)) notBefore enough
  have kReal : Tree.ptr (h + 1) k ≠ null := kidsReal k (by simp)
  have next : T.next (Tree.ptr (h + 1) k) = Tree.ptr (h + 1) k' := (leads_append.mp kidsLead).2.2.1
  -- the first leaf of that child
  have kSized : Tree.Sized T.order (h + 1) T.order (2 * T.order) k' := stands.sized.2.2 k' (by simp [Tree.node])
  have sameBefore : (kb ++ [k]).length = (low ++ [e]).length := by simpa using sameLow
  have shape : ∀ e' : Entry K V, Frame.fill ⟨a, low ++ [e'], high, kb ++ [k], ka⟩ [k'] =
      Tree.node a (low ++ e' :: high) (kb ++ k :: k' :: ka) := by
    intro e'
    simp only [Frame.fill, List.append_assoc, List.cons_append, List.nil_append]
  have inner := (sized_down sameBefore (Nat.succ_ne_zero h) stands.ctxSized ((shape e).symm ▸ stands.sized)).1
  obtain ⟨leaf, entries, firstLeaf⟩ := exists_firstLeaf kSized
  obtain ⟨ctx₁, first₁, reached₁⟩ := firstLeaf (.frame ⟨a, low ++ [e], high, kb ++ [k], ka⟩ ctx) inner rfl
  obtain ⟨g, rest, rfl⟩ : ∃ g rest, entries = g :: rest := by
    have order := stands.order
    have least : T.order ≤ entries.length := first₁.sized.1.1
    cases entries with
    | nil => exact absurd least (by rw [List.length_nil]; omega)
    | cons g rest => exact ⟨g, rest, rfl⟩
  obtain ⟨focus₁, descended⟩ := reached₁ T (Focus.up.mpr ((shape e).symm ▸ stands.focus))
  have atLeaf := descended T.fuel (by have := stands.height_le; omega)
  obtain ⟨leafReal, leafLaid, leafPairs, -⟩ := focus₁.reads
  have gReal : g.addr ≠ null := leafPairs g (List.mem_cons_self ..)
  have headLeaf : T.head leaf = g.addr := leafLaid.chain.start
  obtain ⟨gKey, gValue⟩ := leafLaid.stored g (List.mem_cons_self ..)
  -- its pair in the cell of the other
  let e' : Entry K V := ⟨e.addr, g.pair⟩
  let T₁ : Btree σ K V := { T with
    key := Function.update T.key e.addr g.pair.1, value := Function.update T.value e.addr g.pair.2 }
  have inner' : Ctx.Sized T.order (.frame ⟨a, low ++ [e'], high, kb ++ [k], ka⟩ ctx) := by
    obtain ⟨⟨first, second⟩, bounds, aside, up⟩ := inner
    have count : (low ++ [e']).length = (low ++ [e]).length := by
      rw [List.length_append, List.length_append]
      rfl
    exact ⟨⟨by rwa [count], second⟩, by rwa [count], aside, up⟩
  obtain ⟨ctx₂, first₂, reached₂⟩ := firstLeaf (.frame ⟨a, low ++ [e'], high, kb ++ [k], ka⟩ ctx) inner' rfl
  have replaced : Focus T₁ ctx (.node a (low ++ e' :: high) (kb ++ k :: k' :: ka)) := stands.focus.overwrite g.pair
  obtain ⟨focus₂, -⟩ := reached₂ T₁ (Focus.up.mpr ((shape e').symm ▸ replaced))
  have gone : T₁.key g.addr = g.pair.1 := (focus₂.reads.2.1.stored g (List.mem_cons_self ..)).1
  -- what is left
  have old := contents_up ctx k' (f := ⟨a, low ++ [e], high, kb ++ [k], ka⟩) sameBefore
  rw [shape e, contents, low_at sameLow] at old
  have new := first₂.same.contents
  have low₂ := first₂.low
  rw [low_at sameLow] at low₂
  rw [contents, contents, low₂, low_at sameLow] at new
  generalize ctx.low ++ weaveLeft (kb.map (Tree.pairs (h + 1))) (low.map Entry.pair) ++ Tree.pairs (h + 1) k = L at *
  change _ = L ++ [g.pair] ++ (Tree.pairs (h + 1) k' ++ (Ctx.frame ⟨a, low ++ [e], high, kb ++ [k], ka⟩ ctx).high) at new
  generalize Tree.pairs (h + 1) k' ++ (Ctx.frame ⟨a, low ++ [e], high, kb ++ [k], ka⟩ ctx).high = R at *
  have behind : g.pair :: (rest.map Entry.pair ++ ctx₂.high) = R := List.append_cancel_left new
  have left : contents ctx₂ (.node leaf rest []) = L ++ R := by
    rw [contents, low₂, List.append_assoc, ← behind]
    rfl
  have all : contents ctx (.node a (low ++ e :: high) (kb ++ k :: k' :: ka)) = L ++ e.pair :: R := by
    rw [← old, List.append_assoc]
    rfl
  have used : InUse A T₁ ctx₂ (.node leaf (g :: rest) []) := by
    refine InUse.refocus (T := T₁) ?_ first₂.same
    refine InUse.up.mpr ?_
    rw [shape e']
    intro p member
    refine inUse p ?_
    have sameCells : (low ++ e' :: high).map Entry.addr = (low ++ e :: high).map Entry.addr := by
      simp only [List.map_append, List.map_cons]
      rfl
    rw [Tree.cells_node, sameCells] at member
    exact member
  have ascending := stands.ascending
  have room := stands.room
  rw [all] at ascending room
  have sublist : (L ++ R).Sublist (L ++ e.pair :: R) := List.Sublist.append (.refl _) (List.sublist_cons_self ..)
  have leafFocus : Focus T₁ ctx₂ (.node leaf ([] ++ g :: rest) []) := focus₂
  have leafRoom : (contents ctx₂ (.node leaf ([] ++ g :: rest) [])).length ≤ T₁.size + 1 := by
    refine Nat.le_trans (Nat.le_of_eq ?_) room
    show (ctx₂.low ++ ((g.pair :: rest.map Entry.pair) ++ ctx₂.high)).length = _
    rw [low₂, List.cons_append, behind, List.append_assoc]
    simp only [List.length_append, List.length_cons, List.length_nil]
    omega
  have itself : C.keyEqual g.pair.1 g.pair.1 = true := C.order_eq.mp Std.ReflCmp.compare_self
  obtain ⟨T', run, mended⟩ := nodeRemove_spec leafFocus stands.order first₂.ctxSized
    (first₂.least.symm ▸ first₂.sized) (left ▸ ascending.sublist sublist) leafRoom used itself
    fun x member => absurd member List.not_mem_nil
  change Mended C A T₁ T' (contents ctx₂ (.node leaf rest [])) [] at mended
  refine ⟨T', L, R, ?_, all, left ▸ mended.of_step rfl rfl⟩
  have eReal := (held e (by simp)).1
  simp only [removeInner, load_real _ aReal, found, load_real _ kReal, next, atLeaf, load_real _ leafReal, headLeaf,
    load_real _ gReal, gKey, gValue, setKey, setValue, store_real _ _ eReal, Option.map_some, Option.bind_eq_bind,
    Option.bind_some]
  change T₁.nodeRemove C leaf (T₁.key g.addr) = _
  rw [gone]
  exact run

end Inner

/-! ## `btree_remove` -/

section Remove

variable {C : KeyCmp K} {A : Allocator σ} {T : Btree σ K V} {h : Nat} {whole : Tree K V h}
  {m : OrderedMap K V C.order}

/-- **`btree_remove`** -/
theorem Rests.remove (rests : Rests C A T whole) (holds : m.pairs = Tree.pairs h whole) (key : K) :
    ∃ T' h', ∃ whole' : Tree K V h', T.remove C key = some (T', if m.contains key then 0 else -1) ∧
      Rests C A T' whole' ∧ T'.order = T.order ∧
      Tree.pairs h' whole' = (if m.contains key then m.erase key else m).pairs := by
  have root : T.root = Tree.ptr h whole := rests.stands.focus.root
  rcases rests.located key with ⟨stands, result, cut, same⟩ | ⟨stands, result, equal, below, same⟩ <;> rw [← root] at result
  · have all := same.contents
    rw [contents_top, ← holds] at all
    have missing : m.contains key = false := by
      refine OrderedMap.contains_of_cut cut (all.symm.trans ?_)
      simp only [contents, Tree.pairs_node, List.map_nil, weave_leaf, List.map_append, List.append_assoc]
    rw [missing]
    refine ⟨T, h, whole, ?_, rests, rfl, holds.symm⟩
    simp only [Btree.remove, result, Option.bind_eq_bind, Option.bind_some, Option.isSome_none, Bool.false_eq_true,
      if_false]
  · rename_i h₁ ctx a low high e kids
    have all := same.contents
    rw [contents_top, ← holds] at all
    have inUse := rests.inUse.refocus same
    have aReal := stands.focus.reads.1
    -- in a leaf or not, what is left is everything but the pair
    obtain ⟨T₁, before, rest, run, split, h', whole', stands', pairs, inUse', size', order', -⟩ :
        ∃ (T₁ : Btree σ K V) (before rest : List (K × V)),
          (if T.child a = null then T.nodeRemove C a key else T.removeInner C a (T.child a) key) = some (T₁, 0) ∧
          contents ctx (.node a (low ++ e :: high) kids) = before ++ e.pair :: rest ∧
          Mended C A T T₁ (before ++ rest) [] := by
      cases h₁ with
      | zero =>
          obtain rfl := no_kids kids
          have isLeaf : T.child a = null := stands.focus.child
          have split : contents ctx (.node a (low ++ e :: high) []) =
              (ctx.low ++ low.map Entry.pair) ++ e.pair :: (high.map Entry.pair ++ ctx.high) := by
            simp only [contents, Tree.pairs_node, List.map_nil, weave_leaf, List.map_append, List.map_cons,
              List.append_assoc, List.cons_append]
          have left : contents ctx (.node a (low ++ high) []) =
              (ctx.low ++ low.map Entry.pair) ++ (high.map Entry.pair ++ ctx.high) := by
            simp only [contents, Tree.pairs_node, List.map_nil, weave_leaf, List.map_append, List.append_assoc]
          have ascending := stands.ascending
          rw [split] at ascending
          have sublist := List.Sublist.append (.refl (ctx.low ++ low.map Entry.pair))
            (List.sublist_cons_self e.pair (high.map Entry.pair ++ ctx.high))
          obtain ⟨T₁, run, mended⟩ := nodeRemove_spec stands.focus stands.order stands.ctxSized stands.sized
            (left ▸ ascending.sublist sublist) stands.room inUse
            (C.order_eq.mp (Std.OrientedCmp.eq_symm equal)) below
          exact ⟨T₁, _, _, by rw [if_pos isLeaf]; exact run, split, left ▸ mended⟩
      | succ h₁ =>
          have notLeaf : T.child a ≠ null := by
            have count : kids.length = (low ++ e :: high).length + 1 := stands.sized.2.1 (Nat.succ_ne_zero h₁)
            rw [stands.focus.child]
            cases kids with
            | nil => cases count
            | cons k kids => exact stands.focus.reads.2.2.2 k (List.mem_cons_self ..)
          obtain ⟨T₁, before, rest, run, split, mended⟩ := removeInner_spec stands inUse equal below
          exact ⟨T₁, before, rest, by rw [if_neg notLeaf]; exact run, split, mended⟩
    have found : m.contains key = true := OrderedMap.contains_of_found (all.symm.trans split) equal
    have erased : (m.erase key).pairs = before ++ rest := OrderedMap.erase_of_found (all.symm.trans split) equal
    have shrunk : T₁.size - 1 = (Tree.pairs h' whole').length := by
      rw [pairs, size', rests.size, ← holds, ← all, split]
      simp only [List.length_append, List.length_cons]
      omega
    rw [found]
    refine ⟨{ T₁ with size := T₁.size - 1 }, h', whole', ?_, shrunk ▸ Rests.resize stands' inUse', order', pairs.trans erased.symm⟩
    simp only [Btree.remove, result, Option.bind_eq_bind, Option.bind_some, Option.isSome_some, if_true,
      load_real _ aReal]
    by_cases isLeaf : T.child a = null
    · rw [if_pos isLeaf] at run ⊢
      rw [run, Option.bind_some]
    · rw [if_neg isLeaf] at run ⊢
      rw [run, Option.bind_some]

end Remove

end Btree

end KTableFS.Index
