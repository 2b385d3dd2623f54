/-
# Index.BtreeMerge -- `btree_node_merge`

A node that has lost a pair may be short of one (`Falling`).  It has a neighbour then
(`Falling.uneven`); the two become one (`Uneven.falls`) or share their pairs anew
(`Uneven.borrowRight`, `Uneven.borrowLeft`).  Where they become one, their parent has lost a
pair in turn, and an empty root gives way to its only child (`Focus.shrink`).  `merge_spec`
follows this to the root, by induction on the context.
-/
import KTableFS.Index.BtreeShare

namespace KTableFS.Index

open KTableFS.Theory

set_option autoImplicit false

namespace Btree

variable {σ K V : Type}


/-! ## A node that is short of a pair -/

/-- The least number of pairs of a node that may have lost one. -/
def Ctx.few (order : Nat) : {h : Nat} → Ctx K V h → Nat
  | h, .top => Ctx.least order (Ctx.top : Ctx K V h)
  | _, .frame .. => order - 1

/-- A node at the focus that may be short of a pair. -/
structure Falling (C : KeyCmp K) (A : Allocator σ) (T : Btree σ K V) {h : Nat} (ctx : Ctx K V h) (t : Tree K V h) :
    Prop where
  focus : Focus T ctx t
  order : 2 < T.order
  ctxSized : ctx.Sized T.order
  sized : Tree.Sized T.order h (ctx.few T.order) (2 * T.order) t
  ascending : (contents ctx t).Pairwise fun a b => C.order a.1 b.1 = .lt
  room : (contents ctx t).length ≤ T.size + 1
  inUse : InUse A T ctx t

/-- Two neighbours one of which is short of a pair, and their parent. -/
structure Uneven (C : KeyCmp K) (A : Allocator σ) (T : Btree σ K V) {h : Nat} (up : Ctx K V (h + 2)) (p : Ptr)
    (low : List (Entry K V)) (e : Entry K V) (high : List (Entry K V)) (before after : List (Tree K V (h + 1)))
    (l : Ptr) (el : List (Entry K V)) (kl : List (Tree K V h)) (r : Ptr) (er : List (Entry K V))
    (kr : List (Tree K V h)) : Prop where
  focus : Focus T up (.node p (low ++ e :: high) (before ++ [.node l el kl, .node r er kr] ++ after))
  order : 2 < T.order
  upSized : up.Sized T.order
  least : up.least T.order ≤ low.length + high.length + 1
  most : low.length + high.length + 1 ≤ 2 * T.order
  sameBefore : before.length = low.length
  sameAfter : after.length = high.length
  aside : ∀ k ∈ before ++ after, Tree.Sized T.order (h + 1) T.order (2 * T.order) k
  sizes : el.length + 1 = T.order ∧ T.order ≤ er.length ∧ er.length ≤ 2 * T.order ∨
    er.length + 1 = T.order ∧ T.order ≤ el.length ∧ el.length ≤ 2 * T.order
  kids : h ≠ 0 → kl.length = el.length + 1 ∧ kr.length = er.length + 1
  kidsSized : ∀ k ∈ kl ++ kr, Tree.Sized T.order h T.order (2 * T.order) k
  ascending : (contents up (.node p (low ++ e :: high) (before ++ [.node l el kl, .node r er kr] ++ after))).Pairwise
    fun a b => C.order a.1 b.1 = .lt
  room : (contents up (.node p (low ++ e :: high) (before ++ [.node l el kl, .node r er kr] ++ after))).length ≤
    T.size + 1
  inUse : InUse A T up (.node p (low ++ e :: high) (before ++ [.node l el kl, .node r er kr] ++ after))

section Uneven

variable {C : KeyCmp K} {A : Allocator σ} {T : Btree σ K V} {h : Nat} {up : Ctx K V (h + 2)} {p l r : Ptr}
  {low high el er : List (Entry K V)} {e : Entry K V} {before after : List (Tree K V (h + 1))}
  {kl kr : List (Tree K V h)}

/-- The new shape of the parent. -/
theorem Uneven.sized {entries : List (Entry K V)} {ms : List (Tree K V (h + 1))} {least : Nat}
    (uneven : Uneven C A T up p low e high before after l el kl r er kr)
    (bounds : least ≤ entries.length ∧ entries.length ≤ 2 * T.order)
    (count : ms.length + low.length + high.length = entries.length + 1)
    (sized : ∀ m ∈ ms, Tree.Sized T.order (h + 1) T.order (2 * T.order) m) :
    Tree.Sized T.order (h + 2) least (2 * T.order) (.node p entries (before ++ ms ++ after)) := by
  have sameBefore := uneven.sameBefore
  have sameAfter := uneven.sameAfter
  refine Tree.sized_node.mpr ⟨bounds, fun _ => ?_, fun k member => ?_⟩
  · rw [List.length_append, List.length_append]
    omega
  · rw [List.append_assoc, List.mem_append, List.mem_append] at member
    rcases member with inBefore | inMs | inAfter
    · exact uneven.aside k (List.mem_append_left _ inBefore)
    · exact sized k inMs
    · exact uneven.aside k (List.mem_append_right _ inAfter)

/-- The memory the parent has after two neighbours have shared their pairs was in use before. -/
theorem Uneven.uses {T' : Btree σ K V} {entries : List (Entry K V)} {ms : List (Tree K V (h + 1))}
    (uneven : Uneven C A T up p low e high before after l el kl r er kr) (arena : T'.arena = T.arena)
    (addrs : ∀ b ∈ ms.flatMap (Tree.addrs (h + 1)),
      b ∈ [Tree.node l el kl, .node r er kr].flatMap (Tree.addrs (h + 1)))
    (cells : ∀ c ∈ entries.map Entry.addr ++ ms.flatMap (Tree.cells (h + 1)),
      c ∈ (low ++ e :: high).map Entry.addr ++ [Tree.node l el kl, .node r er kr].flatMap (Tree.cells (h + 1))) :
    InUse A T' up (.node p entries (before ++ ms ++ after)) := by
  intro b member
  rw [arena]
  refine uneven.inUse b ?_
  simp only [Tree.addrs_node, Tree.cells_node, List.flatMap_append, List.mem_append, List.mem_cons] at member ⊢
  rcases member with ((isP | (inBefore | inMs) | inAfter) | inCtx) | ((inEntries | (inBefore | inMs) | inAfter) | inCtx)
  · exact Or.inl (Or.inl (Or.inl isP))
  · exact Or.inl (Or.inl (Or.inr (Or.inl (Or.inl inBefore))))
  · exact Or.inl (Or.inl (Or.inr (Or.inl (Or.inr (addrs b inMs)))))
  · exact Or.inl (Or.inl (Or.inr (Or.inr inAfter)))
  · exact Or.inl (Or.inr inCtx)
  · have old := cells b (List.mem_append_left _ inEntries)
    rw [List.mem_append] at old
    tauto
  · exact Or.inr (Or.inl (Or.inr (Or.inl (Or.inl inBefore))))
  · have old := cells b (List.mem_append_right _ inMs)
    rw [List.mem_append] at old
    tauto
  · exact Or.inr (Or.inl (Or.inr (Or.inr inAfter)))
  · exact Or.inr (Or.inr inCtx)

/-- The children of the two neighbours, if they have some. -/
theorem Uneven.leaves (uneven : Uneven C A T up p low e high before after l el kl r er kr) :
    kl.length = el.length + 1 ∧ kr.length = er.length + 1 ∨ kl = [] ∧ kr = [] := by
  cases h with
  | zero => exact Or.inr ⟨no_kids kl, no_kids kr⟩
  | succ h => exact Or.inl (uneven.kids (Nat.succ_ne_zero h))

/-- The fuel of the loops. -/
theorem Uneven.enough (uneven : Uneven C A T up p low e high before after l el kl r er kr) :
    (low ++ e :: high ++ (el ++ er)).length < T.fuel ∧ kl.length < T.fuel ∧ kr.length < T.fuel := by
  have room := uneven.room
  have leaves := uneven.leaves
  have more : ∀ {a : Ptr} {entries : List (Entry K V)} {kids : List (Tree K V h)},
      kids.length = entries.length + 1 ∨ kids = [] →
      entries.length ≤ (Tree.pairs (h + 1) (.node a entries kids)).length := by
    intro a entries kids count
    have length := length_weave (show (kids.map (Tree.pairs h)).length = (entries.map Entry.pair).length + 1 ∨
      kids.map (Tree.pairs h) = [] by simpa using count)
    rw [Tree.pairs_node, length, List.length_map]
    exact Nat.le_add_left ..
  have left := more (a := l) (leaves.imp And.left And.left)
  have right := more (a := r) (leaves.imp And.right And.right)
  have onLeft := length_weaveLeft (show (before.map (Tree.pairs (h + 1))).length = (low.map Entry.pair).length by
    simpa using uneven.sameBefore)
  have onRight := length_weaveRight (show (high.map Entry.pair).length = (after.map (Tree.pairs (h + 1))).length by
    simpa using uneven.sameAfter.symm)
  rw [contents, pairs_neighbours _ _ uneven.sameBefore] at room
  simp only [List.length_append, List.length_cons, onLeft, onRight, List.length_map] at room ⊢
  rw [Btree.fuel]
  rcases leaves with ⟨countL, countR⟩ | ⟨rfl, rfl⟩
  · omega
  · rw [List.length_nil]
    omega

/-- **Two nodes have become one.** -/
theorem Uneven.join (uneven : Uneven C A T up p low e high before after l el kl r er kr)
    (exact' : el.length + er.length + 1 = 2 * T.order) : ∃ T', T.join l r p = some T' ∧ T'.order = T.order ∧
      T'.size = T.size ∧ Focus T' up (.node p (low ++ high) (before ++ [.node l (el ++ e :: er) (kl ++ kr)] ++ after)) ∧
      Tree.Sized T.order (h + 1) T.order (2 * T.order) (.node l (el ++ e :: er) (kl ++ kr)) ∧
      contents up (.node p (low ++ high) (before ++ [.node l (el ++ e :: er) (kl ++ kr)] ++ after)) =
        contents up (.node p (low ++ e :: high) (before ++ [.node l el kl, .node r er kr] ++ after)) ∧
      InUse A T' up (.node p (low ++ high) (before ++ [.node l (el ++ e :: er) (kl ++ kr)] ++ after)) := by
  obtain ⟨room, kidsRoom⟩ := uneven.enough
  have order := uneven.order
  have notEmpty : el ≠ [] := by
    rintro rfl
    have sizes := uneven.sizes
    simp only [List.length_nil] at sizes exact'
    omega
  have leaves : kl = [] → kr = [] := by
    rintro rfl
    rcases uneven.leaves with ⟨count, -⟩ | ⟨-, none⟩
    · cases count
    · exact none
  obtain ⟨T', run, order', size', arena', focus⟩ :=
    uneven.focus.join uneven.sameBefore exact' notEmpty leaves room kidsRoom
  refine ⟨T', run, order', size', focus, Tree.sized_node.mpr ⟨?_, fun positive => ?_, uneven.kidsSized⟩, ?_,
    uneven.uses arena' ?_ ?_⟩
  · rw [List.length_append, List.length_cons]
    omega
  · obtain ⟨countL, countR⟩ := uneven.kids positive
    rw [List.length_append, List.length_append, List.length_cons]
    omega
  · rw [contents, contents, pairs_neighbours _ _ uneven.sameBefore, pairs_single _ uneven.sameBefore,
      pairs_join (l := l) (r := r) uneven.leaves]
  · intro b member
    simp only [List.flatMap_cons, List.flatMap_nil, Tree.addrs_node, List.flatMap_append, List.append_nil,
      List.mem_append, List.mem_cons] at member ⊢
    tauto
  · intro c member
    simp only [List.flatMap_cons, List.flatMap_nil, Tree.cells_node, List.flatMap_append, List.append_nil,
      List.map_append, List.map_cons, List.mem_append, List.mem_cons] at member ⊢
    tauto

theorem shared_addrs {kl' kr' : List (Tree K V h)} {el' er' : List (Entry K V)} (kids : kl' ++ kr' = kl ++ kr) :
    ([Tree.node l el' kl', .node r er' kr'].flatMap (Tree.addrs (h + 1))).Perm
      ([Tree.node l el kl, .node r er kr].flatMap (Tree.addrs (h + 1))) := by
  refine List.perm_iff_count.mpr fun b => ?_
  have same := congrArg (fun ks => (ks.flatMap (Tree.addrs h)).count b) kids
  simp only [List.flatMap_cons, List.flatMap_nil, Tree.addrs_node, List.flatMap_append, List.count_append,
    List.count_cons, List.count_nil] at same ⊢
  omega

theorem shared_cells {kl' kr' : List (Tree K V h)} {el' er' : List (Entry K V)} {d : Entry K V}
    (entries : el' ++ d :: er' = el ++ e :: er) (kids : kl' ++ kr' = kl ++ kr) :
    ((low ++ d :: high).map Entry.addr ++ [Tree.node l el' kl', .node r er' kr'].flatMap (Tree.cells (h + 1))).Perm
      ((low ++ e :: high).map Entry.addr ++ [Tree.node l el kl, .node r er kr].flatMap (Tree.cells (h + 1))) := by
  refine List.perm_iff_count.mpr fun c => ?_
  have same := congrArg (fun ks => (ks.flatMap (Tree.cells h)).count c) kids
  have sameEntries := congrArg (fun es => (es.map Entry.addr).count c) entries
  simp only [List.flatMap_cons, List.flatMap_nil, Tree.cells_node, List.flatMap_append, List.map_append,
    List.map_cons, List.count_append, List.count_cons, List.count_nil] at same sameEntries ⊢
  omega

/-- The two neighbours have proper sizes now. -/
theorem Uneven.even {T' : Btree σ K V} {d : Entry K V} {el' er' : List (Entry K V)} {kl' kr' : List (Tree K V h)}
    (uneven : Uneven C A T up p low e high before after l el kl r er kr) (order : T'.order = T.order)
    (size : T'.size = T.size) (arena : T'.arena = T.arena)
    (focus : Focus T' up (.node p (low ++ d :: high) (before ++ [.node l el' kl', .node r er' kr'] ++ after)))
    (entries : el' ++ d :: er' = el ++ e :: er) (kids : kl' ++ kr' = kl ++ kr)
    (sizes : (T.order ≤ el'.length ∧ el'.length ≤ 2 * T.order) ∧ T.order ≤ er'.length ∧ er'.length ≤ 2 * T.order)
    (leaves : kl'.length = el'.length + 1 ∧ kr'.length = er'.length + 1 ∨ kl' = [] ∧ kr' = [])
    (kidsCount : h ≠ 0 → kl'.length = el'.length + 1 ∧ kr'.length = er'.length + 1) :
    Mended C A T T' (contents up (.node p (low ++ e :: high) (before ++ [.node l el kl, .node r er kr] ++ after))) [] := by
  have same : contents up (.node p (low ++ d :: high) (before ++ [.node l el' kl', .node r er' kr'] ++ after)) =
      contents up (.node p (low ++ e :: high) (before ++ [.node l el kl, .node r er kr] ++ after)) := by
    rw [contents, contents, pairs_neighbours _ _ uneven.sameBefore, pairs_neighbours _ _ uneven.sameBefore,
      ← pairs_join (a := p) leaves, ← pairs_join (a := p) uneven.leaves, entries, kids]
  have kidsSized : ∀ k ∈ kl' ++ kr', Tree.Sized T.order h T.order (2 * T.order) k := kids ▸ uneven.kidsSized
  have leftSized : Tree.Sized T.order (h + 1) T.order (2 * T.order) (.node l el' kl') :=
    Tree.sized_node.mpr ⟨sizes.1, fun positive => (kidsCount positive).1, fun k member =>
      kidsSized k (List.mem_append_left _ member)⟩
  have rightSized : Tree.Sized T.order (h + 1) T.order (2 * T.order) (.node r er' kr') :=
    Tree.sized_node.mpr ⟨sizes.2, fun positive => (kidsCount positive).2, fun k member =>
      kidsSized k (List.mem_append_right _ member)⟩
  have least := uneven.least
  have most := uneven.most
  have inUse : InUse A T' up (.node p (low ++ d :: high) (before ++ [.node l el' kl', .node r er' kr'] ++ after)) :=
    uneven.uses arena (fun _ => (shared_addrs kids).mem_iff.mp) fun _ => (shared_cells entries kids).mem_iff.mp
  rw [← same]
  refine Stands.mended ⟨focus, order ▸ uneven.order, order ▸ uneven.upSized, order ▸ ?_, same ▸ uneven.ascending,
    same ▸ size ▸ uneven.room⟩ inUse size order fun b member => absurd member List.not_mem_nil
  refine uneven.sized ⟨?_, ?_⟩ ?_ fun m member => ?_
  · rw [List.length_append, List.length_cons]
    omega
  · rw [List.length_append, List.length_cons]
    omega
  · simp only [List.length_append, List.length_cons, List.length_nil]
    omega
  · rcases List.mem_cons.mp member with rfl | member
    · exact leftSized
    · rw [List.mem_singleton.mp member]
      exact rightSized

/-- **The right neighbour has a pair to spare.** -/
theorem Uneven.borrowRight (uneven : Uneven C A T up p low e high before after l el kl r er kr)
    (short : el.length + 1 = T.order) (spare : T.order < er.length) : ∃ T', T.borrowRight l r p = some T' ∧
      Mended C A T T'
        (contents up (.node p (low ++ e :: high) (before ++ [.node l el kl, .node r er kr] ++ after))) [] := by
  obtain ⟨room, kidsRoom, -⟩ := uneven.enough
  have order := uneven.order
  have sizes := uneven.sizes
  obtain ⟨d, er', rfl⟩ : ∃ d er', er = d :: er' := by
    cases er with
    | nil => cases spare
    | cons d er' => exact ⟨d, er', rfl⟩
  have notEmpty : el ≠ [] := by
    rintro rfl
    rw [List.length_nil] at short
    omega
  obtain ⟨moved, kr', rfl, leaves⟩ : ∃ moved kr', kr = moved ++ kr' ∧
      (kl = [] ∧ moved = [] ∧ kr' = [] ∨ kl ≠ [] ∧ ∃ k, moved = [k]) := by
    rcases uneven.leaves with ⟨countL, countR⟩ | ⟨rfl, rfl⟩
    · obtain ⟨k, kr', rfl⟩ : ∃ k kr', kr = k :: kr' := by
        cases kr with
        | nil => cases countR
        | cons k kr' => exact ⟨k, kr', rfl⟩
      refine ⟨[k], kr', rfl, Or.inr ⟨?_, k, rfl⟩⟩
      rintro rfl
      cases countL
    · exact ⟨[], [], rfl, Or.inl ⟨rfl, rfl, rfl⟩⟩
  have counts : kl.length = el.length + 1 ∧ (moved ++ kr').length = (d :: er').length + 1 →
      (kl ++ moved).length = (el ++ [e]).length + 1 ∧ kr'.length = er'.length + 1 := by
    rintro ⟨countL, countR⟩
    rcases leaves with ⟨rfl, -⟩ | ⟨-, k, rfl⟩
    · cases countL
    · simp only [List.length_append, List.length_cons, List.length_nil] at countL countR ⊢
      omega
  obtain ⟨T', run, order', size', arena', focus⟩ :=
    uneven.focus.borrowRight uneven.sameBefore notEmpty leaves room kidsRoom
  refine ⟨T', run, uneven.even order' size' arena' focus (List.append_assoc ..) (List.append_assoc ..) ?_ ?_
    fun positive => counts (uneven.kids positive)⟩
  · simp only [List.length_append, List.length_cons, List.length_nil] at sizes spare ⊢
    omega
  · refine uneven.leaves.imp counts ?_
    rintro ⟨rfl, none⟩
    obtain ⟨rfl, rfl⟩ := List.append_eq_nil_iff.mp none
    exact ⟨rfl, rfl⟩

/-- **The left neighbour has a pair to spare.** -/
theorem Uneven.borrowLeft (uneven : Uneven C A T up p low e high before after l el kl r er kr)
    (short : er.length + 1 = T.order) (spare : T.order < el.length) : ∃ T', T.borrowLeft l r p = some T' ∧
      Mended C A T T'
        (contents up (.node p (low ++ e :: high) (before ++ [.node l el kl, .node r er kr] ++ after))) [] := by
  obtain ⟨room, kidsRoom, -⟩ := uneven.enough
  have order := uneven.order
  have sizes := uneven.sizes
  obtain ⟨el', d, rfl⟩ : ∃ el' d, el = el' ++ [d] := by
    refine ⟨el.dropLast, el.getLast ?_, (List.dropLast_append_getLast _).symm⟩
    rintro rfl
    cases spare
  have notEmpty : el' ≠ [] := by
    rintro rfl
    simp only [List.nil_append, List.length_cons, List.length_nil] at spare
    omega
  obtain ⟨kl', moved, rfl, leaves⟩ : ∃ kl' moved, kl = kl' ++ moved ∧
      (kl' = [] ∧ moved = [] ∧ kr = [] ∨ kl' ≠ [] ∧ ∃ k, moved = [k]) := by
    rcases uneven.leaves with ⟨countL, -⟩ | ⟨rfl, rfl⟩
    · have some' : kl ≠ [] := by
        rintro rfl
        cases countL
      refine ⟨kl.dropLast, [kl.getLast some'], (List.dropLast_append_getLast _).symm, Or.inr ⟨?_, _, rfl⟩⟩
      intro none
      have length : kl.dropLast.length = kl.length - 1 := List.length_dropLast
      rw [none, countL, List.length_append, List.length_singleton, List.length_nil] at length
      omega
    · exact ⟨[], [], rfl, Or.inl ⟨rfl, rfl, rfl⟩⟩
  have counts : (kl' ++ moved).length = (el' ++ [d]).length + 1 ∧ kr.length = er.length + 1 →
      kl'.length = el'.length + 1 ∧ (moved ++ kr).length = (e :: er).length + 1 := by
    rintro ⟨countL, countR⟩
    rcases leaves with ⟨-, -, rfl⟩ | ⟨-, k, rfl⟩
    · cases countR
    · simp only [List.length_append, List.length_cons, List.length_nil] at countL countR ⊢
      omega
  rw [List.length_append] at kidsRoom
  obtain ⟨T', run, order', size', arena', focus⟩ :=
    uneven.focus.borrowLeft uneven.sameBefore notEmpty leaves room (by omega)
  refine ⟨T', run, uneven.even order' size' arena' focus ?_ (List.append_assoc ..).symm ?_ ?_
    fun positive => counts (uneven.kids positive)⟩
  · rw [List.append_assoc, List.singleton_append]
  · simp only [List.length_append, List.length_cons, List.length_nil] at sizes spare ⊢
    omega
  · refine uneven.leaves.imp counts ?_
    rintro ⟨none, rfl⟩
    obtain ⟨rfl, rfl⟩ := List.append_eq_nil_iff.mp none
    exact ⟨rfl, rfl⟩

/-- What `btree_node_merge_` reads of two neighbours. -/
theorem Uneven.reads (uneven : Uneven C A T up p low e high before after l el kl r er kr) :
    (p ≠ null ∧ l ≠ null ∧ r ≠ null) ∧ T.next l = r ∧ T.parent l = p ∧ T.nodeSize l = el.length ∧
      T.nodeSize r = er.length ∧ T.nodeSize p = low.length + high.length + 1 := by
  obtain ⟨parent, left, right, -⟩ := uneven.focus.sides
  have size := parent.nodeSize
  rw [List.length_append, List.length_cons] at size
  exact ⟨uneven.focus.around.real, (leads_append.mp parent.kids).2.2.1, left.parent, left.nodeSize, right.nodeSize, size⟩

/-- One call of `btree_node_merge` that has found a neighbour. -/
theorem Uneven.merge_eq {fuel : Nat} {a : Ptr} (uneven : Uneven C A T up p low e high before after l el kl r er kr)
    (aReal : a ≠ null) (size : T.nodeSize a + 1 = T.order) (parent : T.parent a = p)
    (found : T.neighbours a p = some (l, r)) : T.merge (fuel + 1) a =
      if el.length + er.length = 2 * T.order - 1 then (T.join l r p).bind fun T' =>
        if T'.nodeSize p = 0 then { T' with root := l }.setParent l null else T'.merge fuel p
      else if el.length = T.order - 1 then T.borrowRight l r p else T.borrowLeft l r p := by
  obtain ⟨⟨pReal, lReal, rReal⟩, next, parentL, sizeL, sizeR, -⟩ := uneven.reads
  have short : ¬(T.order ≤ T.nodeSize a ∨ p = null) := by
    rintro (enough | isNull)
    · omega
    · exact pReal isNull
  have exact' : T.nodeSize a = T.order - 1 := by omega
  rw [exact'] at short
  rw [merge]
  simp only [load_real _ aReal, parent, if_neg short, Option.bind_eq_bind, Option.bind_some, exact', ne_eq,
    not_true_eq_false, if_false, found, load_real _ lReal, next, parentL, sizeL, load_real _ rReal, sizeR,
    load_real _ pReal]

end Uneven

section Merge

variable {C : KeyCmp K} {A : Allocator σ} {T : Btree σ K V}

/-- The right sibling. -/
theorem neighbours_next {a p s : Ptr} (aReal : a ≠ null) (next : T.next a = s) (real : s ≠ null) :
    T.neighbours a p = some (a, s) := by
  simp only [neighbours, load_real _ aReal, next, Option.bind_eq_bind, Option.bind_some, ne_eq, real,
    not_false_eq_true, if_true]

/-- The left sibling of the last child. -/
theorem neighbours_last {a p x : Ptr} {init : List Ptr} (aReal : a ≠ null) (pReal : p ≠ null)
    (leads : Leads T.next (T.child p) (init ++ [x, a]) null) (real : ∀ b ∈ init ++ [x], b ≠ null ∧ b ≠ a)
    (room : init.length < T.fuel) : T.neighbours a p = some (x, a) := by
  have last : T.next a = null := (leads_append.mp leads).2.2.2
  have found := before_spec leads real room
  simp only [neighbours, load_real _ aReal, last, ne_eq, not_true_eq_false, if_false, Option.bind_eq_bind,
    Option.bind_some, load_real _ pReal, found]

/-- **A node that is short of a pair has a neighbour.** -/
theorem Falling.uneven {h : Nat} {f : Frame K V (h + 1)} {up : Ctx K V (h + 2)} {a : Ptr} {entries : List (Entry K V)}
    {kids : List (Tree K V h)} (falling : Falling C A T (.frame f up) (.node a entries kids))
    (short : entries.length + 1 = T.order) : ∃ (low : List (Entry K V)) (e : Entry K V) (high : List (Entry K V))
      (before after : List (Tree K V (h + 1))) (l : Ptr) (el : List (Entry K V)) (kl : List (Tree K V h)) (r : Ptr)
      (er : List (Entry K V)) (kr : List (Tree K V h)),
      T.neighbours a f.addr = some (l, r) ∧
      contents up (.node f.addr (low ++ e :: high) (before ++ [.node l el kl, .node r er kr] ++ after)) =
        contents (.frame f up) (.node a entries kids) ∧
      Uneven C A T up f.addr low e high before after l el kl r er kr := by
  obtain ⟨focus, order, ⟨⟨before, after⟩, ⟨least, most⟩, aside, upSized⟩, ⟨-, count, kidsSized⟩, ascending, room, inUse⟩ :=
    falling
  change h ≠ 0 → kids.length = entries.length + 1 at count
  change ∀ k ∈ kids, Tree.Sized T.order h T.order (2 * T.order) k at kidsSized
  obtain ⟨aReal, laid, -, -⟩ := focus.reads
  have up' := Focus.up.mp focus
  have inUse' := InUse.up.mp inUse
  have same := contents_up up (.node a entries kids) before
  have positive : 1 ≤ T.order := by omega
  have some' := Ctx.least_pos positive (Nat.succ_lt_succ (Nat.succ_pos h)) up
  obtain ⟨p, fLow, fHigh, fBefore, fAfter⟩ := f
  simp only at before after least most aside laid up' inUse' same
  have sized : ∀ k ∈ fBefore ++ fAfter, ∃ (b : Ptr) (es : List (Entry K V)) (ks : List (Tree K V h)),
      k = Tree.node b es ks ∧ T.order ≤ es.length ∧
      es.length ≤ 2 * T.order ∧ (h ≠ 0 → ks.length = es.length + 1) ∧
      ∀ k' ∈ ks, Tree.Sized T.order h T.order (2 * T.order) k' := by
    intro k member
    obtain ⟨b, es, ks, rfl⟩ := Tree.exists_node k
    obtain ⟨⟨atLeast, atMost⟩, kidsCount, inKids⟩ := aside _ member
    exact ⟨b, es, ks, rfl, atLeast, atMost, kidsCount, inKids⟩
  rcases fAfter with _ | ⟨s, after'⟩
  · -- the last child has a left sibling
    obtain rfl : fHigh = [] := List.length_eq_zero_iff.mp after.symm
    obtain ⟨low, e, rfl⟩ : ∃ low e, fLow = low ++ [e] := by
      refine ⟨fLow.dropLast, fLow.getLast ?_, (List.dropLast_append_getLast _).symm⟩
      rintro rfl
      rw [List.length_nil] at least
      omega
    obtain ⟨before', s, rfl⟩ : ∃ before' s, fBefore = before' ++ [s] := by
      refine ⟨fBefore.dropLast, fBefore.getLast ?_, (List.dropLast_append_getLast _).symm⟩
      rintro rfl
      simp at before
    obtain ⟨b, es, ks, rfl, atLeast, atMost, kidsCount, inKids⟩ := sized s (by simp)
    have shape : Frame.fill ⟨p, low ++ [e], [], before' ++ [.node b es ks], []⟩ [Tree.node a entries kids] =
        Tree.node p (low ++ e :: []) (before' ++ [.node b es ks, .node a entries kids] ++ []) := by
      simp only [Frame.fill, List.append_assoc, List.cons_append, List.nil_append, List.append_nil]
    rw [shape] at up' inUse' same
    obtain ⟨parent, -⟩ := up'.sides
    have around := up'.around
    have line := parent.kids
    have sameBefore : before'.length = low.length := by simpa using before
    have enough : (before'.map (Tree.ptr (h + 1))).length < T.fuel := by
      have long := length_weaveLeft (show (before'.map (Tree.pairs (h + 1))).length = (low.map Entry.pair).length by
        simpa using sameBefore)
      have small := room
      rw [same, contents, pairs_neighbours _ _ sameBefore] at small
      simp only [List.length_append, long, List.length_map] at small ⊢
      rw [Btree.fuel]
      omega
    have found := neighbours_last aReal around.real.1 line (fun c member => by
      rcases List.mem_append.mp member with inBefore | isLast
      · obtain ⟨cReal, -, -, notA, -⟩ := around.ofAside c (List.mem_append_left _ inBefore)
        exact ⟨cReal, notA⟩
      · rw [List.mem_singleton.mp isLast]
        exact ⟨around.real.2.1, around.lr⟩) enough
    refine ⟨low, e, [], before', [], b, es, ks, a, entries, kids, found, same.symm, up', order, upSized, ?_, ?_,
      sameBefore, rfl, fun k member => aside k ?_, Or.inr ⟨short, atLeast, atMost⟩,
      fun positive => ⟨kidsCount positive, count positive⟩, fun k member => ?_, same ▸ ascending, same ▸ room, inUse'⟩
    · simpa using least
    · simpa using most
    · rw [List.append_nil] at member
      exact List.mem_append_left _ (List.mem_append_left _ member)
    · exact (List.mem_append.mp member).elim (inKids k) (kidsSized k)
  · obtain ⟨e, high, rfl⟩ : ∃ e high, fHigh = e :: high := by
      cases fHigh with
      | nil => cases after
      | cons e high => exact ⟨e, high, rfl⟩
    obtain ⟨b, es, ks, rfl, atLeast, atMost, kidsCount, inKids⟩ := sized s (by simp)
    have shape : Frame.fill ⟨p, fLow, e :: high, fBefore, .node b es ks :: after'⟩ [Tree.node a entries kids] =
        Tree.node p (fLow ++ e :: high) (fBefore ++ [.node a entries kids, .node b es ks] ++ after') := by
      simp only [Frame.fill, List.append_assoc, List.cons_append, List.nil_append]
    rw [shape] at up' inUse' same
    obtain ⟨parent, -⟩ := up'.sides
    have next := (leads_append.mp parent.kids).2.2.1
    refine ⟨fLow, e, high, fBefore, after', a, entries, kids, b, es, ks,
      neighbours_next aReal next up'.around.real.2.2, same.symm, up', order, upSized, ?_, ?_, before, Nat.succ.inj after,
      fun k member => aside k ?_, Or.inl ⟨short, atLeast, atMost⟩,
      fun positive => ⟨count positive, kidsCount positive⟩, fun k member => ?_, same ▸ ascending, same ▸ room, inUse'⟩
    · rw [List.length_cons] at least
      omega
    · rw [List.length_cons] at most
      omega
    · rw [List.mem_append, List.mem_cons]
      rw [List.mem_append] at member
      exact member.imp id Or.inr
    · exact (List.mem_append.mp member).elim (kidsSized k) (inKids k)

/-- An empty root gives way to its only child. -/
theorem Focus.shrink {h : Nat} {p : Ptr} {t : Tree K V (h + 1)} (focus : Focus T .top (.node p [] [t])) :
    Focus { T with root := Tree.ptr (h + 1) t, parent := Function.update T.parent (Tree.ptr (h + 1) t) null } .top t := by
  obtain ⟨laid, inKids⟩ := Tree.in_node.mp focus.below
  have nodup := focus.nodup
  have real := focus.real
  have cellsNodup := focus.cellsNodup
  have cellsReal := focus.cellsReal
  simp only [Ctx.addrs, Ctx.cells, List.append_nil, Tree.addrs_node, Tree.cells_node, List.flatMap_singleton,
    List.map_nil, List.nil_append, List.nodup_cons, List.mem_cons] at nodup real cellsNodup cellsReal
  have outside : Outside T { T with
      root := Tree.ptr (h + 1) t, parent := Function.update T.parent (Tree.ptr (h + 1) t) null }
      [] [Tree.ptr (h + 1) t] [] :=
    ⟨fun _ _ => rfl, fun _ _ => rfl, fun _ _ => rfl, fun b other => Function.update_of_ne (by simpa using other) ..,
      fun _ _ => rfl, fun _ _ => rfl, fun _ _ => rfl, fun _ _ => rfl⟩
  refine ⟨rfl, laid.kids.2, (inKids t (List.mem_singleton_self t)).outside outside (Function.update_self ..)
    (fun _ _ => List.not_mem_nil) (fun _ under => ?_) (fun _ _ => List.not_mem_nil), ?_, ?_, ?_, ?_⟩
  · rw [List.mem_singleton]
    rintro rfl
    exact (List.nodup_cons.mp nodup.2).1 under
  · rw [Ctx.addrs, List.append_nil]
    exact nodup.2
  · rw [Ctx.addrs, List.append_nil]
    exact fun b member => real b (Or.inr member)
  · rw [Ctx.cells, List.append_nil]
    exact cellsNodup
  · rw [Ctx.cells, List.append_nil]
    exact cellsReal

theorem Mended.of_step {T₁ T' : Btree σ K V} {all : List (K × V)} (mended : Mended C A T₁ T' all [])
    (size : T₁.size = T.size) (order : T₁.order = T.order) : Mended C A T T' all [] := by
  obtain ⟨h, whole, stands, pairs, inUse, size', order', -⟩ := mended
  exact ⟨h, whole, stands, pairs, inUse, size'.trans size, order'.trans order, fun b member =>
    absurd member List.not_mem_nil⟩

/-- A node that is not short of a pair. -/
theorem Falling.rests {h : Nat} {ctx : Ctx K V (h + 1)} {a : Ptr} {entries : List (Entry K V)}
    {kids : List (Tree K V h)} (falling : Falling C A T ctx (.node a entries kids))
    (enough : ctx.least T.order ≤ entries.length) : Mended C A T T (contents ctx (.node a entries kids)) [] :=
  Stands.mended ⟨falling.focus, falling.order, falling.ctxSized, ⟨⟨enough, falling.sized.1.2⟩, falling.sized.2⟩,
    falling.ascending, falling.room⟩ falling.inUse rfl rfl fun _ member => absurd member List.not_mem_nil

section Joined

variable {h : Nat} {up : Ctx K V (h + 2)} {p l r : Ptr} {low high el er : List (Entry K V)} {e : Entry K V}
  {before after : List (Tree K V (h + 1))} {kl kr : List (Tree K V h)}

/-- Two nodes have become one, and their parent may be short of a pair now. -/
theorem Uneven.falls (uneven : Uneven C A T up p low e high before after l el kl r er kr)
    (exact' : el.length + er.length + 1 = 2 * T.order) : ∃ T', T.join l r p = some T' ∧ T'.order = T.order ∧
      T'.size = T.size ∧ T'.nodeSize p = low.length + high.length ∧
      (low.length + high.length ≠ 0 →
        Falling C A T' up (.node p (low ++ high) (before ++ [.node l (el ++ e :: er) (kl ++ kr)] ++ after))) ∧
      (low.length + high.length = 0 → ∃ T'', { T' with root := l }.setParent l null = some T'' ∧
        Mended C A T' T''
          (contents up (.node p (low ++ high) (before ++ [.node l (el ++ e :: er) (kl ++ kr)] ++ after))) []) ∧
      contents up (.node p (low ++ high) (before ++ [.node l (el ++ e :: er) (kl ++ kr)] ++ after)) =
        contents up (.node p (low ++ e :: high) (before ++ [.node l el kl, .node r er kr] ++ after)) := by
  obtain ⟨T', run, order, size, focus, sized, same, inUse⟩ := uneven.join exact'
  have least := uneven.least
  have most := uneven.most
  have many := uneven.order
  have nodeSize := focus.reads.2.1.nodeSize
  rw [List.length_append] at nodeSize
  refine ⟨T', run, order, size, nodeSize, fun some' => ⟨focus, order ▸ uneven.order, order ▸ uneven.upSized,
    order ▸ ?_, same ▸ uneven.ascending, same ▸ size ▸ uneven.room, inUse⟩, fun none => ?_, same⟩
  · refine uneven.sized ⟨?_, ?_⟩ ?_ fun m member => ?_
    · rw [List.length_append]
      cases up with
      | top => exact Nat.le_trans (by rw [Ctx.few, Ctx.least]; split <;> omega) (Nat.one_le_iff_ne_zero.mpr some')
      | frame =>
          show T.order - 1 ≤ _
          change T.order ≤ _ at least
          omega
    · rw [List.length_append]
      omega
    · simp only [List.length_append, List.length_cons, List.length_nil]
      omega
    · rw [List.mem_singleton.mp member]
      exact sized
  · cases up with
    | frame =>
        change T.order ≤ _ at least
        omega
    | top =>
        obtain rfl : low = [] := List.length_eq_zero_iff.mp (by omega)
        obtain rfl : high = [] := List.length_eq_zero_iff.mp (by omega)
        obtain rfl : before = [] := List.length_eq_zero_iff.mp uneven.sameBefore
        obtain rfl : after = [] := List.length_eq_zero_iff.mp uneven.sameAfter
        have lReal : l ≠ null := uneven.focus.around.real.2.1
        let t : Tree K V (h + 1) := .node l (el ++ e :: er) (kl ++ kr)
        have only : Focus T' .top (.node p [] [t]) := focus
        have pairs : contents (Ctx.top : Ctx K V (h + 2)) (.node p [] [t]) = contents .top t := by
          rw [contents_top, contents_top]
          exact List.append_nil _
        have used : InUse A T' .top t := by
          intro b member
          refine inUse b (member.imp (fun inTree => ?_) fun inTree => ?_)
          · rw [Ctx.addrs, List.append_nil] at inTree ⊢
            exact List.mem_cons_of_mem _ (List.mem_append_left _ inTree)
          · rw [Ctx.cells, List.append_nil] at inTree ⊢
            exact List.mem_append_right _ (List.mem_append_left _ inTree)
        refine ⟨{ T' with root := l, parent := Function.update T'.parent l null }, ?_, ?_⟩
        · simp only [setParent, store_real _ _ lReal, Option.map_some]
        · change Mended C A T' _ (contents .top (.node p [] [t])) []
          have all := same
          change contents (Ctx.top : Ctx K V (h + 2)) (.node p [] [t]) = _ at all
          rw [pairs] at all ⊢
          refine Stands.mended ⟨only.shrink, ?_, trivial, ?_, all ▸ uneven.ascending, ?_⟩ used rfl rfl
            fun b member => absurd member List.not_mem_nil
          · show 2 < T'.order
            rw [order]
            exact many
          · show Tree.Sized T'.order (h + 1) (Ctx.top.least T'.order) (2 * T'.order) t
            rw [order]
            refine sized.mono ?_ (Nat.le_refl _)
            rw [Ctx.least]
            split <;> omega
          · show _ ≤ T'.size + 1
            rw [all, size]
            exact uneven.room

end Joined

/-- **`btree_node_merge`**, up to the root. -/
theorem merge_spec : ∀ {h fuel : Nat} {ctx : Ctx K V h} {t : Tree K V h} {T : Btree σ K V}, Falling C A T ctx t →
    ctx.length + 1 ≤ fuel → ∃ T', T.merge fuel (Tree.ptr h t) = some T' ∧ Mended C A T T' (contents ctx t) []
  | 0, _, _, t, _, _, _ => Empty.elim t
  | _ + 1, 0, _, _, _, _, spent => absurd spent (by omega)
  | h + 1, fuel + 1, ctx, t, T, falling, spent => by
      obtain ⟨a, entries, kids, rfl⟩ := Tree.exists_node t
      obtain ⟨aReal, laid, -, -⟩ := falling.focus.reads
      have size := laid.nodeSize
      rw [Tree.ptr_node]
      cases ctx with
      | top =>
          have isRoot : T.parent a = null := laid.parent
          have run : T.merge (fuel + 1) a = some T := by
            rw [merge]
            simp only [load_real _ aReal, isRoot, Option.bind_eq_bind, Option.bind_some, or_true, if_true]
          exact ⟨T, run, falling.rests falling.sized.1.1⟩
      | frame f up =>
          by_cases enough : T.order ≤ entries.length
          · have run : T.merge (fuel + 1) a = some T := by
              rw [merge]
              simp only [load_real _ aReal, size, enough, Option.bind_eq_bind, Option.bind_some, true_or, if_true]
            exact ⟨T, run, falling.rests enough⟩
          · have least : T.order - 1 ≤ entries.length := falling.sized.1.1
            have many := falling.order
            have short : entries.length + 1 = T.order := by omega
            obtain ⟨low, e, high, before, after, l, el, kl, r, er, kr, found, same, uneven⟩ := falling.uneven short
            have parent : T.parent a = f.addr := laid.parent
            rw [uneven.merge_eq aReal (by omega) parent found, ← same]
            by_cases one : el.length + er.length = 2 * T.order - 1
            · -- they become one, and the parent is next
              rw [if_pos one]
              obtain ⟨T₁, joined, order₁, size₁, nodeSize, falls, shrinks, same₁⟩ := uneven.falls (by omega)
              rw [joined, Option.bind_some, nodeSize, ← same₁]
              by_cases empty : low.length + high.length = 0
              · rw [if_pos empty]
                obtain ⟨T₂, run, mended⟩ := shrinks empty
                exact ⟨T₂, run, mended.of_step size₁ order₁⟩
              · rw [if_neg empty]
                obtain ⟨T₂, run, mended⟩ := merge_spec (falls empty) (Nat.le_of_succ_le_succ spent)
                exact ⟨T₂, run, mended.of_step size₁ order₁⟩
            · rw [if_neg one]
              rcases uneven.sizes with ⟨shortL, leastR, -⟩ | ⟨shortR, leastL, -⟩
              · rw [if_pos (by omega)]
                exact uneven.borrowRight shortL (by omega)
              · rw [if_neg (by omega)]
                exact uneven.borrowLeft shortR (by omega)

end Merge

end Btree

end KTableFS.Index
