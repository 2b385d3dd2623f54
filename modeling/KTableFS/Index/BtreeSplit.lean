/-
# Index.BtreeSplit -- splits in the B-tree, and `btree_insert`

A node that has become too full is halved; its new sibling and the pair between the two go to
the parent (`Focus.splitKid`), which may have become too full in turn, or to a new root
(`Focus.splitRoot`).  `split_spec` follows the splits to the root, by induction on the context.
-/
import KTableFS.Index.BtreeInsert

namespace KTableFS.Index

open KTableFS.Theory

set_option autoImplicit false

namespace Btree

variable {σ K V : Type}

/-! ## Memory in use -/

/-- The nodes and pairs are in use. -/
def InUse (A : Allocator σ) (T : Btree σ K V) {h : Nat} (ctx : Ctx K V h) (t : Tree K V h) : Prop :=
  ∀ p, p ∈ Tree.addrs h t ++ ctx.addrs ∨ p ∈ Tree.cells h t ++ ctx.cells → A.InUse T.arena p

theorem InUse.up {A : Allocator σ} {T : Btree σ K V} {h : Nat} {f : Frame K V h} {up : Ctx K V (h + 1)}
    {t : Tree K V h} : InUse A T (.frame f up) t ↔ InUse A T up (f.fill [t]) := by
  simp only [InUse, (f.addrs_perm t up).mem_iff, (f.cells_perm t up).mem_iff]

theorem InUse.refocus {A : Allocator σ} {T : Btree σ K V} {h h' : Nat} {ctx : Ctx K V h} {ctx' : Ctx K V h'}
    {t : Tree K V h} {t' : Tree K V h'} (inUse : InUse A T ctx' t') (same : Refocus ctx t ctx' t') :
    InUse A T ctx t := by
  intro p member
  rw [same.addrs.mem_iff, same.cells.mem_iff] at member
  exact inUse p member

/-- Fresh memory is not part of the tree. -/
theorem InUse.fresh {A : Allocator σ} {T : Btree σ K V} {h : Nat} {ctx : Ctx K V h} {t : Tree K V h}
    (inUse : InUse A T ctx t) : (A.alloc T.arena).1 ∉ Tree.addrs h t ++ ctx.addrs ∧
      (A.alloc T.arena).1 ∉ Tree.cells h t ++ ctx.cells :=
  ⟨fun member => A.alloc_fresh _ (inUse _ (Or.inl member)), fun member => A.alloc_fresh _ (inUse _ (Or.inr member))⟩

/-! ## A new sibling -/

section Sibling

variable {T : Btree σ K V} {a n : Ptr} {el er : List (Entry K V)} {mid : Entry K V}

/-- The sibling goes into the parent's list of children. -/
theorem linkSibling_kid {A : Allocator σ} {T' : Btree σ K V} (aReal : a ≠ null) (nReal : n ≠ null)
    (notRoot : T'.parent a ≠ null) : ∃ T₂, T'.linkSibling A a n = some T₂ ∧
      T₂ = { T' with next := Function.update (Function.update T'.next n (T'.next a)) a n } := by
  refine ⟨_, ?_, rfl⟩
  simp only [linkSibling, load_real _ aReal, setNext, store_real _ _ nReal, store_real _ _ aReal, Option.map_some,
    Option.bind_eq_bind, Option.bind_some, notRoot, if_false]

/-- **A node below the root has been halved**, and its sibling stands beside it. -/
theorem Focus.splitKid {h : Nat} {f : Frame K V (h + 1)} {up : Ctx K V (h + 2)} {kl kr : List (Tree K V h)}
    {T₁ T₂ : Btree σ K V} (focus : Focus T (.frame f up) (.node a (el ++ mid :: er) (kl ++ kr)))
    (halved : Halved T T₁ f.addr a n el er (kl.map (Tree.ptr h)) (kr.map (Tree.ptr h))) (nReal : n ≠ null)
    (fresh : n ∉ Tree.addrs (h + 1) (.node a (el ++ mid :: er) (kl ++ kr)) ++ Ctx.addrs (.frame f up))
    (linked : T₂ = { T₁ with next := Function.update (Function.update T₁.next n (T₁.next a)) a n }) :
    Focus T₂ up (f.fill [.node a el kl, .node n er kr]) := by
  have whole := Focus.up.mp focus
  rw [(f.addrs_perm _ up).mem_iff] at fresh
  obtain ⟨besides, cellsApart⟩ := whole.besides
  have laid : Laid T up.parent f.addr (f.low ++ f.high)
      ((f.before ++ [Tree.node a (el ++ mid :: er) (kl ++ kr)] ++ f.after).map (Tree.ptr (h + 1))) := whole.below.1
  have inTree : ∀ b ∈ a :: (kl ++ kr).map (Tree.ptr h),
      b ∈ [Tree.node a (el ++ mid :: er) (kl ++ kr)].flatMap (Tree.addrs (h + 1)) := by
    intro b member
    rw [List.flatMap_singleton, Tree.addrs_node]
    refine List.mem_cons.mpr ((List.mem_cons.mp member).imp id fun inKids => ?_)
    rw [(addrs_perm _).mem_iff]
    exact List.mem_append_left _ inKids
  have notFresh : ∀ b, b = f.addr ∨ b ∈ f.before.map (Tree.ptr (h + 1)) ∨ b ∈ f.after.map (Tree.ptr (h + 1)) ∨
      b ∈ a :: (kl ++ kr).map (Tree.ptr h) → b ≠ n := by
    rintro b member rfl
    refine fresh (List.mem_append_left _ ?_)
    simp only [Frame.fill, Tree.addrs_node, List.flatMap_append, List.mem_cons, List.mem_append]
    have ptrs : ∀ {ks : List (Tree K V (h + 1))}, b ∈ ks.map (Tree.ptr (h + 1)) →
        b ∈ ks.flatMap (Tree.addrs (h + 1)) := fun member => by
      rw [(addrs_perm _).mem_iff]
      exact List.mem_append_left _ member
    rcases member with same | inBefore | inAfter | moved
    · exact Or.inl same
    · exact Or.inr (Or.inl (Or.inl (ptrs inBefore)))
    · exact Or.inr (Or.inr (ptrs inAfter))
    · exact Or.inr (Or.inl (Or.inr (inTree b moved)))
  -- the neighbours are linked as before, but for the new one
  have aside : ∀ b, b = f.addr ∨ b ∈ f.before.map (Tree.ptr (h + 1)) ∨ b ∈ f.after.map (Tree.ptr (h + 1)) →
      b ∉ n :: a :: (kl ++ kr).map (Tree.ptr h) := by
    intro b member moved
    rcases List.mem_cons.mp moved with isNew | moved
    · exact notFresh b (by tauto) isNew
    · obtain ⟨notP, notBefore, notAfter⟩ := besides b (inTree b moved)
      tauto
  have aNotKid : a ∉ (kl ++ kr).map (Tree.ptr h) := by
    intro member
    obtain ⟨k, inKids, same⟩ := List.mem_map.mp member
    exact focus.apart.2.1 k inKids _ (List.mem_cons_self ..) same
  have notA : n ≠ a := Ne.symm (notFresh a (by simp))
  have outside : Outside T T₂ [a, n] (n :: a :: (kl ++ kr).map (Tree.ptr h)) (el.map Entry.addr) := by
    have first : Outside T T₁ [a, n] (n :: a :: (kl ++ kr).map (Tree.ptr h)) (el.map Entry.addr) :=
      halved.outside.mono (fun _ => id) (fun b member => by
        rw [← List.map_append] at member
        simp only [List.mem_cons] at member ⊢
        tauto) fun _ => id
    subst linked
    refine ⟨first.child, first.head, first.nodeSize, first.parent, fun b other => ?_, first.key, first.value,
      first.pairNext⟩
    have apart := other
    simp only [List.mem_cons, not_or] at apart
    exact (Function.update_of_ne apart.2.1 ..).trans ((Function.update_of_ne apart.1 ..).trans (first.next b other))
  have nextA : T₂.next a = n := by
    subst linked
    exact Function.update_self ..
  have nextN : T₂.next n = T.next a := by
    subst linked
    refine (Function.update_of_ne notA ..).trans ((Function.update_self ..).trans (halved.outside.next a ?_))
    rw [← List.map_append]
    exact fun member => (List.mem_cons.mp member).elim (Ne.symm notA) aNotKid
  have kidsLead : Leads T₂.next (T₂.child f.addr) (f.before.map (Tree.ptr (h + 1)) ++
      a :: n :: f.after.map (Tree.ptr (h + 1))) null := by
    have old := laid.kids
    simp only [List.map_append, List.map_cons, List.append_assoc, List.cons_append, List.nil_append,
      Tree.ptr_node] at old
    obtain ⟨toA, -, fromA⟩ := leads_append.mp old
    rw [leads_append, outside.child f.addr ?_]
    · refine ⟨toA.congr fun b member => outside.next b (aside b (by tauto)), rfl, nextA, ?_⟩
      rw [nextN]
      exact fromA.congr fun b member => outside.next b (aside b (by tauto))
    · have apart := aside f.addr (Or.inl rfl)
      simp only [List.mem_cons, List.not_mem_nil, or_false, not_or] at apart ⊢
      exact ⟨apart.2.1, apart.1⟩
  have addrsPerm : ([] ++ [Tree.node a el kl, .node n er kr].flatMap (Tree.addrs (h + 1))).Perm
      ([n] ++ [Tree.node a (el ++ mid :: er) (kl ++ kr)].flatMap (Tree.addrs (h + 1))) := by
    refine List.perm_iff_count.mpr fun b => ?_
    simp only [List.flatMap_cons, List.flatMap_nil, Tree.addrs_node, List.flatMap_append, List.count_append,
      List.count_cons, List.append_nil, List.nil_append, List.cons_append]
    omega
  have cellsPerm : ([mid.addr] ++ ((f.low ++ f.high).map Entry.addr ++
      [Tree.node a el kl, .node n er kr].flatMap (Tree.cells (h + 1)))).Perm ((f.low ++ f.high).map Entry.addr ++
        [Tree.node a (el ++ mid :: er) (kl ++ kr)].flatMap (Tree.cells (h + 1))) := by
    refine List.perm_iff_count.mpr fun c => ?_
    simp only [List.flatMap_cons, List.flatMap_nil, Tree.cells_node, List.flatMap_append, List.count_append,
      List.count_cons, List.map_append, List.map_cons, List.append_nil, List.cons_append,
      List.nil_append]
    omega
  have wide : Outside T T₂ (f.addr :: ([n] ++ [Tree.node a (el ++ mid :: er) (kl ++ kr)].map (Tree.ptr (h + 1))))
      ([n] ++ [Tree.node a (el ++ mid :: er) (kl ++ kr)].map (Tree.ptr (h + 1)) ++
        (kidsOf [Tree.node a (el ++ mid :: er) (kl ++ kr)]).map (Tree.ptr h))
      ((f.low ++ f.high).map Entry.addr ++ ownCells [Tree.node a (el ++ mid :: er) (kl ++ kr)]) := by
    refine outside.mono (fun b member => ?_) (fun b member => ?_) fun c member => ?_
    · simp only [List.mem_cons, List.not_mem_nil, or_false] at member
      simp only [List.map_cons, List.map_nil, Tree.ptr_node, List.cons_append, List.nil_append, List.mem_cons]
      tauto
    · have kids : kidsOf [Tree.node a (el ++ mid :: er) (kl ++ kr)] = kl ++ kr := List.flatMap_singleton ..
      rw [kids]
      exact member
    · have own : ownCells [Tree.node a (el ++ mid :: er) (kl ++ kr)] = (el ++ mid :: er).map Entry.addr :=
        List.flatMap_singleton ..
      rw [own]
      refine List.mem_append_right _ ?_
      rw [List.map_append]
      exact List.mem_append_left _ member
  refine Focus.window whole wide ?_ (laid.rekid outside ?_ (aside _ (Or.inl rfl)) (fun e member => ?_) ?_)
    (fun m member => ?_) addrsPerm (List.nodup_singleton n) (fun b member => ?_) (fun b member => ?_) cellsPerm
  · rw [linked]
    exact halved.root
  · have apart := aside f.addr (Or.inl rfl)
    simp only [List.mem_cons, List.not_mem_nil, or_false, not_or] at apart ⊢
    exact ⟨apart.2.1, apart.1⟩
  · intro inLeft
    refine cellsApart e.addr ?_ (List.mem_map_of_mem member)
    rw [List.flatMap_singleton, Tree.cells_node, List.map_append]
    exact List.mem_append_left _ (List.mem_append_left _ inLeft)
  · simpa only [List.map_append, List.map_cons, List.map_nil, List.append_assoc, List.cons_append,
      List.nil_append, Tree.ptr_node] using kidsLead
  · have kidsSame : ∀ b ∈ (kl ++ kr).map (Tree.ptr h), T₂.next b = T₁.next b := by
      intro b member
      have notB : b ≠ n := notFresh b (Or.inr (Or.inr (Or.inr (List.mem_cons_of_mem _ member))))
      have notThis : b ≠ a := fun same => aNotKid (same ▸ member)
      rw [linked]
      exact (Function.update_of_ne notThis ..).trans (Function.update_of_ne notB ..)
    rw [List.map_append] at kidsSame
    have same : T₂.parent = T₁.parent ∧ T₂.nodeSize = T₁.nodeSize ∧ T₂.pairNext = T₁.pairNext ∧
        T₂.head = T₁.head ∧ T₂.child = T₁.child ∧ T₂.key = T₁.key ∧ T₂.value = T₁.value := by
      rw [linked]
      exact ⟨rfl, rfl, rfl, rfl, rfl, rfl, rfl⟩
    obtain ⟨parentSame, sizeSame, chainSame, headSame, childSame, keySame, valueSame⟩ := same
    have keep : ∀ {b : Ptr} {entries : List (Entry K V)} {kids : List Ptr}, Laid T₁ f.addr b entries kids →
        (∀ k ∈ kids, k ∈ kl.map (Tree.ptr h) ++ kr.map (Tree.ptr h)) → Laid T₂ f.addr b entries kids := by
      intro b entries kids laidB within
      refine ⟨parentSame ▸ laidB.parent, sizeSame ▸ laidB.nodeSize, ?_, ?_, ?_⟩
      · rw [chainSame, headSame]
        exact laidB.chain
      · rw [keySame, valueSame]
        exact laidB.stored
      · rw [childSame]
        exact laidB.kids.congr fun k inKids => kidsSame k (within k inKids)
    rcases List.mem_cons.mp member with rfl | member
    · refine ⟨keep halved.left fun k => List.mem_append_left _, fun k inKids => ?_⟩
      have inAll : k ∈ kl ++ kr := List.mem_append_left _ inKids
      refine ⟨mem_kidsOf.mpr ⟨_, List.mem_cons_self .., inAll⟩, ?_⟩
      rw [parentSame, halved.leftKids _ (List.mem_map_of_mem inKids)]
      cases h with
      | zero => exact Empty.elim k
      | succ h => exact (focus.below.2 k inAll).1.parent
    · obtain rfl := List.mem_singleton.mp member
      refine ⟨keep halved.right fun k => List.mem_append_right _, fun k inKids => ?_⟩
      refine ⟨mem_kidsOf.mpr ⟨_, List.mem_cons_self .., List.mem_append_right _ inKids⟩, ?_⟩
      rw [parentSame]
      exact halved.rightKids _ (List.mem_map_of_mem inKids)
  · rw [List.mem_singleton.mp member]
    exact nReal
  · rw [List.mem_singleton.mp member]
    exact fresh

/-- The sibling of the root gets a new parent. -/
theorem linkSibling_root {A : Allocator σ} {T' : Btree σ K V} (aReal : a ≠ null) (nReal : n ≠ null)
    (isRoot : T'.parent a = null) : ∃ T₂, T'.linkSibling A a n = some T₂ ∧ T₂ = { T' with
        root := (A.alloc T'.arena).1, arena := (A.alloc T'.arena).2,
        next := Function.update (Function.update (Function.update T'.next n (T'.next a)) a n)
          (A.alloc T'.arena).1 null,
        head := Function.update T'.head (A.alloc T'.arena).1 null,
        child := Function.update T'.child (A.alloc T'.arena).1 a,
        nodeSize := Function.update T'.nodeSize (A.alloc T'.arena).1 0,
        parent := Function.update (Function.update (Function.update T'.parent (A.alloc T'.arena).1 null)
          a (A.alloc T'.arena).1) n (A.alloc T'.arena).1 } := by
  have rReal : (A.alloc T'.arena).1 ≠ null := A.alloc_ne_null _
  refine ⟨_, ?_, rfl⟩
  simp only [linkSibling, load_real _ aReal, setNext, store_real _ _ nReal, store_real _ _ aReal, isRoot, if_true,
    setHead, setChild, setParent, setNodeSize, store_real _ _ rReal, Option.map_some, Option.bind_eq_bind,
    Option.bind_some]

/-- **The root has been halved**, and both halves are under a new one. -/
theorem Focus.splitRoot {h : Nat} {kl kr : List (Tree K V h)} {T₁ T₂ : Btree σ K V} {r : Ptr} {arena : σ}
    (focus : Focus T .top (.node a (el ++ mid :: er) (kl ++ kr)))
    (halved : Halved T T₁ null a n el er (kl.map (Tree.ptr h)) (kr.map (Tree.ptr h))) (nReal : n ≠ null)
    (rReal : r ≠ null) (fresh : n ∉ Tree.addrs (h + 1) (.node a (el ++ mid :: er) (kl ++ kr)))
    (rFresh : r ∉ n :: Tree.addrs (h + 1) (.node a (el ++ mid :: er) (kl ++ kr)))
    (linked : T₂ = { T₁ with
        root := r, arena := arena,
        next := Function.update (Function.update (Function.update T₁.next n (T₁.next a)) a n) r null,
        head := Function.update T₁.head r null, child := Function.update T₁.child r a,
        nodeSize := Function.update T₁.nodeSize r 0,
        parent := Function.update (Function.update (Function.update T₁.parent r null) a r) n r }) :
    Focus T₂ .top (.node r [] [.node a el kl, .node n er kr]) := by
  obtain ⟨rNotN, rNotA, rNotKids⟩ : r ≠ n ∧ r ≠ a ∧ r ∉ (kl ++ kr).flatMap (Tree.addrs h) := by
    simpa only [Tree.addrs_node, List.mem_cons, not_or] using rFresh
  obtain ⟨nNotA, nNotKids⟩ : n ≠ a ∧ n ∉ (kl ++ kr).flatMap (Tree.addrs h) := by
    simpa only [Tree.addrs_node, List.mem_cons, not_or] using fresh
  have nodup := (List.nodup_append.mp focus.nodup).1
  rw [Tree.addrs_node, List.nodup_cons] at nodup
  obtain ⟨aNotKids, kidsNodup⟩ := nodup
  have parts := (addrs_perm (kl ++ kr)).nodup_iff.mp kidsNodup
  rw [List.nodup_append] at parts
  have ptrIn : ∀ b ∈ (kl ++ kr).map (Tree.ptr h), b ∈ (kl ++ kr).flatMap (Tree.addrs h) := by
    intro b member
    rw [(addrs_perm _).mem_iff]
    exact List.mem_append_left _ member
  have outside : Outside T T₂ [a, n, r] (r :: n :: a :: (kl ++ kr).map (Tree.ptr h)) (el.map Entry.addr) := by
    have first := halved.outside
    rw [← List.map_append] at first
    subst linked
    refine ⟨fun b other => ?_, fun b other => ?_, fun b other => ?_, fun b other => ?_, fun b other => ?_,
      first.key, first.value, first.pairNext⟩
    all_goals
      have apart := other
      simp only [List.mem_cons, List.not_mem_nil, or_false, not_or] at apart
    · exact (Function.update_of_ne apart.2.2 ..).trans (first.child b (by simp [apart.1, apart.2.1]))
    · exact (Function.update_of_ne apart.2.2 ..).trans (first.head b (by simp [apart.1, apart.2.1]))
    · exact (Function.update_of_ne apart.2.2 ..).trans (first.nodeSize b (by simp [apart.1, apart.2.1]))
    · refine (Function.update_of_ne apart.2.1 ..).trans ((Function.update_of_ne apart.2.2.1 ..).trans
        ((Function.update_of_ne apart.1 ..).trans (first.parent b ?_)))
      rw [List.mem_cons, not_or]
      exact ⟨apart.2.1, apart.2.2.2⟩
    · refine (Function.update_of_ne apart.1 ..).trans ((Function.update_of_ne apart.2.2.1 ..).trans
        ((Function.update_of_ne apart.2.1 ..).trans (first.next b ?_)))
      rw [List.mem_cons, not_or]
      exact ⟨apart.2.1, apart.2.2.2⟩
  have notRoot : ∀ b, b ∈ (kl ++ kr).flatMap (Tree.addrs h) → b ≠ a ∧ b ≠ n ∧ b ≠ r := by
    refine fun b member => ⟨?_, ?_, ?_⟩ <;> rintro rfl
    · exact aNotKids member
    · exact nNotKids member
    · exact rNotKids member
  -- what is under the halves
  have under : ∀ k ∈ kl ++ kr, ∀ q, T₂.parent (Tree.ptr h k) = q → Tree.In T₂ h q k := by
    intro k member q parent
    have stood := focus.below.2 k member
    refine stood.outside outside parent (fun b inKid => ?_) (fun b inKid moved => ?_) fun c inKid inLeft => ?_
    · obtain ⟨notA, notN, notR⟩ := notRoot b (List.mem_flatMap.mpr ⟨k, member, inKid⟩)
      simp [notA, notN, notR]
    · obtain ⟨notA, notN, notR⟩ := notRoot b (List.mem_flatMap.mpr ⟨k, member, List.mem_cons_of_mem _ inKid⟩)
      simp only [List.mem_cons, notA, notN, notR, false_or] at moved
      exact parts.2.2 b moved b (List.mem_flatMap.mpr ⟨k, member, inKid⟩) rfl
    · refine focus.apart.2.2 k member c inKid ?_
      rw [List.map_append]
      exact List.mem_append_left _ inLeft
  have halves : ∀ {b : Ptr} {entries : List (Entry K V)} {kids : List Ptr}, b = a ∨ b = n →
      Laid T₁ null b entries kids → (∀ k ∈ kids, k ∈ kl.map (Tree.ptr h) ++ kr.map (Tree.ptr h)) →
      Laid T₂ r b entries kids := by
    intro b entries kids isHalf laid within
    have bNotR : b ≠ r := by
      rcases isHalf with rfl | rfl
      · exact Ne.symm rNotA
      · exact Ne.symm rNotN
    subst linked
    refine ⟨?_, (Function.update_of_ne bNotR ..).trans laid.nodeSize, ?_, laid.stored, ?_⟩
    · show Function.update (Function.update (Function.update T₁.parent r null) a r) n r b = r
      rcases isHalf with rfl | rfl
      · rw [Function.update_of_ne (Ne.symm nNotA), Function.update_self]
      · rw [Function.update_self]
    · show Leads T₁.pairNext (Function.update T₁.head r null b) _ _
      rw [Function.update_of_ne bNotR]
      exact laid.chain
    · show Leads _ (Function.update T₁.child r a b) _ _
      rw [Function.update_of_ne bNotR]
      refine laid.kids.congr fun k member => ?_
      have inKids := within k member
      rw [← List.map_append] at inKids
      obtain ⟨notA, notN, notR⟩ := notRoot k (ptrIn k inKids)
      exact (Function.update_of_ne notR ..).trans ((Function.update_of_ne notA ..).trans
        (Function.update_of_ne notN ..))
  have nextA : T₂.next a = n := by
    subst linked
    exact (Function.update_of_ne (Ne.symm rNotA) ..).trans (Function.update_self ..)
  have nextN : T₂.next n = null := by
    have old : T.next a = null := focus.above
    subst linked
    refine (Function.update_of_ne (Ne.symm rNotN) ..).trans ((Function.update_of_ne nNotA ..).trans
      ((Function.update_self ..).trans ((halved.outside.next a ?_).trans old)))
    rw [← List.map_append, List.mem_cons, not_or]
    exact ⟨Ne.symm nNotA, fun member => aNotKids (ptrIn a member)⟩
  have rLaid : Laid T₂ null r [] [a, n] := by
    refine ⟨?_, ?_, ?_, nofun, ?_, nextA, ?_⟩
    · rw [linked]
      exact (Function.update_of_ne rNotN ..).trans ((Function.update_of_ne rNotA ..).trans (Function.update_self ..))
    · rw [linked]
      exact Function.update_self ..
    · rw [linked]
      exact Function.update_self ..
    · rw [linked]
      exact Function.update_self ..
    · exact nextN
  have cells := (List.nodup_append.mp focus.cellsNodup).1
  have addrsPerm : (Tree.addrs (h + 2) (.node r [] [.node a el kl, .node n er kr]) ++ []).Perm
      (r :: n :: a :: (kl ++ kr).flatMap (Tree.addrs h)) := by
    refine List.perm_iff_count.mpr fun b => ?_
    simp only [Tree.addrs_node, List.flatMap_cons, List.flatMap_nil, List.flatMap_append, List.count_append,
      List.count_cons, List.append_nil, List.cons_append]
    omega
  have cellsPerm : (mid.addr :: (Tree.cells (h + 2) (.node r [] [.node a el kl, .node n er kr]) ++ [])).Perm
      (Tree.cells (h + 1) (.node a (el ++ mid :: er) (kl ++ kr))) := by
    refine List.perm_iff_count.mpr fun c => ?_
    simp only [Tree.cells_node, List.flatMap_cons, List.flatMap_nil, List.flatMap_append, List.count_append,
      List.count_cons, List.map_append, List.map_cons, List.map_nil, List.append_nil, List.nil_append]
    omega
  refine ⟨by rw [linked]; rfl, ?_, Tree.in_node.mpr ⟨rLaid, fun m member => ?_⟩, ?_, fun b member => ?_, ?_,
    fun c member => ?_⟩
  · rw [linked]
    exact Function.update_self ..
  · rcases List.mem_cons.mp member with rfl | member
    · refine Tree.in_node.mpr ⟨halves (Or.inl rfl) halved.left fun k => List.mem_append_left _, fun k inKids => ?_⟩
      have inAll : k ∈ kl ++ kr := List.mem_append_left _ inKids
      have inFlat := ptrIn _ (List.mem_map_of_mem inAll)
      obtain ⟨notA, notN, notR⟩ := notRoot _ inFlat
      refine under k inAll a ?_
      rw [linked]
      refine (Function.update_of_ne notN ..).trans ((Function.update_of_ne notA ..).trans
        ((Function.update_of_ne notR ..).trans ((halved.leftKids _ (List.mem_map_of_mem inKids)).trans ?_)))
      cases h with
      | zero => exact Empty.elim k
      | succ h => exact (focus.below.2 k inAll).1.parent
    · obtain rfl := List.mem_singleton.mp member
      refine Tree.in_node.mpr ⟨halves (Or.inr rfl) halved.right fun k => List.mem_append_right _,
        fun k inKids => ?_⟩
      have inAll : k ∈ kl ++ kr := List.mem_append_right _ inKids
      obtain ⟨notA, notN, notR⟩ := notRoot _ (ptrIn _ (List.mem_map_of_mem inAll))
      refine under k inAll n ?_
      rw [linked]
      exact (Function.update_of_ne notN ..).trans ((Function.update_of_ne notA ..).trans
        ((Function.update_of_ne notR ..).trans (halved.rightKids _ (List.mem_map_of_mem inKids))))
  · refine addrsPerm.nodup_iff.mpr (List.nodup_cons.mpr ⟨rFresh, List.nodup_cons.mpr ⟨fresh, ?_⟩⟩)
    exact List.nodup_cons.mpr ⟨aNotKids, kidsNodup⟩
  · rcases List.mem_cons.mp (addrsPerm.mem_iff.mp member) with rfl | member
    · exact rReal
    · rcases List.mem_cons.mp member with rfl | old
      · exact nReal
      · exact focus.real b (List.mem_append_left _ old)
  · exact (List.nodup_cons.mp (cellsPerm.nodup_iff.mpr cells)).2
  · exact focus.cellsReal c (List.mem_append_left _ (cellsPerm.mem_iff.mp (List.mem_cons_of_mem _ member)))

end Sibling

/-! ## The split -/

section Parents

variable {T : Btree σ K V} {order : Nat}

/-- No node of a tree with proper sizes is too full. -/
theorem nodeSize_le : ∀ {h least most : Nat} {p : Ptr} {t : Tree K V h}, Tree.In T h p t →
    Tree.Sized order h least most t → most ≤ 2 * order → ∀ b ∈ Tree.addrs h t, T.nodeSize b ≤ 2 * order
  | 0, _, _, _, t, _, _, _ => Empty.elim t
  | h + 1, _, _, _, t, ⟨laid, inKids⟩, ⟨⟨_, atMost⟩, _, kids⟩, most => by
      intro b member
      rcases List.mem_cons.mp member with rfl | under
      · show T.nodeSize t.addr ≤ _
        rw [laid.nodeSize]
        exact Nat.le_trans atMost most
      · obtain ⟨k, inTree, inKid⟩ := List.mem_flatMap.mp under
        exact nodeSize_le (inKids k inTree) (kids k inTree) (Nat.le_refl _) b inKid

/-- The parents of the nodes under the root are nodes of the tree. -/
theorem parent_mem : ∀ {h : Nat} {p : Ptr} {t : Tree K V h}, Tree.In T h p t →
    ∀ b ∈ Tree.under h t, T.parent b ∈ Tree.addrs h t
  | 0, _, t, _ => Empty.elim t
  | h + 1, _, t, ⟨_, inKids⟩ => by
      intro b member
      obtain ⟨k, inTree, inKid⟩ := List.mem_flatMap.mp member
      rcases List.mem_cons.mp inKid with rfl | under
      · have parent : T.parent (Tree.ptr h k) = t.addr := by
          cases h with
          | zero => exact Empty.elim k
          | succ h => exact (inKids k inTree).1.parent
        rw [parent]
        exact List.mem_cons_self ..
      · exact List.mem_cons_of_mem _ (List.mem_flatMap.mpr ⟨k, inTree, parent_mem (inKids k inTree) b under⟩)

/-- The parent of a node that is not the root is not too full. -/
theorem Stands.parent_le {C : KeyCmp K} {h : Nat} {whole : Tree K V h} (stands : Stands C T .top whole) {b : Ptr}
    (member : b ∈ Tree.addrs h whole) (notRoot : T.parent b ≠ null) :
    T.parent b ≠ null ∧ T.nodeSize (T.parent b) ≤ 2 * T.order := by
  refine ⟨notRoot, nodeSize_le stands.focus.below stands.sized (Nat.le_refl _) _ ?_⟩
  rcases List.mem_cons.mp member with rfl | under
  · refine absurd ?_ notRoot
    cases h with
    | zero => exact Empty.elim whole
    | succ h => exact stands.focus.below.1.parent
  · exact parent_mem stands.focus.below b under

end Parents

section Split

variable {C : KeyCmp K} {A : Allocator σ} {T : Btree σ K V}

theorem split_fits {fuel : Nat} {a : Ptr} (aReal : a ≠ null) (fits : T.nodeSize a ≠ T.order * 2 + 1) :
    T.split C A (fuel + 1) a = some T := by
  simp only [split, load_real _ aReal, Option.bind_eq_bind, Option.bind_some, ne_eq, fits, not_false_eq_true, if_true]

theorem split_full {T₁ T₂ T₃ T₄ T₅ : Btree σ K V} {fuel : Nat} {a n m p : Ptr} (aReal : a ≠ null)
    (full : T.nodeSize a = T.order * 2 + 1) (halved : T.halve A a = some (T₁, n, m))
    (linked : T₁.linkSibling A a n = some T₂) (parent : T₂.parent a = p)
    (inserted : T₂.nodeInsert C p m = some T₃) (first : T₃.split C A fuel p = some T₄)
    (second : T₄.split C A fuel (T₄.parent a) = some T₅) : T.split C A (fuel + 1) a = some T₅ := by
  simp only [split, load_real _ aReal, Option.bind_eq_bind, Option.bind_some, full, ne_eq, not_true_eq_false, if_false,
    halved, linked, parent, inserted, first, second]

/-- What a split leaves: the same contents in a tree with proper sizes, in which every node
that had a parent has one. -/
def Mended (C : KeyCmp K) (A : Allocator σ) (T T' : Btree σ K V) (all : List (K × V)) (old : List Ptr) : Prop :=
  ∃ h, ∃ whole : Tree K V h, Stands C T' .top whole ∧ Tree.pairs h whole = all ∧ InUse A T' .top whole ∧
    T'.size = T.size ∧ T'.order = T.order ∧
    ∀ b ∈ old, b ∈ Tree.addrs h whole ∧ (T.parent b ≠ null → T'.parent b ≠ null)

theorem Stands.mended {h : Nat} {ctx : Ctx K V h} {t : Tree K V h} {T' : Btree σ K V} {old : List Ptr}
    (stands : Stands C T' ctx t) (inUse : InUse A T' ctx t) (size : T'.size = T.size) (order : T'.order = T.order)
    (kept : ∀ b ∈ old, b ∈ Tree.addrs h t ++ ctx.addrs ∧ (T.parent b ≠ null → T'.parent b ≠ null)) :
    Mended C A T T' (contents ctx t) old := by
  obtain ⟨h', whole, atTop, same⟩ := stands.whole
  have pairs : Tree.pairs h' whole = contents ctx t := by rw [← contents_top whole, same.contents]
  refine ⟨h', whole, atTop, pairs, inUse.refocus same, size, order, fun b member => ⟨?_, (kept b member).2⟩⟩
  have inTop := same.addrs.mem_iff.mpr (kept b member).1
  rwa [Ctx.addrs, List.append_nil] at inTop

/-- The contents of a node, and of its two halves with the pair between them. -/
theorem pairs_halves {h order : Nat} {a n : Ptr} {el er : List (Entry K V)} {mid : Entry K V}
    {kl kr : List (Tree K V h)} (left : el.length = order)
    (right : er.length = order) (count : kl = [] ∧ kr = [] ∨ kl.length = order + 1 ∧ kr.length = order + 1) :
    Tree.pairs (h + 1) (.node a (el ++ mid :: er) (kl ++ kr)) =
      Tree.pairs (h + 1) (.node a el kl) ++ mid.pair :: Tree.pairs (h + 1) (.node n er kr) := by
  refine pairs_join ?_
  rcases count with ⟨rfl, rfl⟩ | ⟨countL, countR⟩
  · exact Or.inr ⟨rfl, rfl⟩
  · exact Or.inl ⟨by omega, by omega⟩

/-- A full node taken apart. -/
theorem exists_halves {order h : Nat} {entries : List (Entry K V)} {kids : List (Tree K V h)}
    (full : entries.length = 2 * order + 1) (count : h ≠ 0 → kids.length = entries.length + 1) :
    ∃ el mid er kl kr, entries = el ++ mid :: er ∧ kids = kl ++ kr ∧ el.length = order ∧ er.length = order ∧
      (kl = [] ∧ kr = [] ∨ kl.length = order + 1 ∧ kr.length = order + 1) := by
  obtain ⟨el, mid, er, rfl, left, right⟩ := exists_kid (show entries.length = order + order + 1 by omega)
  cases h with
  | zero =>
      obtain rfl := no_kids kids
      exact ⟨el, mid, er, [], [], rfl, rfl, left, right, Or.inl ⟨rfl, rfl⟩⟩
  | succ h =>
      have count := count (Nat.succ_ne_zero h)
      refine ⟨el, mid, er, kids.take (order + 1), kids.drop (order + 1), rfl, (List.take_append_drop ..).symm, left,
        right, Or.inr ⟨?_, ?_⟩⟩
      · rw [List.length_take]
        omega
      · rw [List.length_drop]
        omega

theorem half_sized {order h : Nat} {a : Ptr} {entries : List (Entry K V)} {kids : List (Tree K V h)}
    (size : entries.length = order) (count : h ≠ 0 → kids.length = order + 1)
    (kidsSized : ∀ k ∈ kids, Tree.Sized order h order (2 * order) k) :
    Tree.Sized order (h + 1) order (2 * order) (.node a entries kids) := by
  refine Tree.sized_node.mpr ⟨by omega, fun positive => ?_, kidsSized⟩
  rw [size]
  exact count positive

/-- The contents of a node with two new children for one. -/
theorem contents_halves {h : Nat} {f : Frame K V h} {up : Ctx K V (h + 1)} {t l r : Tree K V h} {mid : Entry K V}
    (before : f.before.length = f.low.length)
    (halves : Tree.pairs h t = Tree.pairs h l ++ mid.pair :: Tree.pairs h r) :
    contents up (.node f.addr (f.low ++ mid :: f.high) (f.before ++ [l, r] ++ f.after)) =
      contents (.frame f up) t := by
  rw [contents_up up t before, contents, contents, pairs_neighbours l r before, Frame.fill, pairs_single t before,
    halves]

/-- A node at the focus that may be too full by one. -/
structure Rising (C : KeyCmp K) (A : Allocator σ) (T : Btree σ K V) {h : Nat} (ctx : Ctx K V h) (t : Tree K V h) :
    Prop where
  focus : Focus T ctx t
  order : 2 < T.order
  ctxSized : ctx.Sized T.order
  sized : Tree.Sized T.order h (ctx.least T.order) (2 * T.order + 1) t
  ascending : (contents ctx t).Pairwise fun a b => C.order a.1 b.1 = .lt
  room : (contents ctx t).length ≤ T.size + 1
  inUse : InUse A T ctx t

/-- What `btree_node_split` has made of a full node: two halves, and the pair between them. -/
structure Parted (A : Allocator σ) (T T₁ : Btree σ K V) {h : Nat} (ctx : Ctx K V (h + 1)) (a n : Ptr)
    (el : List (Entry K V)) (mid : Entry K V) (er : List (Entry K V)) (kl kr : List (Tree K V h)) : Prop where
  run : T.halve A a = some (T₁, n, mid.addr)
  halved : Halved T T₁ ctx.parent a n el er (kl.map (Tree.ptr h)) (kr.map (Tree.ptr h))
  real : n ≠ null
  fresh : n ∉ Tree.addrs (h + 1) (.node a (el ++ mid :: er) (kl ++ kr)) ++ ctx.addrs
  newInUse : A.InUse T₁.arena n
  keeps : ∀ p, A.InUse T.arena p → A.InUse T₁.arena p
  pairs : Tree.pairs (h + 1) (.node a (el ++ mid :: er) (kl ++ kr)) =
    Tree.pairs (h + 1) (.node a el kl) ++ mid.pair :: Tree.pairs (h + 1) (.node n er kr)
  left : Tree.Sized T.order (h + 1) T.order (2 * T.order) (.node a el kl)
  right : Tree.Sized T.order (h + 1) T.order (2 * T.order) (.node n er kr)

theorem Rising.halve {h : Nat} {ctx : Ctx K V (h + 1)} {a : Ptr} {entries : List (Entry K V)}
    {kids : List (Tree K V h)} (rising : Rising C A T ctx (.node a entries kids))
    (full : entries.length = 2 * T.order + 1) : ∃ T₁ n el mid er, ∃ kl kr : List (Tree K V h),
      entries = el ++ mid :: er ∧ kids = kl ++ kr ∧ Parted A T T₁ ctx a n el mid er kl kr := by
  obtain ⟨focus, order, -, ⟨-, count, kidsSized⟩, -, room, inUse⟩ := rising
  change h ≠ 0 → kids.length = entries.length + 1 at count
  change ∀ k ∈ kids, Tree.Sized T.order h T.order (2 * T.order) k at kidsSized
  obtain ⟨el, mid, er, kl, kr, rfl, rfl, left, right, counts⟩ := exists_halves full count
  have bound : 2 * T.order + 1 ≤ T.size + 1 := by
    have here : Tree.Sized T.order (h + 1) 0 (2 * T.order + 1) (.node a (el ++ mid :: er) (kl ++ kr)) :=
      ⟨⟨Nat.zero_le _, Nat.le_of_eq full⟩, count, kidsSized⟩
    have pairs := Tree.length_pairs here
    simp only [contents, List.length_append] at room
    omega
  have counts' : kl = [] ∧ kr = [] ∨ kl.length = T.order + 1 := counts.imp id And.left
  have kidCounts : h ≠ 0 → kl.length = T.order + 1 ∧ kr.length = T.order + 1 := by
    intro positive
    rcases counts with ⟨rfl, rfl⟩ | both
    · cases count positive
    · exact both
  have enough : kr.length < T.fuel := by
    show kr.length < T.size + 2
    rcases counts with ⟨-, rfl⟩ | ⟨-, countR⟩
    · exact Nat.succ_pos _
    · omega
  obtain ⟨fresh, -⟩ := inUse.fresh
  obtain ⟨T₁, run, arena, halved⟩ := halve_spec focus (Nat.lt_trans Nat.zero_lt_two order) left right counts' enough
    fun member => fresh (List.mem_append_left _ member)
  exact ⟨T₁, _, el, mid, er, kl, kr, rfl, rfl, run, halved, A.alloc_ne_null _, fresh, arena ▸ A.alloc_inUse _,
    fun p used => arena ▸ A.alloc_keeps _ p used, pairs_halves left right counts,
    half_sized left (fun positive => (kidCounts positive).1) fun k member => kidsSized k (List.mem_append_left _ member),
    half_sized right (fun positive => (kidCounts positive).2) fun k member =>
      kidsSized k (List.mem_append_right _ member)⟩

section Kid

variable {h : Nat} {f : Frame K V (h + 1)} {up : Ctx K V (h + 2)} {el er : List (Entry K V)} {mid : Entry K V}
  {kl kr : List (Tree K V h)}

/-- The parent with the two halves for the node. -/
def Frame.halves (f : Frame K V (h + 1)) (l r : Tree K V (h + 1)) (entries : List (Entry K V)) : Tree K V (h + 2) :=
  .node f.addr entries (f.before ++ [l, r] ++ f.after)

theorem halves_addrs (a n : Ptr) (entries : List (Entry K V)) :
    (n :: (Tree.addrs (h + 1) (.node a (el ++ mid :: er) (kl ++ kr)) ++ Ctx.addrs (.frame f up))).Perm
      (Tree.addrs (h + 2) (f.halves (.node a el kl) (.node n er kr) entries) ++ up.addrs) := by
  refine List.perm_iff_count.mpr fun b => ?_
  simp only [Ctx.addrs, Frame.halves, Tree.addrs_node, List.flatMap_cons, List.flatMap_nil, List.flatMap_append,
    List.count_append, List.count_cons, List.append_nil]
  omega

theorem halves_cells (a n : Ptr) : (mid.addr :: (Tree.cells (h + 2) (f.halves (.node a el kl) (.node n er kr) (f.low ++ f.high)) ++
    up.cells)).Perm (Tree.cells (h + 1) (.node a (el ++ mid :: er) (kl ++ kr)) ++ Ctx.cells (.frame f up)) := by
  refine List.perm_iff_count.mpr fun c => ?_
  simp only [Ctx.cells, Frame.halves, Tree.cells_node, List.flatMap_cons, List.flatMap_nil, List.flatMap_append,
    List.count_append, List.count_cons, List.map_append, List.map_cons, List.append_nil]
  omega

/-- The pair between the halves has its place in the parent. -/
theorem mid_placed {t l r : Tree K V (h + 1)} (ctxSized : Ctx.Sized T.order (.frame f up))
    (ascending : (contents (.frame f up) t).Pairwise fun a b => C.order a.1 b.1 = .lt)
    (pairs : Tree.pairs (h + 1) t = Tree.pairs (h + 1) l ++ mid.pair :: Tree.pairs (h + 1) r) :
    (∀ e ∈ f.low, C.keyLess e.pair.1 mid.pair.1 = true) ∧
      ∀ e ∈ f.high.head?, C.order mid.pair.1 e.pair.1 = .lt := by
  obtain ⟨⟨before, after⟩, -⟩ := ctxSized
  rw [contents, List.pairwise_append] at ascending
  have midIn : mid.pair ∈ Tree.pairs (h + 1) t := by
    rw [pairs]
    exact List.mem_append_right _ (List.mem_cons_self ..)
  constructor
  · intro e member
    refine C.order_lt.mp (ascending.2.2 e.pair ?_ mid.pair (List.mem_append_left _ midIn))
    refine List.mem_append_right _ (mem_weaveLeft_of_key ?_ (List.mem_map_of_mem member))
    simpa using before
  · intro e isHead
    refine (List.pairwise_append.mp ascending.2.1).2.2 mid.pair midIn e.pair ?_
    refine List.mem_append_left _ (mem_weaveRight_of_key ?_ (List.mem_map_of_mem (List.mem_of_mem_head? isHead)))
    simpa using after.symm

theorem low_room {t : Tree K V (h + 1)} (ctxSized : Ctx.Sized T.order (.frame f up))
    (room : (contents (.frame f up) t).length ≤ T.size + 1) : f.low.length < T.fuel := by
  obtain ⟨⟨before, -⟩, -⟩ := ctxSized
  have length := length_weaveLeft (show (f.before.map (Tree.pairs (h + 1))).length =
    (f.low.map Entry.pair).length by simpa using before)
  show f.low.length < T.size + 2
  simp only [contents, Ctx.low, List.length_append, length, List.length_map] at room
  omega

theorem halves_sized {order : Nat} {l r : Tree K V (h + 1)} (ctxSized : Ctx.Sized order (.frame f up))
    (left : Tree.Sized order (h + 1) order (2 * order) l) (right : Tree.Sized order (h + 1) order (2 * order) r) :
    Tree.Sized order (h + 2) (up.least order) (2 * order + 1) (f.halves l r (f.low ++ mid :: f.high)) := by
  obtain ⟨⟨before, after⟩, ⟨least, most⟩, aside, -⟩ := ctxSized
  refine Tree.sized_node.mpr ⟨?_, fun _ => ?_, fun k member => ?_⟩
  · simp only [List.length_append, List.length_cons]
    omega
  · simp only [List.length_append, List.length_cons, List.length_nil]
    omega
  · simp only [List.append_assoc, List.mem_append, List.mem_cons, List.not_mem_nil, or_false] at member
    rcases member with inBefore | (rfl | rfl) | inAfter
    · exact aside k (List.mem_append_left _ inBefore)
    · exact left
    · exact right
    · exact aside k (List.mem_append_right _ inAfter)

/-- **A full node below the root**: its sibling and the pair between them are in the parent. -/
theorem Rising.kid {T₁ : Btree σ K V} {a n : Ptr}
    (rising : Rising C A T (.frame f up) (.node a (el ++ mid :: er) (kl ++ kr)))
    (parted : Parted A T T₁ (.frame f up) a n el mid er kl kr) : ∃ T₂ T₃, T₁.linkSibling A a n = some T₂ ∧
      T₂.parent a = f.addr ∧ T₂.nodeInsert C f.addr mid.addr = some T₃ ∧ T₃.size = T.size ∧ T₃.order = T.order ∧
      T₃.parent = T₁.parent ∧
      Rising C A T₃ up (f.halves (.node a el kl) (.node n er kr) (f.low ++ mid :: f.high)) := by
  obtain ⟨focus, order, ctxSized, sized, ascending, room, inUse⟩ := rising
  obtain ⟨-, halved, nReal, nFresh, nInUse, keeps, pairs, left, right⟩ := parted
  have aReal : a ≠ null := focus.reads.1
  have fReal : f.addr ≠ null := focus.real f.addr (by simp [Ctx.addrs])
  have midStored := focus.reads.2.1.stored mid (by simp)
  have midReal : mid.addr ≠ null := focus.reads.2.2.1 mid (by simp)
  have parent₁ : T₁.parent a = f.addr := halved.left.parent
  obtain ⟨T₂, linked, made⟩ := linkSibling_kid (A := A) aReal nReal (parent₁ ▸ fReal)
  have window : Focus T₂ up (f.halves (.node a el kl) (.node n er kr) (f.low ++ f.high)) :=
    focus.splitKid halved nReal nFresh made
  have order₂ : T₂.order = T.order := by rw [made]; exact halved.order
  have size₂ : T₂.size = T.size := by rw [made]; exact halved.size
  have arena₂ : T₂.arena = T₁.arena := by rw [made]
  have parent₂ : T₂.parent = T₁.parent := by rw [made]
  have stored₂ : T₂.key mid.addr = mid.pair.1 ∧ T₂.value mid.addr = mid.pair.2 := by
    rw [made]
    exact ⟨halved.key ▸ midStored.1, halved.value ▸ midStored.2⟩
  have midFresh := (List.nodup_cons.mp ((halves_cells a n).nodup_iff.mpr focus.cellsNodup)).1
  obtain ⟨below, above⟩ := mid_placed ctxSized ascending pairs
  have lowRoom : f.low.length < T₂.fuel := by
    rw [Btree.fuel, size₂]
    exact low_room ctxSized room
  obtain ⟨head, pairNext, nodeSize, inserted, placed⟩ :=
    nodeInsert_spec window midReal midFresh stored₂ below above lowRoom
  generalize made₃ : ({ T₂ with head := head, pairNext := pairNext, nodeSize := nodeSize } :
    Btree σ K V) = T₃ at inserted placed
  have order₃ : T₃.order = T.order := by rw [← made₃]; exact order₂
  have size₃ : T₃.size = T.size := by rw [← made₃]; exact size₂
  have arena₃ : T₃.arena = T₁.arena := by rw [← made₃]; exact arena₂
  have parent₃ : T₃.parent = T₁.parent := by rw [← made₃]; exact parent₂
  have same : contents up (f.halves (.node a el kl) (.node n er kr) (f.low ++ mid :: f.high)) =
      contents (.frame f up) _ := contents_halves ctxSized.1.1 pairs
  refine ⟨T₂, T₃, linked, parent₂ ▸ parent₁, inserted, size₃, order₃, parent₃, placed, order₃ ▸ order,
    order₃ ▸ ctxSized.2.2.2, order₃ ▸ halves_sized ctxSized left right, same ▸ ascending, same ▸ size₃ ▸ room,
    fun p member => ?_⟩
  rw [arena₃]
  rcases member with inAddrs | inCells
  · rcases List.mem_cons.mp ((halves_addrs a n _).mem_iff.mpr inAddrs) with rfl | old
    · exact nInUse
    · exact keeps p (inUse p (Or.inl old))
  · refine keeps p (inUse p (Or.inr ((halves_cells a n).mem_iff.mp ?_)))
    simp only [Frame.halves, Tree.cells_node, List.map_append, List.map_cons, List.mem_append,
      List.mem_cons] at inCells ⊢
    tauto

end Kid

/-- **A full root**: both halves are under a new one. -/
theorem Rising.root {h : Nat} {a n : Ptr} {el er : List (Entry K V)} {mid : Entry K V} {kl kr : List (Tree K V h)}
    {T₁ : Btree σ K V} (rising : Rising C A T .top (.node a (el ++ mid :: er) (kl ++ kr)))
    (parted : Parted A T T₁ .top a n el mid er kl kr) : ∃ T₂ T₃ r, T₁.linkSibling A a n = some T₂ ∧
      T₂.parent a = r ∧ T₂.nodeInsert C r mid.addr = some T₃ ∧ T₃.size = T.size ∧ T₃.order = T.order ∧
      T₃.parent a = r ∧ (∀ b ∈ Tree.addrs (h + 1) (.node a (el ++ mid :: er) (kl ++ kr)), T₁.parent b ≠ null →
        T₃.parent b ≠ null) ∧
      Stands C T₃ .top (.node r [mid] [.node a el kl, .node n er kr]) ∧
      InUse A T₃ .top (.node r [mid] [.node a el kl, .node n er kr]) ∧
      Tree.pairs (h + 2) (.node r [mid] [.node a el kl, .node n er kr]) =
        Tree.pairs (h + 1) (.node a (el ++ mid :: er) (kl ++ kr)) := by
  obtain ⟨focus, order, -, -, ascending, room, inUse⟩ := rising
  obtain ⟨-, halved, nReal, nFresh, nInUse, keeps, pairs, left, right⟩ := parted
  have aReal : a ≠ null := focus.reads.1
  have midStored := focus.reads.2.1.stored mid (by simp)
  have midReal : mid.addr ≠ null := focus.reads.2.2.1 mid (by simp)
  have parent₁ : T₁.parent a = null := halved.left.parent
  obtain ⟨T₂, linked, made⟩ := linkSibling_root (A := A) aReal nReal parent₁
  have rReal : (A.alloc T₁.arena).1 ≠ null := A.alloc_ne_null _
  have rInUse : A.InUse T₂.arena (A.alloc T₁.arena).1 := by
    rw [made]
    exact A.alloc_inUse _
  have keeps₂ : ∀ p, A.InUse T₁.arena p → A.InUse T₂.arena p := by
    rw [made]
    exact A.alloc_keeps _
  have rFresh : (A.alloc T₁.arena).1 ∉ n :: Tree.addrs (h + 1) (.node a (el ++ mid :: er) (kl ++ kr)) := by
    intro member
    refine A.alloc_fresh T₁.arena ?_
    rcases List.mem_cons.mp member with same | old
    · exact same ▸ nInUse
    · exact keeps _ (inUse _ (Or.inl (List.mem_append_left _ old)))
  generalize (A.alloc T₁.arena).1 = r at *
  have nFresh' : n ∉ Tree.addrs (h + 1) (.node a (el ++ mid :: er) (kl ++ kr)) := fun member =>
    nFresh (List.mem_append_left _ member)
  have window := focus.splitRoot halved nReal rReal nFresh' rFresh made
  have parent₂ : T₂.parent a = r := (window.below.2 _ (List.mem_cons_self ..)).1.parent
  have order₂ : T₂.order = T.order := by rw [made]; exact halved.order
  have size₂ : T₂.size = T.size := by rw [made]; exact halved.size
  have parents : ∀ b, T₁.parent b ≠ null → b ≠ r → T₂.parent b ≠ null := by
    intro b hasParent notRoot
    rw [made]
    show Function.update (Function.update (Function.update T₁.parent r null) a r) n r b ≠ null
    by_cases isN : b = n
    · rw [isN, Function.update_self]
      exact rReal
    · rw [Function.update_of_ne isN]
      by_cases isA : b = a
      · rw [isA, Function.update_self]
        exact rReal
      · rw [Function.update_of_ne isA, Function.update_of_ne notRoot]
        exact hasParent
  have stored₂ : T₂.key mid.addr = mid.pair.1 ∧ T₂.value mid.addr = mid.pair.2 := by
    rw [made]
    exact ⟨halved.key ▸ midStored.1, halved.value ▸ midStored.2⟩
  have cellsPerm : (mid.addr :: (Tree.cells (h + 2) (.node r [] [.node a el kl, .node n er kr]) ++ [])).Perm
      (Tree.cells (h + 1) (.node a (el ++ mid :: er) (kl ++ kr)) ++ []) := by
    refine List.perm_iff_count.mpr fun c => ?_
    simp only [Tree.cells_node, List.flatMap_cons, List.flatMap_nil, List.flatMap_append, List.count_append,
      List.count_cons, List.map_append, List.map_cons, List.map_nil, List.append_nil, List.nil_append]
    omega
  have midFresh := (List.nodup_cons.mp (cellsPerm.nodup_iff.mpr focus.cellsNodup)).1
  have positive : ([] : List (Entry K V)).length < T₂.fuel := Nat.succ_pos _
  have below : ∀ e ∈ ([] : List (Entry K V)), C.keyLess e.pair.1 mid.pair.1 = true := nofun
  have above : ∀ e ∈ ([] : List (Entry K V)).head?, C.order mid.pair.1 e.pair.1 = .lt := nofun
  obtain ⟨head, pairNext, nodeSize, inserted, placed⟩ :=
    nodeInsert_spec window midReal midFresh stored₂ below above positive
  have same : Tree.pairs (h + 2) (.node r [mid] [.node a el kl, .node n er kr]) =
      Tree.pairs (h + 1) (.node a (el ++ mid :: er) (kl ++ kr)) := by
    rw [pairs, Tree.pairs_node]
    simp only [List.map_cons, List.map_nil, weave, weaveRight_cons, weaveRight_nil, List.append_nil]
  refine ⟨T₂, _, r, linked, parent₂, inserted, size₂, order₂, parent₂, fun b member hasParent => ?_,
    ⟨placed, ?_, trivial, ?_, ?_, ?_⟩, ?_, same⟩
  · refine parents b hasParent ?_
    rintro rfl
    exact rFresh (List.mem_cons_of_mem _ member)
  · show 2 < T₂.order
    rw [order₂]
    exact order
  · show Tree.Sized T₂.order (h + 2) 1 (2 * T₂.order) _
    rw [order₂]
    refine Tree.sized_node.mpr ⟨⟨Nat.le_refl 1, ?_⟩, fun _ => rfl, fun k member => ?_⟩
    · show 1 ≤ 2 * T.order
      omega
    · rcases List.mem_cons.mp member with rfl | member
      · exact left
      · rw [List.mem_singleton.mp member]
        exact right
  · rw [contents_top, same, ← contents_top]
    exact ascending
  · show _ ≤ T₂.size + 1
    rw [contents_top, same, size₂, ← contents_top]
    exact room
  · intro p member
    show A.InUse T₂.arena p
    have old : ∀ p, p ∈ Tree.addrs (h + 1) (.node a (el ++ mid :: er) (kl ++ kr)) ∨
        p ∈ Tree.cells (h + 1) (.node a (el ++ mid :: er) (kl ++ kr)) → A.InUse T₂.arena p := fun p member =>
      keeps₂ p (keeps p (inUse p (by simpa only [Ctx.addrs, Ctx.cells, List.append_nil] using member)))
    simp only [Ctx.addrs, Ctx.cells, List.append_nil, Tree.addrs_node, Tree.cells_node, List.flatMap_cons,
      List.flatMap_nil, List.map_cons, List.map_nil, List.mem_append, List.mem_cons, List.not_mem_nil, or_false,
      List.map_append, List.flatMap_append] at member old
    rcases member with (isRoot | (isLeft | inLeft) | isRight | inRight) | inCells
    · exact isRoot ▸ rInUse
    · exact old p (Or.inl (Or.inl isLeft))
    · exact old p (Or.inl (Or.inr (Or.inl inLeft)))
    · exact isRight ▸ keeps₂ n nInUse
    · exact old p (Or.inl (Or.inr (Or.inr inRight)))
    · refine old p (Or.inr ?_)
      tauto

/-- A node that is not too full. -/
theorem Rising.fits {h : Nat} {ctx : Ctx K V (h + 1)} {a : Ptr} {entries : List (Entry K V)}
    {kids : List (Tree K V h)} (rising : Rising C A T ctx (.node a entries kids))
    (fits : entries.length ≤ 2 * T.order) : Stands C T ctx (.node a entries kids) :=
  ⟨rising.focus, rising.order, rising.ctxSized, ⟨⟨rising.sized.1.1, fits⟩, rising.sized.2⟩, rising.ascending,
    rising.room⟩

/-- **`btree_node_split`**, up to the root. -/
theorem split_spec : ∀ {h fuel : Nat} {ctx : Ctx K V h} {t : Tree K V h} {T : Btree σ K V}, Rising C A T ctx t →
    ctx.length + 2 ≤ fuel → ∃ T', T.split C A fuel (Tree.ptr h t) = some T' ∧
      Mended C A T T' (contents ctx t) (Tree.addrs h t ++ ctx.addrs)
  | 0, _, _, t, _, _, _ => Empty.elim t
  | _ + 1, 0, _, _, _, _, spent => absurd spent (by omega)
  | h + 1, fuel + 1, ctx, t, T, rising, spent => by
      obtain ⟨a, entries, kids, rfl⟩ := Tree.exists_node t
      obtain ⟨aReal, laid, -, -⟩ := rising.focus.reads
      have most : entries.length ≤ 2 * T.order + 1 := rising.sized.1.2
      rw [Tree.ptr_node]
      by_cases full : entries.length = 2 * T.order + 1
      · have isFull : T.nodeSize a = T.order * 2 + 1 := by
          rw [laid.nodeSize]
          omega
        obtain ⟨T₁, n, el, mid, er, kl, kr, rfl, rfl, parted⟩ := rising.halve full
        have parents : ∀ b ∈ Tree.addrs (h + 1) (.node a (el ++ mid :: er) (kl ++ kr)) ++ ctx.addrs,
            T.parent b ≠ null → T₁.parent b ≠ null := by
          intro b member hasParent
          by_cases inRight : b ∈ kr.map (Tree.ptr h)
          · rw [parted.halved.rightKids b inRight]
            exact parted.real
          · by_cases inLeft : b ∈ kl.map (Tree.ptr h)
            · rw [parted.halved.leftKids b inLeft]
              exact hasParent
            · rw [parted.halved.outside.parent b ?_]
              · exact hasParent
              · rw [List.mem_cons, List.mem_append]
                rintro (rfl | moved)
                · exact parted.fresh member
                · tauto
        cases ctx with
        | top =>
            obtain ⟨T₂, T₃, r, linked, parent, inserted, size, order, parent₃, kept, stands, inUse, pairs⟩ :=
              rising.root parted
            obtain ⟨rReal, rLaid, -, -⟩ := stands.focus.reads
            have rFits : T₃.nodeSize r ≠ T₃.order * 2 + 1 := by
              have positive := stands.order
              rw [rLaid.nodeSize]
              simp only [List.length_cons, List.length_nil]
              omega
            have again : T₃.split C A fuel r = some T₃ := by
              obtain ⟨fuel, rfl⟩ : ∃ fuel', fuel = fuel' + 1 := ⟨fuel - 1, by omega⟩
              exact split_fits rReal rFits
            refine ⟨T₃, split_full aReal isFull parted.run linked parent inserted again (parent₃.symm ▸ again), h + 2,
              _, stands, pairs.trans (contents_top _).symm, inUse, size, order, fun b member => ⟨?_, fun hasParent => ?_⟩⟩
            · simp only [Ctx.addrs, Tree.addrs_node, List.append_nil, List.mem_cons, List.flatMap_append,
                List.mem_append, List.flatMap_cons, List.flatMap_nil] at member ⊢
              tauto
            · have inTree := member
              rw [Ctx.addrs, List.append_nil] at inTree
              exact kept b inTree (parents b member hasParent)
        | frame f up =>
            obtain ⟨T₂, T₃, linked, parent, inserted, size, order, parent₃, higher⟩ := rising.kid parted
            have fuelUp : up.length + 2 ≤ fuel := Nat.le_of_succ_le_succ spent
            obtain ⟨T₄, first, h', whole, stands, pairs, inUse, size₄, order₄, kept⟩ := split_spec higher fuelUp
            have kept₃ : ∀ b ∈ Tree.addrs (h + 1) (.node a (el ++ mid :: er) (kl ++ kr)) ++ Ctx.addrs (.frame f up),
                b ∈ Tree.addrs h' whole ∧ (T.parent b ≠ null → T₄.parent b ≠ null) := by
              intro b member
              obtain ⟨inWhole, higher⟩ :=
                kept b ((halves_addrs a n _).mem_iff.mp (List.mem_cons_of_mem _ member))
              exact ⟨inWhole, fun hasParent => higher (parent₃ ▸ parents b member hasParent)⟩
            -- the parent has been split already if it had to be
            have again : T₄.split C A fuel (T₄.parent a) = some T₄ := by
              have inTree : a ∈ Tree.addrs (h + 1) (.node a (el ++ mid :: er) (kl ++ kr)) ++
                Ctx.addrs (.frame f up) := List.mem_cons_self ..
              have hasParent : T.parent a ≠ null := by
                rw [laid.parent]
                exact rising.focus.real f.addr (by simp [Ctx.addrs])
              obtain ⟨inWhole, keeps⟩ := kept₃ a inTree
              obtain ⟨real, most⟩ := stands.parent_le inWhole (keeps hasParent)
              obtain ⟨fuel, rfl⟩ : ∃ fuel', fuel = fuel' + 1 := ⟨fuel - 1, by omega⟩
              exact split_fits real (by omega)
            exact ⟨T₄, split_full aReal isFull parted.run linked parent inserted first again, h', whole, stands,
              pairs.trans (contents_halves rising.ctxSized.1.1 parted.pairs), inUse, size₄.trans size,
              order₄.trans order, kept₃⟩
      · exact ⟨T, split_fits aReal (by rw [laid.nodeSize]; omega),
          (rising.fits (by omega)).mended rising.inUse rfl rfl fun b member => ⟨member, id⟩⟩

end Split

/-! ## `btree_insert` -/

/-- Between two operations: the index is a proper tree in memory that is in use, and counts its
pairs. -/
structure Rests (C : KeyCmp K) (A : Allocator σ) (T : Btree σ K V) {h : Nat} (whole : Tree K V h) : Prop where
  stands : Stands C T .top whole
  inUse : InUse A T .top whole
  size : T.size = (Tree.pairs h whole).length

section Rests

variable {C : KeyCmp K} {A : Allocator σ} {T : Btree σ K V} {h : Nat} {whole : Tree K V h}

theorem Rests.located (rests : Rests C A T whole) (key : K) :
    Located C T key T.fuel .top whole := by
  have start : OrderedMap.Cut C.order key (Ctx.top : Ctx K V h).low (Ctx.top : Ctx K V h).high := ⟨nofun, nofun⟩
  exact lookupNode_spec rests.stands start rests.stands.height_le

/-- Another number of pairs. -/
theorem Rests.resize {T' : Btree σ K V} (stands : Stands C T' .top whole) (inUse : InUse A T' .top whole) :
    Rests C A { T' with size := (Tree.pairs h whole).length } whole := by
  have outside : Outside T' { T' with size := (Tree.pairs h whole).length } [] [] [] :=
    ⟨fun _ _ => rfl, fun _ _ => rfl, fun _ _ => rfl, fun _ _ => rfl, fun _ _ => rfl, fun _ _ => rfl,
      fun _ _ => rfl, fun _ _ => rfl⟩
  refine ⟨⟨stands.focus.aside outside rfl List.nodup_nil nofun, stands.order, stands.ctxSized, stands.sized,
    stands.ascending, ?_⟩, inUse, rfl⟩
  rw [contents_top]
  exact Nat.le_succ _

variable {m : OrderedMap K V C.order}

/-- A pair has been put into a leaf, which may have become too full. -/
theorem Rests.leaf {ctx : Ctx K V 1} {a : Ptr} {low high : List (Entry K V)} {key : K}
    (rests : Rests C A T whole) (stands : Stands C T ctx (.node a (low ++ high) []))
    (same : Refocus ctx (.node a (low ++ high) []) .top whole)
    (cut : OrderedMap.Cut C.order key (ctx.low ++ low.map Entry.pair) (high.map Entry.pair ++ ctx.high))
    (holds : m.pairs = Tree.pairs h whole) (value : V) :
    ∃ (T₁ T₂ : Btree σ K V) (c : Ptr), A.alloc T.arena = (c, T₁.arena) ∧
      ({ T with arena := T₁.arena }.setKey c key).bind (fun T => T.setValue c value) = some T₁ ∧
      T₁.nodeInsert C a c = some T₂ ∧ T₂.size = T.size ∧ T₂.order = T.order ∧
      Rising C A T₂ ctx (.node a (low ++ ⟨c, (key, value)⟩ :: high) []) ∧
      contents ctx (.node a (low ++ ⟨c, (key, value)⟩ :: high) []) = (m.insert key value).pairs := by
  have inUse := rests.inUse.refocus same
  have cReal : (A.alloc T.arena).1 ≠ null := A.alloc_ne_null _
  have cFresh := inUse.fresh.2
  have cInUse := A.alloc_inUse T.arena
  have keeps := A.alloc_keeps T.arena
  generalize allocated : A.alloc T.arena = new at cReal cFresh cInUse keeps
  obtain ⟨c, arena⟩ := new
  simp only at cReal cFresh cInUse keeps
  let T₁ : Btree σ K V := { T with
    arena := arena, key := Function.update T.key c key, value := Function.update T.value c value }
  have outside : Outside T T₁ [] [] [c] := by
    refine ⟨fun _ _ => rfl, fun _ _ => rfl, fun _ _ => rfl, fun _ _ => rfl, fun _ _ => rfl, fun x other => ?_,
      fun x other => ?_, fun _ _ => rfl⟩
    · exact Function.update_of_ne (by simpa using other) ..
    · exact Function.update_of_ne (by simpa using other) ..
  have focus₁ : Focus T₁ ctx (.node a (low ++ high) []) :=
    stands.focus.aside outside rfl (List.nodup_singleton c) fun x member => by
      rw [List.mem_singleton.mp member]
      exact ⟨cReal, cFresh⟩
  have below : ∀ e ∈ low, C.keyLess e.pair.1 key = true := fun e member =>
    C.order_lt.mp (cut.low e.pair (List.mem_append_right _ (List.mem_map_of_mem member)))
  have above : ∀ e ∈ high.head?, C.order key e.pair.1 = .lt := fun e isHead =>
    cut.high e.pair (List.mem_append_left _ (List.mem_map_of_mem (List.mem_of_mem_head? isHead)))
  have enough : low.length < T₁.fuel := by
    have := stands.entries_lt
    rw [List.length_append] at this
    exact Nat.lt_of_le_of_lt (Nat.le_add_right ..) this
  have stored : T₁.key c = (key, value).1 ∧ T₁.value c = (key, value).2 :=
    ⟨Function.update_self .., Function.update_self ..⟩
  obtain ⟨head, pairNext, nodeSize, inserted, placed⟩ :=
    nodeInsert_spec focus₁ cReal cFresh stored below above enough
  have old : contents ctx (.node a (low ++ high) []) =
      (ctx.low ++ low.map Entry.pair) ++ (high.map Entry.pair ++ ctx.high) := by
    simp only [contents, Tree.pairs_node, List.map_nil, weave_leaf, List.map_append, List.append_assoc]
  have new : contents ctx (.node a (low ++ ⟨c, (key, value)⟩ :: high) []) =
      (ctx.low ++ low.map Entry.pair) ++ (key, value) :: (high.map Entry.pair ++ ctx.high) := by
    simp only [contents, Tree.pairs_node, List.map_nil, weave_leaf, List.map_append, List.map_cons,
      List.append_assoc, List.cons_append]
  have all : contents ctx (.node a (low ++ high) []) = m.pairs := by rw [holds, ← contents_top whole, same.contents]
  have isInsert := OrderedMap.insert_of_cut cut (all.symm.trans old) value
  rw [← new] at isInsert
  refine ⟨T₁, _, c, rfl, ?_, inserted, rfl, rfl, ⟨placed, stands.order, stands.ctxSized, ?_, ?_, ?_, ?_⟩, isInsert.symm⟩
  · simp only [setKey, setValue, store_real _ _ cReal, Option.map_some, Option.bind_some]
    rfl
  · obtain ⟨⟨least, most⟩, -, kids⟩ := stands.sized
    change _ ≤ (low ++ high).length at least
    change (low ++ high).length ≤ _ at most
    rw [List.length_append] at least most
    refine Tree.sized_node.mpr ⟨?_, fun positive => absurd rfl positive, kids⟩
    rw [List.length_append, List.length_cons]
    exact ⟨Nat.le_trans least (by omega), by change _ ≤ 2 * T.order + 1; omega⟩
  · rw [← isInsert]
    exact (m.insert key value).ascending
  · have count : T.size = (contents ctx (.node a (low ++ high) [])).length := by rw [all, holds, rests.size]
    rw [old, List.length_append] at count
    change _ ≤ T.size + 1
    rw [new, List.length_append, List.length_cons, count]
    exact Nat.le_refl _
  · intro p member
    change A.InUse arena p
    have cases : p = c ∨ (p ∈ Tree.addrs 1 (.node a (low ++ high) []) ++ ctx.addrs ∨
        p ∈ Tree.cells 1 (.node a (low ++ high) []) ++ ctx.cells) := by
      simp only [Tree.addrs_node, Tree.cells_node, List.map_append, List.map_cons, List.mem_append,
        List.mem_cons] at member ⊢
      tauto
    rcases cases with rfl | old
    · exact cInUse
    · exact keeps p (inUse p old)

/-- **`btree_insert`** -/
theorem Rests.insert (rests : Rests C A T whole) (holds : m.pairs = Tree.pairs h whole) (key : K) (value : V) :
    ∃ T' h', ∃ whole' : Tree K V h', T.insert C A key value =
        some (T', if m.contains key then -1 else 0) ∧ Rests C A T' whole' ∧ T'.order = T.order ∧
      Tree.pairs h' whole' = (if m.contains key then m else m.insert key value).pairs := by
  have root : T.root = Tree.ptr h whole := rests.stands.focus.root
  rcases rests.located key with ⟨stands, result, cut, same⟩ | ⟨stands, result, equal, below, same⟩ <;> rw [← root] at result
  · obtain ⟨T₁, T₂, c, allocated, stored, inserted, size₂, order₂, rising, isInsert⟩ :=
      rests.leaf stands same cut holds value
    have all := same.contents
    rw [contents_top, ← holds] at all
    have enough := Ctx.length_le (by have := stands.order; omega) Nat.one_ne_zero stands.ctxSized
    have count : T.size = m.pairs.length := by rw [holds, rests.size]
    rw [← all, contents, List.length_append, List.length_append] at count
    have enough' := Nat.le_trans enough (show _ ≤ T.size by omega)
    have spent : T.size + 2 = T₂.fuel := by rw [Btree.fuel, size₂]
    obtain ⟨T₃, splits, h', whole', stands', pairs, inUse, size₃, order₃, -⟩ :=
      split_spec rising (Nat.le_trans (Nat.add_le_add_right enough' 2) (Nat.le_of_eq spent))
    have missing : m.contains key = false := by
      refine OrderedMap.contains_of_cut cut (all.symm.trans ?_)
      simp only [contents, Tree.pairs_node, List.map_nil, weave_leaf, List.map_append, List.append_assoc]
    have grown : T₃.size + 1 = (Tree.pairs h' whole').length := by
      rw [pairs, size₃, size₂]
      simp only [contents, Tree.pairs_node, List.map_nil, weave_leaf, List.map_append, List.map_cons,
        List.length_append, List.length_cons] at count ⊢
      omega
    rw [missing]
    refine ⟨{ T₃ with size := T₃.size + 1 }, h', whole', ?_, grown ▸ Rests.resize stands' inUse, order₃.trans order₂,
      pairs.trans isInsert⟩
    rw [Tree.ptr_node] at splits
    simp only [Btree.insert, result, allocated, Option.bind_eq_bind, Option.bind_some, Option.isSome_none,
      Bool.false_eq_true, if_false]
    rw [← Option.bind_assoc, stored]
    simp only [Option.bind_some, inserted, splits]
  · have all := same.contents
    rw [contents_top, ← holds] at all
    obtain ⟨lower, higher, split⟩ := stands.exists_split (List.mem_append_right _ (List.mem_cons_self ..))
    have found : m.contains key = true := OrderedMap.contains_of_found (all.symm.trans split) equal
    rw [found]
    refine ⟨T, h, whole, ?_, rests, rfl, holds.symm⟩
    simp only [Btree.insert, result, Option.bind_eq_bind, Option.bind_some, Option.isSome_some, if_true]

end Rests

end Btree

end KTableFS.Index
