/-
# Index.BtreeInsert -- a pair into a node of the B-tree, and a full node halved

`btree_node_insert` puts a pair into the list of a node (`nodeInsert_spec`).  A node that has
become too full is halved by `btree_node_split` (`halve_spec`): its last children and pairs go
to a new node, and the pair between the two is left over for the parent.
-/
import KTableFS.Index.BtreeSearch

namespace KTableFS.Index

open KTableFS.Theory

set_option autoImplicit false

namespace Btree

variable {σ K V : Type}

/-! ## A pair into a node -/

section Node

variable {T : Btree σ K V} {C : KeyCmp K}

/-- The parts of a node and its children have different addresses. -/
theorem Focus.apart {h : Nat} {ctx : Ctx K V (h + 1)} {a : Ptr} {entries : List (Entry K V)}
    {kids : List (Tree K V h)} (focus : Focus T ctx (.node a entries kids)) :
    (entries.map Entry.addr).Nodup ∧ (∀ k ∈ kids, ∀ b ∈ Tree.addrs h k, b ≠ a) ∧
      ∀ k ∈ kids, ∀ c ∈ Tree.cells h k, c ∉ entries.map Entry.addr := by
  have cells := (List.nodup_append.mp focus.cellsNodup).1
  have addrs := (List.nodup_append.mp focus.nodup).1
  rw [Tree.cells_node, List.nodup_append] at cells
  rw [Tree.addrs_node, List.nodup_cons] at addrs
  refine ⟨cells.1, fun k member b inKid => ?_, fun k member c inKid inEntries => ?_⟩
  · rintro rfl
    exact addrs.1 (List.mem_flatMap.mpr ⟨k, member, inKid⟩)
  · exact cells.2.2 c inEntries c (List.mem_flatMap.mpr ⟨k, member, inKid⟩) rfl

/-- **`btree_node_find`** -/
theorem nodeFind_spec {p a : Ptr} {low high : List (Entry K V)} {kids : List Ptr} {key : K}
    (laid : Laid T p a (low ++ high) kids) (aReal : a ≠ null) (real : ∀ e ∈ low ++ high, e.addr ≠ null)
    (below : ∀ e ∈ low, C.keyLess e.pair.1 key = true) (above : ∀ e ∈ high.head?, C.order key e.pair.1 = .lt)
    (room : low.length < T.fuel) : ∃ pos, T.nodeFind C a key = some pos ∧
      Link.At a (low.map Entry.addr) (if pos = null then .head a else .next pos) := by
  have start := laid.chain.start
  have held : ∀ e ∈ low ++ high, e.addr ≠ null ∧ T.key e.addr = e.pair.1 := fun e member =>
    ⟨real e member, (laid.stored e member).1⟩
  cases low with
  | nil =>
      refine ⟨null, ?_, rfl, rfl⟩
      cases high with
      | nil =>
          have none : T.head a = null := start
          simp only [nodeFind, load_real _ aReal, none, if_true, Option.bind_eq_bind, Option.bind_some]
      | cons z high =>
          have first : T.head a = z.addr := start
          obtain ⟨zReal, zKey⟩ := held z (List.mem_cons_self ..)
          have greater : C.keyGreater z.pair.1 key = true :=
            C.order_gt.mp (Std.OrientedCmp.gt_of_lt (above z rfl))
          simp only [nodeFind, load_real _ aReal, first, if_neg zReal, load_real _ zReal, zKey, greater, if_true,
            Option.bind_eq_bind, Option.bind_some]
  | cons y low =>
      have first : T.head a = y.addr := start
      obtain ⟨yReal, yKey⟩ := held y (List.mem_cons_self ..)
      have notGreater : C.keyGreater y.pair.1 key = false := by
        refine Bool.eq_false_iff.mpr fun greater => ?_
        have less := C.order_lt.mpr (below y (List.mem_cons_self ..))
        rw [C.order_gt.mpr greater] at less
        cases less
      have stops : Stops C key high := fun z isHead => by
        refine Bool.eq_false_iff.mpr fun less => ?_
        have greater := Std.OrientedCmp.gt_of_lt (above z isHead)
        rw [C.order_lt.mpr less] at greater
        cases greater
      have leads : Leads T.pairNext y.addr ((y :: low ++ high).map Entry.addr) null := first ▸ laid.chain
      have enough : low.length < T.fuel := Nat.lt_of_succ_lt room
      obtain ⟨init, last, shape, found⟩ := lastBelow_spec C key stops leads held
        (fun e member => below e (List.mem_cons_of_mem _ member)) enough
      have lastReal : last.addr ≠ null := real last (List.mem_append_left _ (by rw [shape]; simp))
      refine ⟨last.addr, ?_, ?_⟩
      · simp only [nodeFind, load_real _ aReal, first, if_neg yReal, load_real _ yReal, yKey, notGreater, found,
          Bool.false_eq_true, if_false, Option.bind_eq_bind, Option.bind_some]
      · rw [if_neg lastReal]
        exact ⟨init.map Entry.addr, by rw [shape, List.map_append]; rfl⟩

/-- **`btree_node_insert`**, up to the split. -/
theorem nodeInsert_spec {h : Nat} {ctx : Ctx K V (h + 1)} {a c : Ptr} {low high : List (Entry K V)}
    {kids : List (Tree K V h)} {pair : K × V} (focus : Focus T ctx (.node a (low ++ high) kids))
    (cReal : c ≠ null) (fresh : c ∉ Tree.cells (h + 1) (.node a (low ++ high) kids) ++ ctx.cells)
    (stored : T.key c = pair.1 ∧ T.value c = pair.2) (below : ∀ e ∈ low, C.keyLess e.pair.1 pair.1 = true)
    (above : ∀ e ∈ high.head?, C.order pair.1 e.pair.1 = .lt) (room : low.length < T.fuel) :
    ∃ head pairNext nodeSize, T.nodeInsert C a c = some
        { T with head := head, pairNext := pairNext, nodeSize := nodeSize } ∧
      Focus { T with head := head, pairNext := pairNext, nodeSize := nodeSize } ctx
        (.node a (low ++ ⟨c, pair⟩ :: high) kids) := by
  obtain ⟨aReal, laid, real, -⟩ := focus.reads
  obtain ⟨entriesNodup, addrsApart, cellsApart⟩ := focus.apart
  obtain ⟨pos, found, at_⟩ := nodeFind_spec laid aReal real below above room
  have chain := laid.chain
  rw [List.map_append, leads_append] at chain
  obtain ⟨toHigh, fromHigh⟩ := chain
  have lowReal : ∀ x ∈ low.map Entry.addr, x ≠ null := by
    intro x member
    obtain ⟨e, inLow, rfl⟩ := List.mem_map.mp member
    exact real e (List.mem_append_left _ inLow)
  rw [List.map_append] at entriesNodup
  have cNotEntries : c ∉ low.map Entry.addr ++ high.map Entry.addr := by
    intro member
    refine fresh (List.mem_append_left _ ?_)
    rw [Tree.cells_node, List.map_append]
    exact List.mem_append_left _ member
  have cNotLow : c ∉ low.map Entry.addr := fun member => cNotEntries (List.mem_append_left _ member)
  have loaded := loadLink_spec at_ toHigh aReal lowReal
  -- the pair behind the link is not equal
  have passes : ¬(pos ≠ null ∧ (high.map Entry.addr).headD null ≠ null ∧
      (load T.key ((high.map Entry.addr).headD null)).any (fun there => C.keyEqual there pair.1) = true) := by
    rintro ⟨-, notNull, equal⟩
    cases high with
    | nil => exact notNull rfl
    | cons z high =>
        obtain ⟨zKey, -⟩ := laid.stored z (by simp)
        rw [List.map_cons, List.headD_cons, load_real _ (real z (by simp)), zKey, Option.any_some] at equal
        have less := above z rfl
        rw [Std.OrientedCmp.eq_symm (C.order_eq.mpr equal)] at less
        cases less
  let T₁ : Btree σ K V :=
    { T with pairNext := Function.update T.pairNext c ((high.map Entry.addr).headD null) }
  have toHigh₁ : Leads T₁.pairNext (T₁.head a) (low.map Entry.addr) ((high.map Entry.addr).headD null) :=
    toHigh.frame _ cNotLow
  obtain ⟨head, pairNext, linked, toNew, headKept, pairNextKept⟩ :=
    storeLink_spec at_ toHigh₁ aReal lowReal (List.nodup_append.mp entriesNodup).1 c
  let nodeSize := Function.update T.nodeSize a (T.nodeSize a + 1)
  have run : T.nodeInsert C a c = some { T with head := head, pairNext := pairNext, nodeSize := nodeSize } := by
    simp only [nodeInsert, load_real _ cReal, stored.1, found, loaded, Option.bind_eq_bind, Option.bind_some]
    rw [if_neg passes]
    simp only [setPairNext, store_real _ _ cReal, Option.map_some, Option.bind_some]
    rw [show ({ T with pairNext := Function.update T.pairNext c ((high.map Entry.addr).headD null) } :
      Btree σ K V) = T₁ from rfl, linked]
    simp only [Option.bind_some, setNodeSize, load_real _ aReal, store_real _ _ aReal, Option.map_some]
    rfl
  refine ⟨head, pairNext, nodeSize, run, ?_⟩
  have fromNew : pairNext c = (high.map Entry.addr).headD null := by
    rw [pairNextKept c cNotLow]
    exact Function.update_self ..
  have behind : ∀ x ∈ high.map Entry.addr, pairNext x = T.pairNext x := by
    intro x member
    have notLow : x ∉ low.map Entry.addr := fun inLow =>
      (List.nodup_append.mp entriesNodup).2.2 x inLow x member rfl
    rw [pairNextKept x notLow]
    refine Function.update_of_ne ?_ ..
    rintro rfl
    exact cNotEntries (List.mem_append_right _ member)
  have outside : Outside T { T with head := head, pairNext := pairNext, nodeSize := nodeSize } [a] []
      (c :: low.map Entry.addr) := by
    refine ⟨fun _ _ => rfl, fun b other => headKept b (by simpa using other), fun b other => ?_, fun _ _ => rfl,
      fun _ _ => rfl, fun _ _ => rfl, fun _ _ => rfl, fun x other => ?_⟩
    · exact Function.update_of_ne (by simpa using other) ..
    · rw [List.mem_cons, not_or] at other
      exact (pairNextKept x other.2).trans (Function.update_of_ne other.1 ..)
  let t' : Tree K V (h + 1) := .node a (low ++ ⟨c, pair⟩ :: high) kids
  have addrsPerm : ([] ++ Tree.addrs (h + 1) t').Perm ([] ++ Tree.addrs (h + 1) (.node a (low ++ high) kids)) :=
    .refl _
  have cellsPerm : ([] ++ Tree.cells (h + 1) t').Perm ([c] ++ Tree.cells (h + 1) (.node a (low ++ high) kids)) := by
    simp only [t', Tree.cells_node, List.map_append, List.map_cons, List.nil_append, List.append_assoc,
      List.cons_append]
    exact List.perm_middle
  refine focus.replace outside rfl rfl rfl
    (Tree.in_node.mpr ⟨⟨laid.parent, ?_, ?_, ?_, laid.kids⟩, fun k member => ?_⟩) addrsPerm List.nodup_nil
    (fun b member => absurd member List.not_mem_nil) cellsPerm (List.nodup_singleton c) ?_ ?_ ?_
  · show Function.update T.nodeSize a (T.nodeSize a + 1) a = _
    rw [Function.update_self, laid.nodeSize]
    simp only [List.length_append, List.length_cons]
    omega
  · rw [List.map_append, List.map_cons, leads_append]
    refine ⟨toNew, rfl, ?_⟩
    show Leads pairNext (pairNext c) (high.map Entry.addr) null
    rw [fromNew]
    exact fromHigh.congr behind
  · intro e member
    rcases List.mem_append.mp member with inLow | rest
    · exact laid.stored e (List.mem_append_left _ inLow)
    · rcases List.mem_cons.mp rest with rfl | inHigh
      · exact stored
      · exact laid.stored e (List.mem_append_right _ inHigh)
  · have inKid := focus.below.2 k member
    refine inKid.outside outside ?_ (fun b inKid => by simpa using addrsApart k member b inKid) (fun _ _ => by simp)
      fun x inKid => ?_
    · cases h with
      | zero => exact Empty.elim k
      | succ h => exact inKid.1.parent
    · rw [List.mem_cons, not_or]
      refine ⟨?_, fun inLow => cellsApart k member x inKid ?_⟩
      · rintro rfl
        refine fresh (List.mem_append_left _ ?_)
        rw [Tree.cells_node]
        exact List.mem_append_right _ (List.mem_flatMap.mpr ⟨k, member, inKid⟩)
      · rw [List.map_append]
        exact List.mem_append_left _ inLow
  · intro x member
    rw [List.mem_singleton.mp member]
    exact ⟨cReal, fresh⟩
  · intro b member
    rcases member with inOwn | inMoved
    · rw [List.mem_singleton.mp inOwn]
      simp
    · cases inMoved
  · intro x member
    rcases List.mem_cons.mp member with rfl | inLow
    · simp
    · simp only [Tree.cells_node, List.map_append, List.mem_append]
      tauto

end Node

/-! ## A full node -/

section Halve

variable {T : Btree σ K V} {a n : Ptr}

/-- **The children of a full node.** -/
theorem halveKids_spec {kl kr : List Ptr} (leads : Leads T.next (T.child a) (kl ++ kr) null) (aReal : a ≠ null)
    (nReal : n ≠ null) (real : ∀ b ∈ kl ++ kr, b ≠ null) (nodup : (kl ++ kr).Nodup)
    (count : kl = [] ∧ kr = [] ∨ kl.length = T.order + 1) (room : kr.length < T.fuel) :
    ∃ next, T.halveKids a n = some { T with
        child := Function.update T.child n (kr.headD null), next := next, parent := (adopted T n kr).parent } ∧
      Leads next (T.child a) kl null ∧ Leads next (kr.headD null) kr null ∧ ∀ b, b ∉ kl → next b = T.next b := by
  rcases count with ⟨rfl, rfl⟩ | count
  · have none : T.child a = null := leads
    refine ⟨T.next, ?_, none, rfl, fun _ _ => rfl⟩
    simp only [halveKids, load_real _ aReal, none, ne_eq, not_true_eq_false, if_false, setChild, store_real _ _ nReal,
      Option.map_some, Option.bind_eq_bind, Option.bind_some, adopted, List.not_mem_nil, List.headD_nil]
  · obtain ⟨init, x, rfl⟩ : ∃ init x, kl = init ++ [x] := by
      refine ⟨kl.dropLast, kl.getLast ?_, (List.dropLast_append_getLast _).symm⟩
      rintro rfl
      cases count
    have initCount : init.length = T.order := by simpa using count
    have initReal : ∀ b ∈ init, b ≠ null := fun b member => real b (by simp [member])
    have xReal : x ≠ null := real x (by simp)
    have parts := nodup
    rw [List.nodup_append] at parts
    have notInit : x ∉ init := fun member => (List.nodup_append.mp parts.1).2.2 x member x (by simp) rfl
    have notRight : x ∉ kr := fun member => parts.2.2 x (by simp) x member rfl
    have parts := leads_append.mp leads
    have whole := leads
    rw [List.append_assoc, List.singleton_append] at whole
    have reached := advance_spec whole initReal
    rw [initCount] at reached
    have notLeaf : T.child a ≠ null := by
      rw [whole.start]
      exact headD_ne_null fun b member => real b (by simpa using member)
    have behind : T.next x = kr.headD null := (leads_snoc.mp parts.1).2
    let T₁ : Btree σ K V := { T with
      child := Function.update T.child n (kr.headD null), next := Function.update T.next x null }
    have right : Leads T₁.next (kr.headD null) kr null := parts.2.frame null notRight
    have adoptRun : adopt n T₁.fuel T₁ (kr.headD null) = some (adopted T₁ n kr) :=
      adopt_spec right (fun b member => real b (List.mem_append_right _ member)) room
    have first : T₁.child n = kr.headD null := Function.update_self ..
    refine ⟨T₁.next, ?_, parts.1.relink null notInit, right, fun b other => Function.update_of_ne ?_ ..⟩
    · simp only [halveKids, load_real _ aReal, ne_eq, notLeaf, not_false_eq_true, if_true, reached, load_real _ xReal, behind,
        setChild, store_real _ _ nReal, setNext, store_real _ _ xReal, Option.map_some, Option.bind_eq_bind,
        Option.bind_some, load_real _ nReal]
      exact (congrArg (adopt n T₁.fuel T₁) first).trans adoptRun
    · rintro rfl
      exact other (by simp)

/-- **The pairs of a full node.** -/
theorem halvePairs_spec {xl xr : List Ptr} {m : Ptr} (leads : Leads T.pairNext (T.head a) (xl ++ m :: xr) null)
    (aReal : a ≠ null) (nReal : n ≠ null) (real : ∀ x ∈ xl ++ m :: xr, x ≠ null) (nodup : (xl ++ m :: xr).Nodup)
    (positive : 0 < T.order) (count : xl.length = T.order) :
    ∃ pairNext, T.halvePairs a n = some ({ T with
        head := Function.update T.head n (xr.headD null), pairNext := pairNext }, m) ∧
      Leads pairNext (T.head a) xl null ∧ Leads pairNext (xr.headD null) xr null ∧
      ∀ x, x ∉ xl → pairNext x = T.pairNext x := by
  obtain ⟨init, x, rfl⟩ : ∃ init x, xl = init ++ [x] := by
    refine ⟨xl.dropLast, xl.getLast ?_, (List.dropLast_append_getLast _).symm⟩
    rintro rfl
    rw [List.length_nil] at count
    omega
  have initCount : init.length = T.order - 1 := by
    rw [List.length_append, List.length_singleton] at count
    omega
  have xReal : x ≠ null := real x (by simp)
  have mReal : m ≠ null := real m (by simp)
  have parts := nodup
  rw [List.nodup_append] at parts
  have notInit : x ∉ init := fun member => (List.nodup_append.mp parts.1).2.2 x member x (by simp) rfl
  have notRight : x ∉ m :: xr := fun member => parts.2.2 x (by simp) x member rfl
  have chain := leads_append.mp leads
  have whole := leads
  rw [List.append_assoc, List.singleton_append] at whole
  have reached := advance_spec whole fun b member => real b (by simp [member])
  rw [initCount] at reached
  have toMid : T.pairNext x = m := (leads_snoc.mp chain.1).2
  have fromMid : T.pairNext m = xr.headD null := chain.2.2.start
  refine ⟨Function.update T.pairNext x null, ?_, chain.1.relink null notInit, ?_,
    fun b other => Function.update_of_ne ?_ ..⟩
  · simp only [halvePairs, load_real _ aReal, reached, load_real _ xReal, toMid, load_real _ mReal, fromMid, setHead,
      store_real _ _ nReal, setPairNext, store_real _ _ xReal, Option.map_some, Option.bind_eq_bind,
      Option.bind_some]
  · have right := chain.2.2
    rw [fromMid] at right
    exact right.frame null fun member => notRight (List.mem_cons_of_mem _ member)
  · rintro rfl
    exact other (by simp)

end Halve

/-- What halving a node has done: the two halves, whose parent is the same for now. -/
structure Halved (T T' : Btree σ K V) (p a n : Ptr) (el er : List (Entry K V)) (kl kr : List Ptr) : Prop where
  root : T'.root = T.root
  order : T'.order = T.order
  size : T'.size = T.size
  key : T'.key = T.key
  value : T'.value = T.value
  outside : Outside T T' [a, n] (n :: (kl ++ kr)) (el.map Entry.addr)
  left : Laid T' p a el kl
  right : Laid T' p n er kr
  leftKids : ∀ b ∈ kl, T'.parent b = T.parent b
  rightKids : ∀ b ∈ kr, T'.parent b = n

theorem halve_spec {A : Allocator σ} {T : Btree σ K V} {h : Nat} {ctx : Ctx K V (h + 1)} {a : Ptr}
    {el er : List (Entry K V)} {mid : Entry K V} {kl kr : List (Tree K V h)}
    (focus : Focus T ctx (.node a (el ++ mid :: er) (kl ++ kr))) (order : 0 < T.order)
    (left : el.length = T.order) (right : er.length = T.order)
    (count : kl = [] ∧ kr = [] ∨ kl.length = T.order + 1) (room : kr.length < T.fuel)
    (fresh : (A.alloc T.arena).1 ∉ Tree.addrs (h + 1) (.node a (el ++ mid :: er) (kl ++ kr))) :
    ∃ T', T.halve A a = some (T', (A.alloc T.arena).1, mid.addr) ∧ T'.arena = (A.alloc T.arena).2 ∧
      Halved T T' ctx.parent a (A.alloc T.arena).1 el er (kl.map (Tree.ptr h)) (kr.map (Tree.ptr h)) := by
  obtain ⟨aReal, laid, real, kidsReal⟩ := focus.reads
  have nReal : (A.alloc T.arena).1 ≠ null := A.alloc_ne_null _
  generalize allocated : A.alloc T.arena = new at fresh nReal ⊢
  obtain ⟨n, arena⟩ := new
  simp only at fresh nReal ⊢
  have notA : n ≠ a := by
    rintro rfl
    exact fresh (List.mem_cons_self ..)
  have kidsNodup : ((kl ++ kr).map (Tree.ptr h)).Nodup := by
    have nodup := (List.nodup_append.mp focus.nodup).1
    rw [Tree.addrs_node, List.nodup_cons, (addrs_perm _).nodup_iff, List.nodup_append] at nodup
    exact nodup.2.1
  have notKid : n ∉ (kl ++ kr).map (Tree.ptr h) := by
    intro member
    rw [Tree.addrs_node, List.mem_cons, not_or, (addrs_perm _).mem_iff] at fresh
    exact fresh.2 (List.mem_append_left _ member)
  have aNotKid : a ∉ (kl ++ kr).map (Tree.ptr h) := by
    intro member
    obtain ⟨k, inKids, same⟩ := List.mem_map.mp member
    exact focus.apart.2.1 k inKids _ (List.mem_cons_self ..) same
  have realKids : ∀ b ∈ (kl ++ kr).map (Tree.ptr h), b ≠ null := by
    intro b member
    obtain ⟨k, inKids, rfl⟩ := List.mem_map.mp member
    exact kidsReal k inKids
  have entriesNodup := focus.apart.1
  have realCells : ∀ x ∈ (el ++ mid :: er).map Entry.addr, x ≠ null := by
    intro x member
    obtain ⟨e, inEntries, rfl⟩ := List.mem_map.mp member
    exact real e inEntries
  have kidsLead := laid.kids
  have chain := laid.chain
  rw [List.map_append, List.map_cons] at entriesNodup realCells chain
  rw [List.map_append] at kidsNodup notKid realKids kidsLead aNotKid
  -- the fields of the new node
  let T₁ : Btree σ K V := { T with
    arena := arena, parent := Function.update T.parent n (T.parent a),
    nodeSize := Function.update T.nodeSize n T.order }
  have count₁ : kl.map (Tree.ptr h) = [] ∧ kr.map (Tree.ptr h) = [] ∨
      (kl.map (Tree.ptr h)).length = T₁.order + 1 := by
    rcases count with ⟨rfl, rfl⟩ | count
    · exact Or.inl ⟨rfl, rfl⟩
    · exact Or.inr ((List.length_map ..).trans count)
  obtain ⟨next, kidsRun, leftLeads, rightLeads, nextKept⟩ := halveKids_spec (T := T₁) kidsLead aReal nReal realKids
    kidsNodup count₁ (by rw [List.length_map]; exact room)
  let T₂ : Btree σ K V := { T₁ with
    child := Function.update T₁.child n ((kr.map (Tree.ptr h)).headD null), next := next,
    parent := (adopted T₁ n (kr.map (Tree.ptr h))).parent }
  obtain ⟨pairNext, pairsRun, leftPairs, rightPairs, pairNextKept⟩ := halvePairs_spec (T := T₂) chain aReal nReal
    realCells entriesNodup order (by rw [List.length_map]; exact left)
  let T₃ : Btree σ K V := { T₂ with
    head := Function.update T₂.head n ((er.map Entry.addr).headD null), pairNext := pairNext }
  let T' : Btree σ K V := { T₃ with nodeSize := Function.update T₃.nodeSize a T.order }
  have run : T.halve A a = some (T', n, mid.addr) := by
    simp only [halve, allocated, load_real _ aReal, setParent, setNodeSize, store_real _ _ nReal,
      store_real _ _ aReal, Option.map_some, Option.bind_eq_bind, Option.bind_some]
    change (T₁.halveKids a n).bind _ = _
    rw [kidsRun, Option.bind_some]
    change (T₂.halvePairs a n).bind _ = _
    rw [pairsRun]
    rfl
  have childIs : T'.child a = T.child a := Function.update_of_ne (Ne.symm notA) ..
  have headIs : T'.head a = T.head a := Function.update_of_ne (Ne.symm notA) ..
  have newChild : T'.child n = (kr.map (Tree.ptr h)).headD null := Function.update_self ..
  have newHead : T'.head n = (er.map Entry.addr).headD null := Function.update_self ..
  have parentIs : ∀ b, b ∉ kr.map (Tree.ptr h) → T'.parent b = T₁.parent b := fun b other => if_neg other
  have nParent : T₁.parent n = T.parent a := Function.update_self ..
  refine ⟨T', run, rfl, rfl, rfl, rfl, rfl, rfl, ⟨fun b other => ?_, fun b other => ?_, fun b other => ?_,
    fun b other => ?_, fun b other => ?_, fun _ _ => rfl, fun _ _ => rfl, pairNextKept⟩, ⟨?_, ?_, ?_, fun e member => ?_, ?_⟩,
    ⟨?_, ?_, ?_, fun e member => ?_, ?_⟩, fun b member => ?_, fun b member => if_pos member⟩
  all_goals simp only [List.mem_cons, List.mem_append, List.not_mem_nil, or_false, not_or] at *
  · exact Function.update_of_ne other.2 ..
  · exact Function.update_of_ne other.2 ..
  · exact (Function.update_of_ne other.1 ..).trans (Function.update_of_ne other.2 ..)
  · exact (parentIs b other.2.2).trans (Function.update_of_ne other.1 ..)
  · exact nextKept b other.2.1
  · exact (parentIs a aNotKid.2).trans ((Function.update_of_ne (Ne.symm notA) ..).trans laid.parent)
  · exact (Function.update_self ..).trans left.symm
  · rw [headIs]
    exact leftPairs
  · exact laid.stored e (List.mem_append_left _ member)
  · rw [childIs]
    exact leftLeads
  · exact (parentIs n notKid.2).trans (nParent.trans laid.parent)
  · exact (Function.update_of_ne notA ..).trans ((Function.update_self ..).trans right.symm)
  · rw [newHead]
    exact rightPairs
  · exact laid.stored e (List.mem_append_right _ (List.mem_cons_of_mem _ member))
  · rw [newChild]
    exact rightLeads
  · have notRight : b ∉ kr.map (Tree.ptr h) := fun inRight =>
      (List.nodup_append.mp kidsNodup).2.2 b member b inRight rfl
    refine (parentIs b notRight).trans (Function.update_of_ne ?_ ..)
    rintro rfl
    exact notKid.1 member


end Btree


end KTableFS.Index
