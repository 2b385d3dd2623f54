/-
# Index.BtreeShape -- the trees in the memory of a `Btree`

`Tree h` is a tree of `h` levels whose nodes carry their addresses and whose pairs carry
theirs; a leaf is a node whose children are of no level, so there are none.  A `Ctx h` is a
tree with a hole for a tree of `h` levels.  `Focus T ctx t` says that `T` holds the tree `t`
in the context `ctx`: the list of pairs and the list of children of every node, its size and
its parent pointer, at addresses that are all different.

`Outside` says what a step has written to; whatever is somewhere else stays as it is.
-/
import KTableFS.Index.Btree
import KTableFS.Theory.Chain
import Mathlib.Data.List.Perm.Basic

namespace KTableFS.Index

open KTableFS.Theory

set_option autoImplicit false

namespace Btree

variable {σ K V : Type}

/-! ## Trees -/

/-- A pair in its cell. -/
structure Entry (K V : Type) where
  addr : Ptr
  pair : K × V

structure Node (K V C : Type) where
  addr : Ptr
  entries : List (Entry K V)
  kids : List C

/-- A tree of `h` levels. -/
def Tree (K V : Type) : Nat → Type
  | 0 => Empty
  | h + 1 => Node K V (Tree K V h)

namespace Tree

def ptr : (h : Nat) → Tree K V h → Ptr
  | 0, t => Empty.elim t
  | _ + 1, t => t.addr

/-- The addresses of the nodes under the root. -/
def under : (h : Nat) → Tree K V h → List Ptr
  | 0, t => Empty.elim t
  | h + 1, t => t.kids.flatMap fun k => ptr h k :: under h k

def addrs (h : Nat) (t : Tree K V h) : List Ptr := ptr h t :: under h t

/-- The addresses of the pairs. -/
def cells : (h : Nat) → Tree K V h → List Ptr
  | 0, t => Empty.elim t
  | h + 1, t => t.entries.map Entry.addr ++ t.kids.flatMap (cells h)

/-- A node with these pairs and these children. -/
def node {h : Nat} (a : Ptr) (entries : List (Entry K V)) (kids : List (Tree K V h)) : Tree K V (h + 1) :=
  (⟨a, entries, kids⟩ : Node K V (Tree K V h))

section Node

variable {h : Nat} (a : Ptr) (entries : List (Entry K V)) (kids : List (Tree K V h))

theorem exists_node (t : Tree K V (h + 1)) : ∃ a entries, ∃ kids : List (Tree K V h), t = node a entries kids :=
  ⟨_, _, _, rfl⟩

@[simp] theorem ptr_node : ptr (h + 1) (node a entries kids) = a := rfl

@[simp] theorem under_node : under (h + 1) (node a entries kids) = kids.flatMap (addrs h) := rfl

@[simp] theorem addrs_node : addrs (h + 1) (node a entries kids) = a :: kids.flatMap (addrs h) := rfl

@[simp] theorem cells_node : cells (h + 1) (node a entries kids) =
    entries.map Entry.addr ++ kids.flatMap (cells h) := rfl

end Node

end Tree

/-! ## What the memory holds -/

/-- The memory holds a node with these pairs and these children. -/
structure Laid (T : Btree σ K V) (parent a : Ptr) (entries : List (Entry K V)) (kids : List Ptr) : Prop where
  parent : T.parent a = parent
  nodeSize : T.nodeSize a = entries.length
  chain : Leads T.pairNext (T.head a) (entries.map Entry.addr) null
  stored : ∀ e ∈ entries, T.key e.addr = e.pair.1 ∧ T.value e.addr = e.pair.2
  kids : Leads T.next (T.child a) kids null

/-- The memory holds a tree whose root has this parent. -/
def Tree.In (T : Btree σ K V) : (h : Nat) → Ptr → Tree K V h → Prop
  | 0, _, _ => True
  | h + 1, parent, t =>
      Laid T parent t.addr t.entries (t.kids.map (Tree.ptr h)) ∧ ∀ k ∈ t.kids, Tree.In T h t.addr k

theorem Tree.in_node {T : Btree σ K V} {h : Nat} {p a : Ptr} {entries : List (Entry K V)}
    {kids : List (Tree K V h)} : Tree.In T (h + 1) p (node a entries kids) ↔
      Laid T p a entries (kids.map (Tree.ptr h)) ∧ ∀ k ∈ kids, Tree.In T h a k := Iff.rfl

/-- What a step may have written: `own` are nodes whose fields it has written, `moved` those it
has put elsewhere, `cells` the pairs. -/
structure Outside (T T' : Btree σ K V) (own moved cells : List Ptr) : Prop where
  child : ∀ b, b ∉ own → T'.child b = T.child b
  head : ∀ b, b ∉ own → T'.head b = T.head b
  nodeSize : ∀ b, b ∉ own → T'.nodeSize b = T.nodeSize b
  parent : ∀ b, b ∉ moved → T'.parent b = T.parent b
  next : ∀ b, b ∉ moved → T'.next b = T.next b
  key : ∀ c, c ∉ cells → T'.key c = T.key c
  value : ∀ c, c ∉ cells → T'.value c = T.value c
  pairNext : ∀ c, c ∉ cells → T'.pairNext c = T.pairNext c

section Outside

variable {T T' : Btree σ K V} {own moved cells : List Ptr}

/-- A node that is not written. -/
theorem Laid.outside {p p' a : Ptr} {entries : List (Entry K V)} {kids : List Ptr}
    (laid : Laid T p a entries kids) (outside : Outside T T' own moved cells) (parent : T'.parent a = p')
    (notOwn : a ∉ own) (kidsApart : ∀ b ∈ kids, b ∉ moved) (cellsApart : ∀ e ∈ entries, e.addr ∉ cells) :
    Laid T' p' a entries kids where
  parent := parent
  nodeSize := (outside.nodeSize a notOwn).trans laid.nodeSize
  chain := by
    rw [outside.head a notOwn]
    refine laid.chain.congr fun c member => outside.pairNext c ?_
    obtain ⟨e, inEntries, rfl⟩ := List.mem_map.mp member
    exact cellsApart e inEntries
  stored e member := by
    rw [outside.key _ (cellsApart e member), outside.value _ (cellsApart e member)]
    exact laid.stored e member
  kids := by
    rw [outside.child a notOwn]
    exact laid.kids.congr fun b member => outside.next b (kidsApart b member)

/-- A node whose pairs are not written, with other children. -/
theorem Laid.rekid {p a : Ptr} {entries : List (Entry K V)} {kids kids' : List Ptr} (laid : Laid T p a entries kids)
    (outside : Outside T T' own moved cells) (notOwn : a ∉ own) (notMoved : a ∉ moved)
    (cellsApart : ∀ e ∈ entries, e.addr ∉ cells) (leads : Leads T'.next (T'.child a) kids' null) :
    Laid T' p a entries kids' := by
  have empty : Laid T p a entries kids → Laid { T with child := fun _ => null } p a entries [] := fun laid =>
    ⟨laid.parent, laid.nodeSize, laid.chain, laid.stored, rfl⟩
  have apart : Outside { T with child := fun _ => null } { T' with child := fun _ => null } own moved cells :=
    ⟨fun _ _ => rfl, outside.head, outside.nodeSize, outside.parent, outside.next, outside.key, outside.value,
      outside.pairNext⟩
  have kept := (empty laid).outside apart ((outside.parent a notMoved).trans laid.parent) notOwn nofun cellsApart
  exact ⟨kept.parent, kept.nodeSize, kept.chain, kept.stored, leads⟩

theorem Outside.mono {own' moved' cells' : List Ptr} (outside : Outside T T' own moved cells)
    (ownIn : ∀ b ∈ own, b ∈ own') (movedIn : ∀ b ∈ moved, b ∈ moved') (cellsIn : ∀ c ∈ cells, c ∈ cells') :
    Outside T T' own' moved' cells' where
  child b other := outside.child b fun member => other (ownIn b member)
  head b other := outside.head b fun member => other (ownIn b member)
  nodeSize b other := outside.nodeSize b fun member => other (ownIn b member)
  parent b other := outside.parent b fun member => other (movedIn b member)
  next b other := outside.next b fun member => other (movedIn b member)
  key c other := outside.key c fun member => other (cellsIn c member)
  value c other := outside.value c fun member => other (cellsIn c member)
  pairNext c other := outside.pairNext c fun member => other (cellsIn c member)

/-- A tree that is not written, under whatever parent its root has now. -/
theorem Tree.In.outside : ∀ {h : Nat} {p p' : Ptr} {t : Tree K V h}, Tree.In T h p t →
    Outside T T' own moved cells → T'.parent (Tree.ptr h t) = p' → (∀ b ∈ Tree.addrs h t, b ∉ own) →
    (∀ b ∈ Tree.under h t, b ∉ moved) → (∀ c ∈ Tree.cells h t, c ∉ cells) → Tree.In T' h p' t
  | 0, _, _, _, _, _, _, _, _, _ => trivial
  | h + 1, p, p', t, ⟨laid, inKids⟩, outside, parent, notOwn, notMoved, cellsApart => by
      have ofKid : ∀ k ∈ t.kids, ∀ b ∈ Tree.addrs h k, b ∈ Tree.under (h + 1) t := fun k inKids b member =>
        List.mem_flatMap.mpr ⟨k, inKids, member⟩
      refine ⟨laid.outside outside parent (notOwn _ (List.mem_cons_self ..)) ?_ ?_, fun k member => ?_⟩
      · intro b member
        obtain ⟨k, inKids, rfl⟩ := List.mem_map.mp member
        exact notMoved _ (ofKid k inKids _ (List.mem_cons_self ..))
      · exact fun e member => cellsApart _ (List.mem_append_left _ (List.mem_map_of_mem member))
      · have kept := outside.parent _ (notMoved _ (ofKid k member _ (List.mem_cons_self ..)))
        refine (inKids k member).outside outside (kept.trans ?_) (fun b inKid => ?_) (fun b inKid => ?_)
          fun c inKid => ?_
        · cases h with
          | zero => exact Empty.elim k
          | succ h => exact (inKids k member).1.parent
        · exact notOwn b (List.mem_cons_of_mem _ (ofKid k member b inKid))
        · exact notMoved b (ofKid k member b (List.mem_cons_of_mem _ inKid))
        · exact cellsApart c (List.mem_append_right _ (List.mem_flatMap.mpr ⟨k, member, inKid⟩))

end Outside

/-! ## Contexts -/

/-- A node with a hole between two of its pairs. -/
structure Frame (K V : Type) (h : Nat) where
  addr : Ptr
  low : List (Entry K V)
  high : List (Entry K V)
  before : List (Tree K V h)
  after : List (Tree K V h)

/-- The hole filled with several trees. -/
def Frame.fill {h : Nat} (f : Frame K V h) (ts : List (Tree K V h)) : Tree K V (h + 1) :=
  .node f.addr (f.low ++ f.high) (f.before ++ ts ++ f.after)

/-- A tree with a hole for a tree of `h` levels; the parent of the hole comes first. -/
inductive Ctx (K V : Type) : Nat → Type where
  | top {h : Nat} : Ctx K V h
  | frame {h : Nat} (f : Frame K V h) (up : Ctx K V (h + 1)) : Ctx K V h

namespace Ctx

/-- The parent of the hole. -/
def parent : {h : Nat} → Ctx K V h → Ptr
  | _, .top => null
  | _, .frame f _ => f.addr

/-- The root, if the hole is filled with a tree at `hole`. -/
def root (hole : Ptr) : {h : Nat} → Ctx K V h → Ptr
  | _, .top => hole
  | _, .frame f up => root f.addr up

def addrs : {h : Nat} → Ctx K V h → List Ptr
  | _, .top => []
  | h, .frame f up =>
      f.addr :: (f.before.flatMap (Tree.addrs h) ++ f.after.flatMap (Tree.addrs h) ++ addrs up)

def cells : {h : Nat} → Ctx K V h → List Ptr
  | _, .top => []
  | h, .frame f up => (f.low ++ f.high).map Entry.addr ++
      (f.before.flatMap (Tree.cells h) ++ f.after.flatMap (Tree.cells h)) ++ cells up

/-- The number of the frames. -/
def length : {h : Nat} → Ctx K V h → Nat
  | _, .top => 0
  | _, .frame _ up => length up + 1

end Ctx

/-- The memory holds a context whose hole is filled with a tree at `hole`. -/
def Ctx.In (T : Btree σ K V) (hole : Ptr) : {h : Nat} → Ctx K V h → Prop
  | _, .top => T.next hole = null
  | h, .frame f up =>
      Laid T up.parent f.addr (f.low ++ f.high) (f.before.map (Tree.ptr h) ++ hole :: f.after.map (Tree.ptr h)) ∧
        (∀ k ∈ f.before ++ f.after, Tree.In T h f.addr k) ∧ Ctx.In T f.addr up

theorem Ctx.In.outside {T T' : Btree σ K V} {own moved cells : List Ptr}
    (outside : Outside T T' own moved cells) : ∀ {h : Nat} {hole : Ptr} {ctx : Ctx K V h}, Ctx.In T hole ctx →
      T'.next hole = T.next hole → (∀ b ∈ ctx.addrs, b ∉ own ∧ b ∉ moved) → (∀ c ∈ ctx.cells, c ∉ cells) →
      Ctx.In T' hole ctx
  | _, _, .top, inCtx, next, _, _ => next.trans inCtx
  | h, hole, .frame f up, ⟨laid, inKids, inUp⟩, next, apart, cellsApart => by
      have ofKid : ∀ k ∈ f.before ++ f.after, ∀ b ∈ Tree.addrs h k, b ∈ Ctx.addrs (.frame f up) := by
        intro k member b inKid
        refine List.mem_cons_of_mem _ (List.mem_append_left _ ?_)
        rw [← List.flatMap_append]
        exact List.mem_flatMap.mpr ⟨k, member, inKid⟩
      have here : f.addr ∈ Ctx.addrs (.frame f up) := List.mem_cons_self ..
      have inUp' : ∀ b ∈ up.addrs, b ∈ Ctx.addrs (.frame f up) := fun b member =>
        List.mem_cons_of_mem _ (List.mem_append_right _ member)
      refine ⟨⟨?_, ?_, ?_, ?_, ?_⟩, fun k member => ?_, ?_⟩
      · exact (outside.parent _ (apart _ here).2).trans laid.parent
      · exact (outside.nodeSize _ (apart _ here).1).trans laid.nodeSize
      · rw [outside.head _ (apart _ here).1]
        refine laid.chain.congr fun c member => outside.pairNext c (cellsApart c ?_)
        exact List.mem_append_left _ (List.mem_append_left _ member)
      · intro e member
        have apartE := cellsApart e.addr
          (List.mem_append_left _ (List.mem_append_left _ (List.mem_map_of_mem member)))
        rw [outside.key _ apartE, outside.value _ apartE]
        exact laid.stored e member
      · rw [outside.child _ (apart _ here).1]
        refine laid.kids.congr fun b member => ?_
        rcases List.mem_append.mp member with inBefore | inAfter
        · obtain ⟨k, inKids, rfl⟩ := List.mem_map.mp inBefore
          exact outside.next _ (apart _ (ofKid k (List.mem_append_left _ inKids) _ (List.mem_cons_self ..))).2
        · rcases List.mem_cons.mp inAfter with rfl | inAfter
          · exact next
          · obtain ⟨k, inKids, rfl⟩ := List.mem_map.mp inAfter
            exact outside.next _ (apart _ (ofKid k (List.mem_append_right _ inKids) _ (List.mem_cons_self ..))).2
      · refine (inKids k member).outside outside ?_ (fun b inKid => ?_) (fun b inKid => ?_) fun c inKid => ?_
        · refine (outside.parent _ (apart _ (ofKid k member _ (List.mem_cons_self ..))).2).trans ?_
          cases h with
          | zero => exact Empty.elim k
          | succ h => exact (inKids k member).1.parent
        · exact (apart b (ofKid k member b inKid)).1
        · exact (apart b (ofKid k member b (List.mem_cons_of_mem _ inKid))).2
        · refine cellsApart c (List.mem_append_left _ (List.mem_append_right _ ?_))
          rw [← List.flatMap_append]
          exact List.mem_flatMap.mpr ⟨k, member, inKid⟩
      · refine inUp.outside outside (outside.next _ (apart _ here).2) (fun b member => apart b (inUp' b member))
          fun c member => cellsApart c (List.mem_append_right _ member)

/-! ## The focus -/

/-- The memory is the tree `t` in the context `ctx`. -/
structure Focus {h : Nat} (T : Btree σ K V) (ctx : Ctx K V h) (t : Tree K V h) : Prop where
  root : T.root = ctx.root (Tree.ptr h t)
  above : ctx.In T (Tree.ptr h t)
  below : Tree.In T h ctx.parent t
  nodup : (Tree.addrs h t ++ ctx.addrs).Nodup
  real : ∀ a ∈ Tree.addrs h t ++ ctx.addrs, a ≠ null
  cellsNodup : (Tree.cells h t ++ ctx.cells).Nodup
  cellsReal : ∀ c ∈ Tree.cells h t ++ ctx.cells, c ≠ null

section Focus

variable {T T' : Btree σ K V}

theorem Frame.addrs_perm {h : Nat} (f : Frame K V h) (t : Tree K V h) (up : Ctx K V (h + 1)) :
    (Tree.addrs h t ++ Ctx.addrs (.frame f up)).Perm (Tree.addrs (h + 1) (f.fill [t]) ++ up.addrs) := by
  refine List.perm_iff_count.mpr fun b => ?_
  simp only [Ctx.addrs, Frame.fill, Tree.addrs_node, List.flatMap_append, List.flatMap_cons, List.flatMap_nil,
    List.count_append, List.count_cons, List.append_nil]
  omega

theorem Frame.cells_perm {h : Nat} (f : Frame K V h) (t : Tree K V h) (up : Ctx K V (h + 1)) :
    (Tree.cells h t ++ Ctx.cells (.frame f up)).Perm (Tree.cells (h + 1) (f.fill [t]) ++ up.cells) := by
  refine List.perm_iff_count.mpr fun b => ?_
  simp only [Ctx.cells, Frame.fill, Tree.cells_node, List.flatMap_append, List.flatMap_cons, List.flatMap_nil,
    List.count_append, List.append_nil]
  omega

/-- The focus moves from the hole of a node to the node. -/
theorem Focus.up {h : Nat} {f : Frame K V h} {up : Ctx K V (h + 1)} {t : Tree K V h} :
    Focus T (.frame f up) t ↔ Focus T up (f.fill [t]) := by
  have perm := f.addrs_perm t up
  have cellsPerm := f.cells_perm t up
  have kids : (f.before ++ [t] ++ f.after).map (Tree.ptr h) =
      f.before.map (Tree.ptr h) ++ Tree.ptr h t :: f.after.map (Tree.ptr h) := by
    simp
  constructor
  · rintro ⟨root, ⟨laid, inKids, above⟩, below, nodup, real, cellsNodup, cellsReal⟩
    refine ⟨root, above, ⟨?_, fun k member => ?_⟩, perm.nodup_iff.mp nodup,
      fun a member => real a (perm.mem_iff.mpr member), cellsPerm.nodup_iff.mp cellsNodup,
      fun c member => cellsReal c (cellsPerm.mem_iff.mpr member)⟩
    · show Laid T up.parent f.addr (f.low ++ f.high) ((f.before ++ [t] ++ f.after).map (Tree.ptr h))
      rw [kids]
      exact laid
    · change k ∈ f.before ++ [t] ++ f.after at member
      simp only [List.append_assoc, List.mem_append, List.mem_singleton] at member
      rcases member with inBefore | rfl | inAfter
      · exact inKids k (List.mem_append_left _ inBefore)
      · exact below
      · exact inKids k (List.mem_append_right _ inAfter)
  · rintro ⟨root, above, below, nodup, real, cellsNodup, cellsReal⟩
    obtain ⟨laid, inKids⟩ := Tree.in_node.mp below
    rw [kids] at laid
    refine ⟨root, ⟨laid, fun k member => inKids k ?_, above⟩, inKids t ?_, perm.nodup_iff.mpr nodup,
      fun a member => real a (perm.mem_iff.mp member), cellsPerm.nodup_iff.mpr cellsNodup,
      fun c member => cellsReal c (cellsPerm.mem_iff.mp member)⟩
    · simp only [List.append_assoc, List.mem_append, List.mem_singleton] at member ⊢
      tauto
    · simp

/-- A list of addresses that has lost some and got others, which are fresh. -/
theorem nodup_exchange {lost extra old new ctx : List Ptr} (perm : (lost ++ new).Perm (extra ++ old))
    (extraNodup : extra.Nodup) (fresh : ∀ a ∈ extra, a ∉ old ++ ctx) (nodup : (old ++ ctx).Nodup) :
    (new ++ ctx).Nodup := by
  have all : (extra ++ (old ++ ctx)).Nodup := List.nodup_append.mpr ⟨extraNodup, nodup, by
    rintro a inExtra b member rfl
    exact fresh a inExtra member⟩
  rw [← List.append_assoc] at all
  have exchanged := (perm.append_right ctx).nodup_iff.mpr all
  rw [List.append_assoc] at exchanged
  exact (List.nodup_append.mp exchanged).2.1

/-- **A step that writes to the tree at the focus only.** -/
theorem Focus.replace {h : Nat} {ctx : Ctx K V h} {t t' : Tree K V h}
    {own moved cells lost extra lostCells extraCells : List Ptr} (focus : Focus T ctx t)
    (outside : Outside T T' own moved cells) (root : T'.root = T.root) (ptr : Tree.ptr h t' = Tree.ptr h t)
    (next : T'.next (Tree.ptr h t) = T.next (Tree.ptr h t)) (below : Tree.In T' h ctx.parent t')
    (addrs : (lost ++ Tree.addrs h t').Perm (extra ++ Tree.addrs h t)) (extraNodup : extra.Nodup)
    (fresh : ∀ a ∈ extra, a ≠ null ∧ a ∉ Tree.addrs h t ++ ctx.addrs)
    (cellsPerm : (lostCells ++ Tree.cells h t').Perm (extraCells ++ Tree.cells h t))
    (extraCellsNodup : extraCells.Nodup)
    (freshCells : ∀ c ∈ extraCells, c ≠ null ∧ c ∉ Tree.cells h t ++ ctx.cells)
    (written : ∀ b, b ∈ own ∨ b ∈ moved → b ∈ extra ++ Tree.addrs h t)
    (writtenCells : ∀ c ∈ cells, c ∈ extraCells ++ Tree.cells h t) : Focus T' ctx t' := by
  have notCtx : ∀ b ∈ extra ++ Tree.addrs h t, b ∉ ctx.addrs := by
    intro b member inCtx
    rcases List.mem_append.mp member with inExtra | inTree
    · exact (fresh b inExtra).2 (List.mem_append_right _ inCtx)
    · exact (List.nodup_append.mp focus.nodup).2.2 b inTree b inCtx rfl
  have notCtxCells : ∀ c ∈ extraCells ++ Tree.cells h t, c ∉ ctx.cells := by
    intro c member inCtx
    rcases List.mem_append.mp member with inExtra | inTree
    · exact (freshCells c inExtra).2 (List.mem_append_right _ inCtx)
    · exact (List.nodup_append.mp focus.cellsNodup).2.2 c inTree c inCtx rfl
  refine ⟨?_, ?_, below, nodup_exchange addrs extraNodup (fun a member => (fresh a member).2) focus.nodup,
    fun a member => ?_, nodup_exchange cellsPerm extraCellsNodup (fun c member => (freshCells c member).2)
      focus.cellsNodup, fun c member => ?_⟩
  · rw [root, focus.root, ptr]
  · rw [ptr]
    refine focus.above.outside outside next (fun b inCtx => ⟨?_, ?_⟩) fun c inCtx member => ?_
    · exact fun inOwn => notCtx b (written b (Or.inl inOwn)) inCtx
    · exact fun inMoved => notCtx b (written b (Or.inr inMoved)) inCtx
    · exact notCtxCells c (writtenCells c member) inCtx
  · rcases List.mem_append.mp member with inTree | inCtx
    · rcases List.mem_append.mp (addrs.mem_iff.mp (List.mem_append_right _ inTree)) with inExtra | old
      · exact (fresh a inExtra).1
      · exact focus.real a (List.mem_append_left _ old)
    · exact focus.real a (List.mem_append_right _ inCtx)
  · rcases List.mem_append.mp member with inTree | inCtx
    · rcases List.mem_append.mp (cellsPerm.mem_iff.mp (List.mem_append_right _ inTree)) with inExtra | old
      · exact (freshCells c inExtra).1
      · exact focus.cellsReal c (List.mem_append_left _ old)
    · exact focus.cellsReal c (List.mem_append_right _ inCtx)

/-- A step that writes to no node and to fresh pairs only. -/
theorem Focus.aside {h : Nat} {ctx : Ctx K V h} {t : Tree K V h} {cells : List Ptr} (focus : Focus T ctx t)
    (outside : Outside T T' [] [] cells) (root : T'.root = T.root) (nodup : cells.Nodup)
    (fresh : ∀ c ∈ cells, c ≠ null ∧ c ∉ Tree.cells h t ++ ctx.cells) : Focus T' ctx t := by
  have addrsPerm : ([] ++ Tree.addrs h t).Perm ([] ++ Tree.addrs h t) := .refl _
  have cellsPerm : (cells ++ Tree.cells h t).Perm (cells ++ Tree.cells h t) := .refl _
  refine focus.replace outside root rfl (outside.next _ (List.not_mem_nil)) ?_ addrsPerm List.nodup_nil nofun
    cellsPerm nodup fresh (fun b member => ?_) fun c member => List.mem_append_left _ member
  · refine focus.below.outside outside ?_ (fun _ _ => List.not_mem_nil) (fun _ _ => List.not_mem_nil)
      fun c inTree member => (fresh c member).2 (List.mem_append_left _ inTree)
    refine (outside.parent _ List.not_mem_nil).trans ?_
    cases h with
    | zero => exact Empty.elim t
    | succ h => exact focus.below.1.parent
  · simp at member

/-! ## Some neighbours -/

section Neighbours

variable {h : Nat} (ms : List (Tree K V (h + 1)))

/-- The children of some nodes. -/
def kidsOf : List (Tree K V h) := ms.flatMap fun m => m.kids

/-- Where their pairs are. -/
def ownCells : List Ptr := ms.flatMap fun m => m.entries.map Entry.addr

theorem addrs_perm {h : Nat} (ks : List (Tree K V h)) :
    (ks.flatMap (Tree.addrs h)).Perm (ks.map (Tree.ptr h) ++ ks.flatMap (Tree.under h)) := by
  have perm := List.flatMap_append_perm ks (fun k => [Tree.ptr h k]) (Tree.under h)
  rw [← List.map_eq_flatMap] at perm
  exact perm.symm

theorem under_kidsOf : ms.flatMap (Tree.under (h + 1)) = (kidsOf ms).flatMap (Tree.addrs h) := by
  rw [kidsOf, List.flatMap_assoc]
  rfl

theorem cells_perm : (ms.flatMap (Tree.cells (h + 1))).Perm (ownCells ms ++ (kidsOf ms).flatMap (Tree.cells h)) := by
  rw [kidsOf, List.flatMap_assoc]
  exact (List.flatMap_append_perm ..).symm

variable {ms}

theorem mem_kidsOf {k : Tree K V h} : k ∈ kidsOf ms ↔ ∃ m ∈ ms, k ∈ m.kids := List.mem_flatMap

end Neighbours

/-- The parent and the nodes beside them are elsewhere. -/
theorem Focus.besides {h : Nat} {ctx : Ctx K V (h + 2)} {p : Ptr} {entries : List (Entry K V)}
    {before after ms : List (Tree K V (h + 1))} (focus : Focus T ctx (.node p entries (before ++ ms ++ after))) :
    (∀ b ∈ ms.flatMap (Tree.addrs (h + 1)), b ≠ p ∧ b ∉ before.map (Tree.ptr (h + 1)) ∧
      b ∉ after.map (Tree.ptr (h + 1))) ∧
      ∀ c ∈ ms.flatMap (Tree.cells (h + 1)), c ∉ entries.map Entry.addr := by
  have nodup := (List.nodup_append.mp focus.nodup).1
  have cellsNodup := (List.nodup_append.mp focus.cellsNodup).1
  simp only [Tree.addrs_node, Tree.cells_node, List.flatMap_append, List.append_assoc, List.nodup_cons,
    List.nodup_append, List.mem_append, not_or] at nodup cellsNodup
  have ptrs : ∀ {ks : List (Tree K V (h + 1))} {b : Ptr}, b ∈ ks.map (Tree.ptr (h + 1)) →
      b ∈ ks.flatMap (Tree.addrs (h + 1)) := by
    intro ks b member
    rw [(addrs_perm ks).mem_iff]
    exact List.mem_append_left _ member
  refine ⟨fun b inMs => ⟨?_, fun inBefore => ?_, fun inAfter => ?_⟩, fun c inMs inEntries => ?_⟩
  · rintro rfl
    exact nodup.1.2.1 inMs
  · exact nodup.2.2.2 b (ptrs inBefore) b (Or.inl inMs) rfl
  · exact nodup.2.2.1.2.2 b inMs b (ptrs inAfter) rfl
  · exact cellsNodup.2.2 c inEntries c (Or.inr (Or.inl inMs)) rfl

/-- **A step that writes to some neighbours, and to the parent's pairs between them.** -/
theorem Focus.window {h : Nat} {ctx : Ctx K V (h + 2)} {p : Ptr} {entries entries' : List (Entry K V)}
    {before after ms ms' : List (Tree K V (h + 1))} {lost extra lostCells : List Ptr}
    (focus : Focus T ctx (.node p entries (before ++ ms ++ after)))
    (outside : Outside T T' (p :: (extra ++ ms.map (Tree.ptr (h + 1))))
      (extra ++ ms.map (Tree.ptr (h + 1)) ++ (kidsOf ms).map (Tree.ptr h))
      (entries.map Entry.addr ++ ownCells ms))
    (root : T'.root = T.root)
    (laid : Laid T' ctx.parent p entries' ((before ++ ms' ++ after).map (Tree.ptr (h + 1))))
    (new : ∀ m ∈ ms', Laid T' p m.addr m.entries (m.kids.map (Tree.ptr h)) ∧
      ∀ k ∈ m.kids, k ∈ kidsOf ms ∧ T'.parent (Tree.ptr h k) = m.addr)
    (addrs : (lost ++ ms'.flatMap (Tree.addrs (h + 1))).Perm (extra ++ ms.flatMap (Tree.addrs (h + 1))))
    (extraNodup : extra.Nodup) (extraReal : ∀ a ∈ extra, a ≠ null)
    (fresh : ∀ a ∈ extra, a ∉ Tree.addrs (h + 2) (.node p entries (before ++ ms ++ after)) ++ ctx.addrs)
    (cells : (lostCells ++ (entries'.map Entry.addr ++ ms'.flatMap (Tree.cells (h + 1)))).Perm
      (entries.map Entry.addr ++ ms.flatMap (Tree.cells (h + 1)))) :
    Focus T' ctx (.node p entries' (before ++ ms' ++ after)) := by
  have nodup := (List.nodup_append.mp focus.nodup).1
  have cellsNodup := (List.nodup_append.mp focus.cellsNodup).1
  simp only [Tree.addrs_node, Tree.cells_node, List.flatMap_append, List.append_assoc, List.nodup_cons,
    List.nodup_append, List.mem_append, not_or] at nodup cellsNodup
  obtain ⟨⟨pBefore, pMs, pAfter⟩, -, ⟨msNodup, -, msAfter⟩, beforeRest⟩ := nodup
  obtain ⟨-, ⟨-, ⟨msCellsNodup, -, msCellsAfter⟩, beforeCells⟩, entriesCells⟩ := cellsNodup
  -- the nodes, and what is under them
  have parts := (addrs_perm ms).nodup_iff.mp msNodup
  rw [under_kidsOf, List.nodup_append] at parts
  obtain ⟨-, kidsNodup, ptrKids⟩ := parts
  have kidParts := (addrs_perm (kidsOf ms)).nodup_iff.mp kidsNodup
  rw [List.nodup_append] at kidParts
  have cellParts := (cells_perm ms).nodup_iff.mp msCellsNodup
  rw [List.nodup_append] at cellParts
  have inMs : ∀ b, b ∈ ms.map (Tree.ptr (h + 1)) ∨ b ∈ (kidsOf ms).flatMap (Tree.addrs h) →
      b ∈ ms.flatMap (Tree.addrs (h + 1)) := by
    intro b member
    rw [(addrs_perm ms).mem_iff, under_kidsOf]
    exact List.mem_append.mpr member
  have kidPtr : ∀ b ∈ (kidsOf ms).map (Tree.ptr h), b ∈ (kidsOf ms).flatMap (Tree.addrs h) := by
    intro b member
    rw [(addrs_perm (kidsOf ms)).mem_iff]
    exact List.mem_append_left _ member
  have movedInMs : ∀ b ∈ ms.map (Tree.ptr (h + 1)) ++ (kidsOf ms).map (Tree.ptr h),
      b ∈ ms.flatMap (Tree.addrs (h + 1)) := by
    intro b member
    refine inMs b ((List.mem_append.mp member).imp id (kidPtr b))
  have old : ∀ b ∈ extra, b ≠ p ∧ b ∉ before.flatMap (Tree.addrs (h + 1)) ∧
      b ∉ ms.flatMap (Tree.addrs (h + 1)) ∧ b ∉ after.flatMap (Tree.addrs (h + 1)) := by
    intro b inExtra
    have notOld := fresh b inExtra
    simp only [Tree.addrs_node, List.flatMap_append, List.append_assoc, List.mem_append, List.mem_cons,
      not_or] at notOld
    tauto
  have pMoved : p ∉ extra ++ ms.map (Tree.ptr (h + 1)) ++ (kidsOf ms).map (Tree.ptr h) := by
    rw [List.append_assoc]
    intro member
    rcases List.mem_append.mp member with inExtra | moved
    · exact (old p inExtra).1 rfl
    · exact pMs (movedInMs p moved)
  have cellsMs : ∀ c, c ∈ ownCells ms ∨ c ∈ (kidsOf ms).flatMap (Tree.cells h) →
      c ∈ ms.flatMap (Tree.cells (h + 1)) := by
    intro c member
    rw [(cells_perm ms).mem_iff]
    exact List.mem_append.mpr member
  -- the neighbours on both sides are not touched
  have aside : ∀ k, k ∈ before ∨ k ∈ after → Tree.In T' (h + 1) p k := by
    intro k member
    have inFlat : ∀ b ∈ Tree.addrs (h + 1) k, b ∈ before.flatMap (Tree.addrs (h + 1)) ∨
        b ∈ after.flatMap (Tree.addrs (h + 1)) := fun b inKid =>
      member.imp (fun inBefore => List.mem_flatMap.mpr ⟨k, inBefore, inKid⟩)
        fun inAfter => List.mem_flatMap.mpr ⟨k, inAfter, inKid⟩
    have apart : ∀ b ∈ Tree.addrs (h + 1) k, b ≠ p ∧ b ∉ extra ∧ b ∉ ms.flatMap (Tree.addrs (h + 1)) := by
      intro b inKid
      refine ⟨?_, fun inExtra => ?_, fun inMs => ?_⟩
      · rintro rfl
        exact (inFlat b inKid).elim pBefore pAfter
      · exact (inFlat b inKid).elim (old b inExtra).2.1 (old b inExtra).2.2.2
      · rcases inFlat b inKid with inBefore | inAfter
        · exact beforeRest b inBefore b (Or.inl inMs) rfl
        · exact msAfter b inMs b inAfter rfl
    have notMoved : ∀ b ∈ Tree.addrs (h + 1) k,
        b ∉ extra ++ ms.map (Tree.ptr (h + 1)) ++ (kidsOf ms).map (Tree.ptr h) := by
      intro b inKid moved
      rw [List.append_assoc] at moved
      rcases List.mem_append.mp moved with inExtra | moved
      · exact (apart b inKid).2.1 inExtra
      · exact (apart b inKid).2.2 (movedInMs b moved)
    have inTree : k ∈ before ++ ms ++ after := by
      simp only [List.mem_append]
      tauto
    have stood := focus.below.2 k inTree
    refine stood.outside outside ?_ (fun b inKid own => ?_)
      (fun b inKid => notMoved b (List.mem_cons_of_mem _ inKid)) fun c inKid inCells => ?_
    · exact (outside.parent _ (notMoved _ (List.mem_cons_self ..))).trans stood.1.parent
    · rcases List.mem_cons.mp own with rfl | own
      · exact (apart b inKid).1 rfl
      · rcases List.mem_append.mp own with inExtra | inPtrs
        · exact (apart b inKid).2.1 inExtra
        · exact (apart b inKid).2.2 (inMs b (Or.inl inPtrs))
    · have inFlat : c ∈ before.flatMap (Tree.cells (h + 1)) ∨ c ∈ after.flatMap (Tree.cells (h + 1)) :=
        member.imp (fun inBefore => List.mem_flatMap.mpr ⟨k, inBefore, inKid⟩)
          fun inAfter => List.mem_flatMap.mpr ⟨k, inAfter, inKid⟩
      rcases List.mem_append.mp inCells with inEntries | inOwn
      · exact entriesCells c inEntries c (inFlat.imp id Or.inr) rfl
      · have inMsCells := cellsMs c (Or.inl inOwn)
        rcases inFlat with inBefore | inAfter
        · exact beforeCells c inBefore c (Or.inl inMsCells) rfl
        · exact msCellsAfter c inMsCells c inAfter rfl
  -- neither is what is under the children
  have under : ∀ k ∈ kidsOf ms, ∀ q, T'.parent (Tree.ptr h k) = q → Tree.In T' h q k := by
    intro k member q parent
    obtain ⟨m, inMs', inKids⟩ := mem_kidsOf.mp member
    have inTree : m ∈ before ++ ms ++ after := by
      simp only [List.mem_append]
      tauto
    have inKid := (focus.below.2 m inTree).2 k inKids
    have inFlat : ∀ b ∈ Tree.addrs h k, b ∈ (kidsOf ms).flatMap (Tree.addrs h) := fun b inKid =>
      List.mem_flatMap.mpr ⟨k, member, inKid⟩
    refine inKid.outside outside parent (fun b inKid own => ?_) (fun b inKid moved => ?_)
      fun c inKid inCells => ?_
    · rcases List.mem_cons.mp own with rfl | own
      · exact pMs (inMs b (Or.inr (inFlat b inKid)))
      · rcases List.mem_append.mp own with inExtra | inPtrs
        · exact (old b inExtra).2.2.1 (inMs b (Or.inr (inFlat b inKid)))
        · exact ptrKids b inPtrs b (inFlat b inKid) rfl
    · have inAddrs : b ∈ Tree.addrs h k := List.mem_cons_of_mem _ inKid
      rw [List.append_assoc] at moved
      rcases List.mem_append.mp moved with inExtra | moved
      · exact (old b inExtra).2.2.1 (inMs b (Or.inr (inFlat b inAddrs)))
      · rcases List.mem_append.mp moved with inPtrs | inKidPtrs
        · exact ptrKids b inPtrs b (inFlat b inAddrs) rfl
        · exact kidParts.2.2 b inKidPtrs b (List.mem_flatMap.mpr ⟨k, member, inKid⟩) rfl
    · have inFlat : c ∈ (kidsOf ms).flatMap (Tree.cells h) := List.mem_flatMap.mpr ⟨k, member, inKid⟩
      rcases List.mem_append.mp inCells with inEntries | inOwn
      · exact entriesCells c inEntries c (Or.inr (Or.inl (cellsMs c (Or.inr inFlat)))) rfl
      · exact cellParts.2.2 c inOwn c inFlat rfl
  have addrs' : (lost ++ Tree.addrs (h + 2) (.node p entries' (before ++ ms' ++ after))).Perm
      (extra ++ Tree.addrs (h + 2) (.node p entries (before ++ ms ++ after))) := by
    refine List.perm_iff_count.mpr fun b => ?_
    have count := List.perm_iff_count.mp addrs b
    simp only [Tree.addrs_node, List.flatMap_append, List.count_append, List.count_cons] at count ⊢
    omega
  have cells' : (lostCells ++ Tree.cells (h + 2) (.node p entries' (before ++ ms' ++ after))).Perm
      ([] ++ Tree.cells (h + 2) (.node p entries (before ++ ms ++ after))) := by
    refine List.perm_iff_count.mpr fun c => ?_
    have count := List.perm_iff_count.mp cells c
    simp only [Tree.cells_node, List.flatMap_append, List.count_append, List.nil_append] at count ⊢
    omega
  refine focus.replace outside root rfl (outside.next p pMoved) (Tree.in_node.mpr ⟨laid, fun k member => ?_⟩)
    addrs' extraNodup (fun a member => ⟨extraReal a member, fresh a member⟩) cells' List.nodup_nil nofun
    (fun b member => ?_) fun c member => ?_
  · simp only [List.append_assoc, List.mem_append] at member
    rcases member with inBefore | inNew | inAfter
    · exact aside k (Or.inl inBefore)
    · obtain ⟨laidK, kids⟩ := new k inNew
      exact ⟨laidK, fun k' inKids => under k' (kids k' inKids).1 _ (kids k' inKids).2⟩
    · exact aside k (Or.inr inAfter)
  · rw [Tree.addrs_node, List.flatMap_append, List.flatMap_append]
    have ofMs : ∀ b ∈ ms.map (Tree.ptr (h + 1)) ++ (kidsOf ms).map (Tree.ptr h), b ∈ extra ++ p ::
        (before.flatMap (Tree.addrs (h + 1)) ++ ms.flatMap (Tree.addrs (h + 1)) ++
          after.flatMap (Tree.addrs (h + 1))) := by
      intro b member
      have := movedInMs b member
      simp only [List.mem_append, List.mem_cons]
      tauto
    rcases member with own | moved
    · rcases List.mem_cons.mp own with rfl | own
      · simp
      · rcases List.mem_append.mp own with inExtra | inPtrs
        · exact List.mem_append_left _ inExtra
        · exact ofMs b (List.mem_append_left _ inPtrs)
    · rw [List.append_assoc] at moved
      rcases List.mem_append.mp moved with inExtra | moved
      · exact List.mem_append_left _ inExtra
      · exact ofMs b moved
  · rw [Tree.cells_node, List.flatMap_append, List.flatMap_append, List.nil_append]
    rcases List.mem_append.mp member with inEntries | inOwn
    · exact List.mem_append_left _ inEntries
    · have := cellsMs c (Or.inl inOwn)
      simp only [List.mem_append]
      tauto

end Focus

end Btree

end KTableFS.Index
