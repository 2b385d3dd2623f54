/-
# Index.RbtreeShape -- the trees in the memory of an `Rbtree`

`Tree` is a binary tree whose nodes carry their addresses, and a `Ctx` a tree with a hole,
from the hole outwards.  `Focus T ctx t` says that `T` holds the tree `t` in the context
`ctx`: every cell is what the shape says, parent pointers included, and no address occurs
twice.  Moving the focus up or down is a change of words only (`Focus.up`), so that each
write is shown where it happens: `Focus.setColor`, `relink_spec`, `Focus.rotate`.

Mirrored cases are one: `Tree.make side` builds a node from its `side` child and the other.
-/
import KTableFS.Index.Rbtree

namespace KTableFS.Index

open KTableFS.Theory

set_option autoImplicit false

@[simp] theorem Side.flip_flip (side : Side) : side.flip.flip = side := by
  cases side <;> rfl

theorem Side.eq_or_flip (side other : Side) : side = other ∨ side = other.flip := by
  cases side <;> cases other <;> simp [Side.flip]

namespace Rbtree

/-! ## Trees and contexts -/

inductive Tree (K V : Type) where
  | leaf
  | node (addr : Ptr) (color : Color) (left : Tree K V) (pair : K × V) (right : Tree K V)

/-- A node whose `side` child is the hole. -/
structure Frame (K V : Type) where
  side : Side
  addr : Ptr
  color : Color
  pair : K × V
  other : Tree K V

/-- A tree with a hole; the parent of the hole comes first. -/
abbrev Ctx (K V : Type) := List (Frame K V)

variable {σ K V : Type}

namespace Tree

/-- The pointer to a tree. -/
def ptr (nil : Ptr) : Tree K V → Ptr
  | .leaf => nil
  | .node addr .. => addr

def color : Tree K V → Color
  | .leaf => .black
  | .node _ color .. => color

def addrs : Tree K V → List Ptr
  | .leaf => []
  | .node addr _ l _ r => addr :: (l.addrs ++ r.addrs)

/-- The pairs in the order of the tree. -/
def pairs : Tree K V → List (K × V)
  | .leaf => []
  | .node _ _ l pair r => l.pairs ++ pair :: r.pairs

/-- A node with the `side` child `near` and the other child `far`. -/
def make (side : Side) (addr : Ptr) (color : Color) (pair : K × V) (near far : Tree K V) : Tree K V :=
  match side with
  | .left => .node addr color near pair far
  | .right => .node addr color far pair near

def blacken : Tree K V → Tree K V
  | .leaf => .leaf
  | .node addr _ l pair r => .node addr .black l pair r

section Make

variable (side : Side) (addr : Ptr) (c : Color) (pair : K × V) (near far : Tree K V)

@[simp] theorem ptr_leaf (nil : Ptr) : (leaf : Tree K V).ptr nil = nil := rfl

@[simp] theorem ptr_node (nil : Ptr) : (node addr c near pair far).ptr nil = addr := rfl

@[simp] theorem color_leaf : (leaf : Tree K V).color = .black := rfl

@[simp] theorem ptr_make (nil : Ptr) : (make side addr c pair near far).ptr nil = addr := by
  cases side <;> rfl

@[simp] theorem color_make : (make side addr c pair near far).color = c := by
  cases side <;> rfl

theorem make_ne_leaf : make side addr c pair near far ≠ .leaf := by
  cases side <;> exact nofun

theorem mem_addrs_make {a : Ptr} : a ∈ (make side addr c pair near far).addrs ↔
    a = addr ∨ a ∈ near.addrs ∨ a ∈ far.addrs := by
  cases side
  · simp [make, addrs]
  · simp [make, addrs, or_comm]

theorem addrs_make_perm : (make side addr c pair near far).addrs.Perm
    (addr :: (near.addrs ++ far.addrs)) := by
  cases side
  · exact .refl _
  · exact List.perm_append_comm.cons addr

theorem make_flip : make side.flip addr c pair near far = make side addr c pair far near := by
  cases side <;> rfl

@[simp] theorem blacken_make :
    (make side addr c pair near far).blacken = make side addr .black pair near far := by
  cases side <;> rfl

end Make

/-- Every node has a near and a far child. -/
theorem exists_make (side : Side) {t : Tree K V} (nil : Ptr) (real : t ≠ .leaf) :
    ∃ pair near far, t = make side (t.ptr nil) t.color pair near far := by
  cases t with
  | leaf => exact absurd rfl real
  | node addr c l pair r =>
      cases side with
      | left => exact ⟨pair, l, r, rfl⟩
      | right => exact ⟨pair, r, l, rfl⟩

end Tree

/-- The hole filled. -/
def Frame.plug (f : Frame K V) (t : Tree K V) : Tree K V :=
  .make f.side f.addr f.color f.pair t f.other

namespace Ctx

def plug : Ctx K V → Tree K V → Tree K V
  | [], t => t
  | f :: up, t => plug up (f.plug t)

/-- The parent of the hole. -/
def parent (nil : Ptr) : Ctx K V → Ptr
  | [] => nil
  | f :: _ => f.addr

/-- The root, if the hole is filled with a tree at `hole`. -/
def root (hole : Ptr) : Ctx K V → Ptr
  | [] => hole
  | f :: up => root f.addr up

def addrs : Ctx K V → List Ptr
  | [] => []
  | f :: up => f.addr :: (f.other.addrs ++ addrs up)

/-- The pairs before the hole, and those behind it. -/
def low : Ctx K V → List (K × V)
  | [] => []
  | ⟨.left, _, _, _, _⟩ :: up => low up
  | ⟨.right, _, _, pair, other⟩ :: up => low up ++ (other.pairs ++ [pair])

def high : Ctx K V → List (K × V)
  | [] => []
  | ⟨.left, _, _, pair, other⟩ :: up => pair :: (other.pairs ++ high up)
  | ⟨.right, _, _, _, _⟩ :: up => high up

theorem pairs_plug : ∀ (ctx : Ctx K V) (t : Tree K V),
    (plug ctx t).pairs = low ctx ++ (t.pairs ++ high ctx)
  | [], t => (List.append_nil _).symm
  | ⟨.left, addr, color, pair, other⟩ :: up, t => by
      rw [plug, pairs_plug up]
      simp [Frame.plug, Tree.make, Tree.pairs, low, high]
  | ⟨.right, addr, color, pair, other⟩ :: up, t => by
      rw [plug, pairs_plug up]
      simp [Frame.plug, Tree.make, Tree.pairs, low, high]

theorem plug_ne_leaf : ∀ (ctx : Ctx K V) {t : Tree K V}, t ≠ .leaf → plug ctx t ≠ .leaf
  | [], _, real => real
  | f :: up, t, _ => plug_ne_leaf up (t := f.plug t) (Tree.make_ne_leaf _ _ _ _ _ _)

theorem addrs_append (inner outer : Ctx K V) : addrs (inner ++ outer) = addrs inner ++ addrs outer := by
  induction inner with
  | nil => rfl
  | cons f inner ih => simp only [List.cons_append, addrs, ih, List.append_assoc]

theorem addrs_plug_perm : ∀ (ctx : Ctx K V) (t : Tree K V),
    (plug ctx t).addrs.Perm (t.addrs ++ addrs ctx)
  | [], t => by rw [plug, addrs, List.append_nil]
  | f :: up, t => by
      have made := (Tree.addrs_make_perm f.side f.addr f.color f.pair t f.other).append_right (addrs up)
      refine ((addrs_plug_perm up (f.plug t)).trans made).trans ?_
      rw [List.cons_append, List.append_assoc]
      exact List.perm_middle.symm

theorem mem_addrs_plug {a : Ptr} {ctx : Ctx K V} {t : Tree K V} :
    a ∈ (plug ctx t).addrs ↔ a ∈ t.addrs ∨ a ∈ addrs ctx := by
  rw [(addrs_plug_perm ctx t).mem_iff, List.mem_append]

theorem length_le_plug : ∀ (ctx : Ctx K V) (t : Tree K V),
    ctx.length + t.pairs.length ≤ (plug ctx t).pairs.length
  | [], t => by simp [plug]
  | f :: up, t => by
      have rest := length_le_plug up (f.plug t)
      have made : (f.plug t).pairs.length = f.other.pairs.length + t.pairs.length + 1 := by
        obtain ⟨side, addr, color, pair, other⟩ := f
        cases side <;> simp [Frame.plug, Tree.make, Tree.pairs] <;> omega
      rw [plug, List.length_cons]
      omega

theorem plug_append (inner : Ctx K V) : ∀ (outer : Ctx K V) (t : Tree K V),
    plug (inner ++ outer) t = plug outer (plug inner t) := by
  induction inner with
  | nil => exact fun _ _ => rfl
  | cons f inner ih => exact fun outer t => ih outer (f.plug t)

end Ctx

/-! ## What the memory holds -/

/-- The cell of a node with these neighbours. -/
def cell (side : Side) (parent near far : Ptr) (pair : K × V) (color : Color) : RbtreeNode K V :=
  match side with
  | .left => ⟨parent, near, far, pair.1, pair.2, color⟩
  | .right => ⟨parent, far, near, pair.1, pair.2, color⟩

/-- The memory holds a tree whose root has this parent. -/
def Tree.In (nil : Ptr) (h : Ptr → RbtreeNode K V) : Ptr → Tree K V → Prop
  | _, .leaf => True
  | parent, .node addr color l pair r =>
      h addr = cell .left parent (l.ptr nil) (r.ptr nil) pair color ∧ l.In nil h addr ∧ r.In nil h addr

/-- The memory holds a context whose hole is filled with a tree at `hole`. -/
def Ctx.In (nil : Ptr) (h : Ptr → RbtreeNode K V) : Ptr → Ctx K V → Prop
  | _, [] => True
  | hole, f :: up =>
      h f.addr = cell f.side (Ctx.parent nil up) hole (f.other.ptr nil) f.pair f.color ∧
        f.other.In nil h f.addr ∧ Ctx.In nil h f.addr up

variable {nil : Ptr} {h h' : Ptr → RbtreeNode K V}

theorem Tree.in_make {side : Side} {parent addr : Ptr} {c : Color} {pair : K × V} {near far : Tree K V} :
    (make side addr c pair near far).In nil h parent ↔
      h addr = cell side parent (near.ptr nil) (far.ptr nil) pair c ∧
        near.In nil h addr ∧ far.In nil h addr := by
  cases side with
  | left => exact Iff.rfl
  | right => exact and_congr_right fun _ => and_comm

/-- Writes elsewhere leave a tree alone. -/
theorem Tree.In.congr : ∀ {t : Tree K V} {parent : Ptr}, t.In nil h parent →
    (∀ a ∈ t.addrs, h' a = h a) → t.In nil h' parent
  | .leaf, _, _, _ => trivial
  | .node addr color l pair r, parent, ⟨here, inL, inR⟩, same => by
      refine ⟨(same addr (by simp [addrs])).trans here, inL.congr fun a member => same a ?_,
        inR.congr fun a member => same a ?_⟩
      · simp [addrs, member]
      · simp [addrs, member]

theorem Ctx.In.congr : ∀ {ctx : Ctx K V} {hole : Ptr}, Ctx.In nil h hole ctx →
    (∀ a ∈ Ctx.addrs ctx, h' a = h a) → Ctx.In nil h' hole ctx
  | [], _, _, _ => trivial
  | f :: up, hole, ⟨here, inOther, inUp⟩, same => by
      refine ⟨(same f.addr (by simp [addrs])).trans here, inOther.congr fun a member => same a ?_,
        Ctx.In.congr inUp fun a member => same a ?_⟩
      · simp [addrs, member]
      · simp [addrs, member]

theorem Tree.ptr_mem {t : Tree K V} (real : t.ptr nil ≠ nil) : t.ptr nil ∈ t.addrs := by
  cases t with
  | leaf => exact absurd rfl real
  | node addr color l pair r => exact List.mem_cons_self ..

/-- The root of a tree gets another parent. -/
theorem Tree.In.adopt {t : Tree K V} {parent parent' : Ptr} (inT : t.In nil h parent)
    (nodup : t.addrs.Nodup) (root : ∀ a ∈ t.addrs, a = t.ptr nil → h' a = { h a with parent := parent' })
    (rest : ∀ a ∈ t.addrs, a ≠ t.ptr nil → h' a = h a) : t.In nil h' parent' := by
  cases t with
  | leaf => trivial
  | node addr color l pair r =>
      obtain ⟨here, inL, inR⟩ := inT
      rw [addrs, List.nodup_cons] at nodup
      have apart : ∀ a ∈ l.addrs ++ r.addrs, h' a = h a := by
        intro a member
        refine rest a (List.mem_cons_of_mem _ member) ?_
        rintro rfl
        exact nodup.1 member
      refine ⟨?_, inL.congr fun a member => apart a (List.mem_append_left _ member),
        inR.congr fun a member => apart a (List.mem_append_right _ member)⟩
      rw [root addr (List.mem_cons_self ..) rfl, here]
      rfl

/-- The color of a tree is that of its root, also of no tree. -/
theorem Tree.In.color {t : Tree K V} {parent : Ptr} (inT : t.In nil h parent)
    (black : (h nil).color = .black) : (h (t.ptr nil)).color = t.color := by
  cases t with
  | leaf => exact black
  | node addr color l pair r =>
      rw [Tree.ptr, inT.1]
      rfl

/-! ## Reading and writing cells -/

/-- A cell is written. -/
def write (T : Rbtree σ K V) (a : Ptr) (node : RbtreeNode K V) : Rbtree σ K V :=
  { T with heap := Function.update T.heap a node }

section Cells

variable {T : Rbtree σ K V} {a near far parent : Ptr} {side : Side} {pair : K × V} {c : Color}

theorem assign_eq (real : a ≠ null) (f : RbtreeNode K V → RbtreeNode K V) :
    T.assign a f = some (T.write a (f (T.heap a))) := if_neg real

@[simp] theorem write_self (node : RbtreeNode K V) : (T.write a node).heap a = node :=
  Function.update_self ..

theorem write_other {b : Ptr} (node : RbtreeNode K V) (other : b ≠ a) :
    (T.write a node).heap b = T.heap b := Function.update_of_ne other ..

@[simp] theorem write_nil (node : RbtreeNode K V) : (T.write a node).nil = T.nil := rfl

theorem color_eq (real : a ≠ null) : T.color a = some (T.heap a).color := by
  rw [color, deref, if_neg real, Option.map_some]

theorem parent_eq (real : a ≠ null) : T.parent a = some (T.heap a).parent := by
  rw [Rbtree.parent, deref, if_neg real, Option.map_some]

theorem left_eq (real : a ≠ null) : T.left a = some (T.heap a).left := by
  rw [left, child, deref, if_neg real, Option.map_some]

theorem right_eq (real : a ≠ null) : T.right a = some (T.heap a).right := by
  rw [right, child, deref, if_neg real, Option.map_some]

theorem child_near (here : T.heap a = cell side parent near far pair c) (real : a ≠ null) :
    T.child side a = some near := by
  rw [child, deref, if_neg real, Option.map_some, here]
  cases side <;> rfl

theorem child_far (here : T.heap a = cell side parent near far pair c) (real : a ≠ null) :
    T.child side.flip a = some far := by
  rw [child, deref, if_neg real, Option.map_some, here]
  cases side <;> rfl

theorem parent_cell (here : T.heap a = cell side parent near far pair c) (real : a ≠ null) :
    T.parent a = some parent := by
  rw [parent_eq real, here]
  cases side <;> rfl

theorem color_cell (here : T.heap a = cell side parent near far pair c) (real : a ≠ null) :
    T.color a = some c := by
  rw [color_eq real, here]
  cases side <;> rfl

theorem key_cell (here : T.heap a = cell side parent near far pair c) (real : a ≠ null) :
    T.key a = some pair.1 := by
  rw [key, deref, if_neg real, Option.map_some, here]
  cases side <;> rfl

theorem value_cell (here : T.heap a = cell side parent near far pair c) (real : a ≠ null) :
    T.value a = some pair.2 := by
  rw [value, deref, if_neg real, Option.map_some, here]
  cases side <;> rfl

/-- Writes of one field. -/
theorem setChild_cell (here : T.heap a = cell side parent near far pair c) (real : a ≠ null) (q : Ptr) :
    T.setChild side a q = some (T.write a (cell side parent q far pair c)) := by
  rw [setChild, assign_eq real, here]
  cases side <;> rfl

theorem setParent_cell (here : T.heap a = cell side parent near far pair c) (real : a ≠ null) (q : Ptr) :
    T.setParent a q = some (T.write a (cell side q near far pair c)) := by
  rw [setParent, assign_eq real, here]
  cases side <;> rfl

end Cells

/-! ## The focus -/

/-- The memory is the tree `t` in the context `ctx`, and the sentinel. -/
structure Focus (T : Rbtree σ K V) (ctx : Ctx K V) (t : Tree K V) : Prop where
  root : T.root = Ctx.root (t.ptr T.nil) ctx
  above : Ctx.In T.nil T.heap (t.ptr T.nil) ctx
  below : t.In T.nil T.heap (Ctx.parent T.nil ctx)
  nodup : (t.addrs ++ Ctx.addrs ctx).Nodup
  real : ∀ a ∈ t.addrs ++ Ctx.addrs ctx, a ≠ null ∧ a ≠ T.nil
  sentinel : T.nil ≠ null
  black : (T.heap T.nil).color = .black

/-- What the writes to the nodes of a tree leave alone. -/
structure Kept (T T' : Rbtree σ K V) : Prop where
  nil : T'.nil = T.nil
  size : T'.size = T.size
  nodeSlab : T'.nodeSlab = T.nodeSlab
  sentinel : T'.heap T.nil = T.heap T.nil

theorem Kept.refl (T : Rbtree σ K V) : Kept T T := ⟨rfl, rfl, rfl, rfl⟩

theorem Kept.trans {T T' T'' : Rbtree σ K V} (first : Kept T T') (second : Kept T' T'') : Kept T T'' where
  nil := second.nil.trans first.nil
  size := second.size.trans first.size
  nodeSlab := second.nodeSlab.trans first.nodeSlab
  sentinel := by
    have kept := second.sentinel
    rw [first.nil] at kept
    exact kept.trans first.sentinel

theorem write_kept {T : Rbtree σ K V} {a : Ptr} (node : RbtreeNode K V) (real : a ≠ T.nil) :
    Kept T (T.write a node) :=
  ⟨rfl, rfl, rfl, write_other node (Ne.symm real)⟩

section Focus

variable {T : Rbtree σ K V} {ctx : Ctx K V} {t : Tree K V}

/-- The focus moves from the hole of a node to the node. -/
theorem Focus.up {f : Frame K V} : Focus T (f :: ctx) t ↔ Focus T ctx (f.plug t) := by
  have perm : (t.addrs ++ Ctx.addrs (f :: ctx)).Perm ((f.plug t).addrs ++ Ctx.addrs ctx) := by
    have made := (Tree.addrs_make_perm f.side f.addr f.color f.pair t f.other).append_right (Ctx.addrs ctx)
    refine List.Perm.trans ?_ made.symm
    rw [List.cons_append, List.append_assoc]
    exact List.perm_middle
  constructor
  · rintro ⟨root, ⟨here, inOther, above⟩, below, nodup, real, sentinel, black⟩
    refine ⟨?_, ?_, Tree.in_make.mpr ⟨here, below, inOther⟩, perm.nodup_iff.mp nodup,
      fun a member => real a (perm.mem_iff.mpr member), sentinel, black⟩
    · rw [Frame.plug, Tree.ptr_make]
      exact root
    · rw [Frame.plug, Tree.ptr_make]
      exact above
  · rintro ⟨root, above, below, nodup, real, sentinel, black⟩
    rw [Frame.plug, Tree.ptr_make] at root above
    obtain ⟨here, below, inOther⟩ := Tree.in_make.mp below
    exact ⟨root, ⟨here, inOther, above⟩, below, perm.nodup_iff.mpr nodup,
      fun a member => real a (perm.mem_iff.mp member), sentinel, black⟩

theorem Focus.plug : ∀ {ctx inner : Ctx K V} {t : Tree K V},
    Focus T (inner ++ ctx) t ↔ Focus T ctx (Ctx.plug inner t)
  | _, [], _ => Iff.rfl
  | _, _ :: _, _ => Focus.up.trans Focus.plug

/-- The focus moves to the root. -/
theorem Focus.whole : Focus T ctx t ↔ Focus T [] (Ctx.plug ctx t) := by
  have atRoot : Focus T (ctx ++ []) t ↔ Focus T [] (Ctx.plug ctx t) := Focus.plug
  rwa [List.append_nil] at atRoot

/-- Writes to memory that is not of the tree. -/
theorem Focus.congr {σ' : Type} {T' : Rbtree σ' K V} (focus : Focus T ctx t) (root : T'.root = T.root)
    (nil : T'.nil = T.nil) (same : ∀ a ∈ t.addrs ++ Ctx.addrs ctx, T'.heap a = T.heap a)
    (sentinel : (T'.heap T.nil).color = (T.heap T.nil).color) : Focus T' ctx t where
  root := by rw [root, nil, focus.root]
  above := by
    rw [nil]
    exact Ctx.In.congr focus.above fun a member => same a (List.mem_append_right _ member)
  below := by
    rw [nil]
    exact focus.below.congr fun a member => same a (List.mem_append_left _ member)
  nodup := focus.nodup
  real := nil ▸ focus.real
  sentinel := nil ▸ focus.sentinel
  black := by rw [nil, sentinel, focus.black]

end Focus

section Made

variable {T : Rbtree σ K V} {ctx : Ctx K V} {side : Side} {a : Ptr} {c : Color} {pair : K × V}
  {near far : Tree K V}

theorem Focus.cell (focus : Focus T ctx (.make side a c pair near far)) :
    T.heap a = cell side (Ctx.parent T.nil ctx) (near.ptr T.nil) (far.ptr T.nil) pair c :=
  (Tree.in_make.mp focus.below).1

theorem Focus.addr_real (focus : Focus T ctx (.make side a c pair near far)) : a ≠ null ∧ a ≠ T.nil :=
  focus.real a (List.mem_append_left _ ((Tree.mem_addrs_make ..).mpr (Or.inl rfl)))

/-- The addresses of a node, its children and its context are apart. -/
structure Apart (a : Ptr) (near far ctx : List Ptr) : Prop where
  notNear : a ∉ near
  notFar : a ∉ far
  notCtx : a ∉ ctx
  nodupNear : near.Nodup
  nodupFar : far.Nodup
  nodupCtx : ctx.Nodup
  nearFar : ∀ b ∈ near, b ∉ far
  nearCtx : ∀ b ∈ near, b ∉ ctx
  farCtx : ∀ b ∈ far, b ∉ ctx

theorem apart_iff {a : Ptr} {near far ctx : List Ptr} :
    (a :: (near ++ far) ++ ctx).Nodup ↔ Apart a near far ctx := by
  simp only [List.cons_append, List.nodup_cons, List.mem_append, not_or, List.nodup_append]
  constructor
  · rintro ⟨⟨⟨inNear, inFar⟩, inCtx⟩, ⟨nearNodup, farNodup, nearFar⟩, ctxNodup, apart⟩
    exact ⟨inNear, inFar, inCtx, nearNodup, farNodup, ctxNodup,
      fun b inB inF => nearFar b inB b inF rfl, fun b inB inC => apart b (Or.inl inB) b inC rfl,
      fun b inB inC => apart b (Or.inr inB) b inC rfl⟩
  · intro apart
    refine ⟨⟨⟨apart.notNear, apart.notFar⟩, apart.notCtx⟩, ⟨apart.nodupNear, apart.nodupFar, ?_⟩,
      apart.nodupCtx, ?_⟩
    · rintro b inNear _ inFar rfl
      exact apart.nearFar b inNear inFar
    · rintro b (inNear | inFar) _ inCtx rfl
      · exact apart.nearCtx b inNear inCtx
      · exact apart.farCtx b inFar inCtx

theorem Focus.apart (focus : Focus T ctx (.make side a c pair near far)) :
    Apart a near.addrs far.addrs (Ctx.addrs ctx) :=
  apart_iff.mp (((Tree.addrs_make_perm side a c pair near far).append_right _).nodup_iff.mp focus.nodup)

end Made

/-! ## Writes under the focus -/

section Writes

variable {T : Rbtree σ K V} {ctx : Ctx K V} {side : Side} {a : Ptr} {c : Color} {pair : K × V}
  {near far : Tree K V}

/-- A node gets another color. -/
theorem Focus.setColor (focus : Focus T ctx (.make side a c pair near far)) (c' : Color) :
    ∃ T', T.setColor a c' = some T' ∧ Focus T' ctx (.make side a c' pair near far) ∧ Kept T T' := by
  obtain ⟨notNull, notNil⟩ := focus.addr_real
  have apart := focus.apart
  obtain ⟨-, inNear, inFar⟩ := Tree.in_make.mp focus.below
  have sameAddrs : (Tree.make side a c' pair near far).addrs = (Tree.make side a c pair near far).addrs := by
    cases side <;> rfl
  have elsewhere : ∀ b, b ≠ a → (T.write a { T.heap a with color := c' }).heap b = T.heap b :=
    fun b other => write_other _ other
  refine ⟨_, assign_eq notNull _, ⟨?_, ?_, Tree.in_make.mpr ⟨?_, ?_, ?_⟩, sameAddrs ▸ focus.nodup,
    sameAddrs ▸ focus.real, focus.sentinel, ?_⟩, rfl, rfl, rfl, ?_⟩
  · exact focus.root.trans (congrArg (fun p => Ctx.root p ctx)
      ((Tree.ptr_make ..).trans (Tree.ptr_make ..).symm))
  · have above := focus.above
    rw [Tree.ptr_make] at above ⊢
    refine Ctx.In.congr above fun b member => elsewhere b ?_
    rintro rfl
    exact apart.notCtx member
  · rw [write_self, focus.cell]
    cases side <;> rfl
  · refine inNear.congr fun b member => elsewhere b ?_
    rintro rfl
    exact apart.notNear member
  · refine inFar.congr fun b member => elsewhere b ?_
    rintro rfl
    exact apart.notFar member
  · exact (congrArg RbtreeNode.color (elsewhere T.nil (Ne.symm notNil))).trans focus.black
  · exact elsewhere T.nil (Ne.symm notNil)

/-- The hole is filled with another tree. -/
theorem relink_spec {u : Ptr} (v : Ptr) (root : T.root = Ctx.root u ctx)
    (above : Ctx.In T.nil T.heap u ctx) (up : (T.heap u).parent = Ctx.parent T.nil ctx)
    (notNull : u ≠ null) (notNil : u ≠ T.nil) (notCtx : u ∉ Ctx.addrs ctx)
    (nodup : (Ctx.addrs ctx).Nodup) (real : ∀ b ∈ Ctx.addrs ctx, b ≠ null ∧ b ≠ T.nil) :
    ∃ T', T.relink u v = some T' ∧ T'.root = Ctx.root v ctx ∧ Ctx.In T.nil T'.heap v ctx ∧ Kept T T' ∧
      ∀ b, b ∉ Ctx.addrs ctx → T'.heap b = T.heap b := by
  cases ctx with
  | nil =>
      refine ⟨T.setRoot v, ?_, rfl, trivial, ⟨rfl, rfl, rfl, rfl⟩, fun _ _ => rfl⟩
      simp only [relink, parent_eq notNull, up, Ctx.parent, Option.bind_eq_bind, Option.bind_some, if_true]
  | cons f outer =>
      obtain ⟨here, inOther, inUp⟩ := above
      obtain ⟨addrNull, addrNil⟩ := real f.addr (List.mem_cons_self ..)
      rw [Ctx.addrs, List.nodup_cons, List.mem_append, not_or] at nodup
      rw [Ctx.addrs, List.mem_cons, List.mem_append, not_or, not_or] at notCtx
      -- the write to the parent's cell
      have written : ∃ node : RbtreeNode K V,
          node = cell f.side (Ctx.parent T.nil outer) v (f.other.ptr T.nil) f.pair f.color ∧
          T.relink u v = some (T.write f.addr node) := by
        obtain ⟨side, addr, color, pair, other⟩ := f
        cases side with
        | left =>
            have near : T.left addr = some u := child_near here addrNull
            refine ⟨_, rfl, ?_⟩
            simp only [relink, parent_eq notNull, up, Ctx.parent, Option.bind_eq_bind, Option.bind_some,
              if_neg addrNil, near, if_true, setLeft, setChild, assign_eq addrNull, here]
            rfl
        | right =>
            have near : T.left addr = some (other.ptr T.nil) := child_far here addrNull
            have differ : u ≠ other.ptr T.nil := by
              intro same
              by_cases isNil : other.ptr T.nil = T.nil
              · exact notNil (same.trans isNil)
              · exact notCtx.2.1 (same ▸ Tree.ptr_mem isNil)
            refine ⟨_, rfl, ?_⟩
            simp only [relink, parent_eq notNull, up, Ctx.parent, Option.bind_eq_bind, Option.bind_some,
              if_neg addrNil, near, if_neg differ, setRight, setChild, assign_eq addrNull, here]
            rfl
      obtain ⟨node, rfl, relinked⟩ := written
      have elsewhere : ∀ b, b ≠ f.addr → (T.write f.addr
          (cell f.side (Ctx.parent T.nil outer) v (f.other.ptr T.nil) f.pair f.color)).heap b = T.heap b :=
        fun b other => write_other _ other
      refine ⟨_, relinked, root, ⟨write_self _, ?_, ?_⟩,
        ⟨rfl, rfl, rfl, elsewhere T.nil (Ne.symm addrNil)⟩, fun b other => elsewhere b ?_⟩
      · refine inOther.congr fun b member => elsewhere b ?_
        rintro rfl
        exact nodup.1.1 member
      · refine Ctx.In.congr inUp fun b member => elsewhere b ?_
        rintro rfl
        exact nodup.1.2 member
      · rintro rfl
        exact other (List.mem_cons_self ..)

/-- A tree, if it is one, gets another parent. -/
theorem adopt_spec {t : Tree K V} {p : Ptr} (q : Ptr) (inT : t.In T.nil T.heap p) (nodup : t.addrs.Nodup)
    (real : ∀ b ∈ t.addrs, b ≠ null ∧ b ≠ T.nil) :
    ∃ T', (if t.ptr T.nil ≠ T.nil then T.setParent (t.ptr T.nil) q else some T) = some T' ∧
      t.In T.nil T'.heap q ∧ T'.root = T.root ∧ Kept T T' ∧ ∀ b, b ∉ t.addrs → T'.heap b = T.heap b := by
  by_cases isNil : t.ptr T.nil = T.nil
  · refine ⟨T, if_neg fun differ => differ isNil, ?_, rfl, .refl T, fun _ _ => rfl⟩
    cases t with
    | leaf => trivial
    | node addr c l pair r => exact absurd isNil (real addr (List.mem_cons_self ..)).2
  · have member := Tree.ptr_mem isNil
    obtain ⟨notNull, notNil⟩ := real _ member
    have elsewhere : ∀ b, b ≠ t.ptr T.nil → (T.write (t.ptr T.nil)
        { T.heap (t.ptr T.nil) with parent := q }).heap b = T.heap b := fun b other => write_other _ other
    refine ⟨_, (if_pos isNil).trans (assign_eq notNull _), ?_, rfl,
      ⟨rfl, rfl, rfl, elsewhere T.nil (Ne.symm notNil)⟩, fun b other => elsewhere b ?_⟩
    · refine inT.adopt nodup (fun b _ same => ?_) fun b _ other => elsewhere b other
      rw [same]
      exact write_self _
    · rintro rfl
      exact other member

/-- **A rotation.**  The inner subtree goes from `y` to `x`, and `x` under `y`. -/
theorem Focus.rotate {x y : Ptr} {cx cy : Color} {px py : K × V} {inner outer rest : Tree K V}
    (focus : Focus T ctx (.make side.flip x cx px (.make side y cy py inner outer) rest)) :
    ∃ T', T.rotate side x = some T' ∧
      Focus T' ctx (.make side y cy py (.make side.flip x cx px inner rest) outer) ∧ Kept T T' := by
  obtain ⟨xNull, xNil⟩ := focus.addr_real
  have apart := focus.apart
  obtain ⟨cellX, inY, inRest⟩ := Tree.in_make.mp focus.below
  obtain ⟨cellY, inInner, inOuter⟩ := Tree.in_make.mp inY
  rw [Tree.ptr_make] at cellX
  -- what the addresses say
  have yIn : y ∈ (Tree.make side y cy py inner outer).addrs := (Tree.mem_addrs_make ..).mpr (Or.inl rfl)
  have innerIn : ∀ b ∈ inner.addrs, b ∈ (Tree.make side y cy py inner outer).addrs := fun b member =>
    (Tree.mem_addrs_make ..).mpr (Or.inr (Or.inl member))
  have outerIn : ∀ b ∈ outer.addrs, b ∈ (Tree.make side y cy py inner outer).addrs := fun b member =>
    (Tree.mem_addrs_make ..).mpr (Or.inr (Or.inr member))
  have apartY : Apart y inner.addrs outer.addrs [] := by
    rw [← apart_iff, List.append_nil]
    exact (Tree.addrs_make_perm ..).nodup_iff.mp apart.nodupNear
  have xy : x ≠ y := fun same => apart.notNear (same ▸ yIn)
  have yCtx := apart.nearCtx y yIn
  have realOf : ∀ b ∈ (Tree.make side y cy py inner outer).addrs, b ≠ null ∧ b ≠ T.nil := fun b member =>
    focus.real b (List.mem_append_left _ ((Tree.mem_addrs_make ..).mpr (Or.inr (Or.inl member))))
  obtain ⟨yNull, yNil⟩ := realOf y yIn
  -- the writes before the parent of `x` is looked at
  let T₁ := T.write x
    (Rbtree.cell side.flip (Ctx.parent T.nil ctx) (inner.ptr T.nil) (rest.ptr T.nil) px cx)
  have other₁ : ∀ b, b ≠ x → T₁.heap b = T.heap b := fun b other => write_other _ other
  have inInner₁ : inner.In T₁.nil T₁.heap y := inInner.congr fun b member => other₁ b (by
    rintro rfl
    exact apart.notNear (innerIn b member))
  obtain ⟨T₂, adopted, inInner₂, root₂, kept₂, other₂⟩ := adopt_spec x inInner₁ apartY.nodupNear
    (fun b member => realOf b (innerIn b member))
  have cellX₂ : T₂.heap x =
      Rbtree.cell side.flip (Ctx.parent T.nil ctx) (inner.ptr T.nil) (rest.ptr T.nil) px cx := by
    rw [other₂ x fun member => apart.notNear (innerIn x member)]
    exact write_self _
  have cellY₂ : T₂.heap y = T.heap y := by
    rw [other₂ y apartY.notNear, other₁ y (Ne.symm xy)]
  let T₃ := T₂.write y
    (Rbtree.cell side (Ctx.parent T.nil ctx) (inner.ptr T.nil) (outer.ptr T.nil) py cy)
  have other₃ : ∀ b, b ≠ y → T₃.heap b = T₂.heap b := fun b other => write_other _ other
  have nil₃ : T₃.nil = T.nil := kept₂.nil
  have cellX₃ : T₃.heap x =
      Rbtree.cell side.flip (Ctx.parent T.nil ctx) (inner.ptr T.nil) (rest.ptr T.nil) px cx :=
    (other₃ x xy).trans cellX₂
  have same₃ : ∀ b, b ≠ x → b ≠ y → b ∉ inner.addrs → T₃.heap b = T.heap b := by
    intro b notX notY notInner
    rw [other₃ b notY, other₂ b notInner, other₁ b notX]
  have inCtx₃ : ∀ b ∈ Ctx.addrs ctx, T₃.heap b = T.heap b := by
    intro b member
    refine same₃ b ?_ ?_ fun inInner => apart.nearCtx b (innerIn b inInner) member
    · rintro rfl
      exact apart.notCtx member
    · rintro rfl
      exact yCtx member
  obtain ⟨T₄, relinked, root₄, above₄, kept₄, other₄⟩ := @relink_spec σ K V T₃ ctx x y
    (by rw [show T₃.root = T.root from root₂, focus.root, Tree.ptr_make])
    (by
      have above := focus.above
      rw [Tree.ptr_make] at above
      rw [nil₃]
      exact Ctx.In.congr above inCtx₃)
    (by
      rw [cellX₃, nil₃]
      cases side <;> rfl)
    xNull (nil₃ ▸ xNil) apart.notCtx apart.nodupCtx
    (by
      rw [nil₃]
      exact fun b member => focus.real b (List.mem_append_right _ member))
  have nil₄ : T₄.nil = T.nil := kept₄.nil.trans nil₃
  have cellX₄ : T₄.heap x = T₃.heap x := other₄ x apart.notCtx
  have cellY₄ : T₄.heap y =
      Rbtree.cell side (Ctx.parent T.nil ctx) (inner.ptr T.nil) (outer.ptr T.nil) py cy := by
    rw [other₄ y yCtx]
    exact write_self _
  -- the writes behind it
  let T₅ := T₄.write y (Rbtree.cell side (Ctx.parent T.nil ctx) x (outer.ptr T.nil) py cy)
  let T₆ := T₅.write x (Rbtree.cell side.flip y (inner.ptr T.nil) (rest.ptr T.nil) px cx)
  have other₆ : ∀ b, b ≠ x → b ≠ y → T₆.heap b = T₄.heap b := by
    intro b notX notY
    rw [write_other _ notX, write_other _ notY]
  have same₆ : ∀ b, b ≠ x → b ≠ y → b ∉ inner.addrs → b ∉ Ctx.addrs ctx → T₆.heap b = T.heap b := by
    intro b notX notY notInner notCtx
    rw [other₆ b notX notY, other₄ b notCtx, same₃ b notX notY notInner]
  have rotated : T.rotate side x = some T₆ := by
    have cellX₅ : T₅.heap x =
        Rbtree.cell side.flip (Ctx.parent T.nil ctx) (inner.ptr T.nil) (rest.ptr T.nil) px cx := by
      rw [write_other _ xy, cellX₄, cellX₃]
    have write₁ : T.setChild side.flip x (inner.ptr T.nil) = some T₁ := setChild_cell cellX xNull _
    have write₃ : T₂.setParent y (Ctx.parent T.nil ctx) = some T₃ :=
      setParent_cell (cellY₂.trans cellY) yNull _
    have write₅ : T₄.setChild side y x = some T₅ := setChild_cell cellY₄ yNull _
    have write₆ : T₅.setParent x y = some T₆ := setParent_cell cellX₅ xNull _
    simp only [Rbtree.rotate, child_near cellX xNull, child_near cellY yNull, write₁,
      Option.bind_eq_bind, Option.bind_some]
    split at adopted
    · next isReal =>
        refine (if_pos isReal).trans ?_
        simp only [show T₁.setParent (inner.ptr T.nil) x = some T₂ from adopted, parent_cell cellX₂ xNull,
          write₃, relinked, write₅, write₆, Option.bind_some]
    · next isNil =>
        refine (if_neg isNil).trans ?_
        obtain rfl : T₁ = T₂ := Option.some.inj adopted
        simp only [parent_cell cellX₂ xNull, write₃, relinked, write₅, write₆, Option.bind_some]
  have kept : Kept T T₆ := by
    refine (((((write_kept _ xNil).trans kept₂).trans (write_kept _ ?_)).trans kept₄).trans
      (write_kept _ ?_)).trans (write_kept _ ?_)
    · rw [kept₂.nil]
      exact yNil
    · rw [nil₄]
      exact yNil
    · rw [show T₅.nil = T.nil from nil₄]
      exact xNil
  have nil₆ : T₆.nil = T.nil := nil₄
  have perm : ((Tree.make side y cy py (.make side.flip x cx px inner rest) outer).addrs ++
      Ctx.addrs ctx).Perm ((Tree.make side.flip x cx px (.make side y cy py inner outer) rest).addrs ++
      Ctx.addrs ctx) := by
    refine List.Perm.append_right _ (List.perm_iff_count.mpr fun b => ?_)
    simp only [(Tree.addrs_make_perm ..).count_eq, List.count_cons, List.count_append]
    omega
  refine ⟨T₆, rotated, ⟨?_, ?_, ?_, perm.nodup_iff.mpr focus.nodup, ?_, ?_, ?_⟩, kept⟩
  · exact root₄.trans (congrArg (fun p => Ctx.root p ctx) (Tree.ptr_make ..).symm)
  · rw [nil₃] at above₄
    rw [Tree.ptr_make, nil₆]
    refine Ctx.In.congr above₄ fun b member => other₆ b ?_ ?_
    · rintro rfl
      exact apart.notCtx member
    · rintro rfl
      exact yCtx member
  · rw [nil₆]
    refine Tree.in_make.mpr ⟨?_, Tree.in_make.mpr ⟨?_, ?_, ?_⟩, ?_⟩
    · rw [Tree.ptr_make, write_other _ (Ne.symm xy)]
      exact write_self _
    · exact write_self _
    · refine inInner₂.congr fun b member => ?_
      have notX : b ≠ x := fun same => apart.notNear (innerIn x (same ▸ member))
      have notY : b ≠ y := fun same => apartY.notNear (same ▸ member)
      rw [other₆ b notX notY, other₄ b (apart.nearCtx b (innerIn b member)), other₃ b notY]
    · refine inRest.congr fun b member => same₆ b ?_ ?_ ?_ (apart.farCtx b member)
      · rintro rfl
        exact apart.notFar member
      · rintro rfl
        exact apart.nearFar b yIn member
      · exact fun inInner => apart.nearFar b (innerIn b inInner) member
    · refine inOuter.congr fun b member => same₆ b ?_ ?_ ?_ (apart.nearCtx b (outerIn b member))
      · rintro rfl
        exact apart.notNear (outerIn b member)
      · rintro rfl
        exact apartY.notFar member
      · exact fun inInner => apartY.nearFar b inInner member
  · rw [nil₆]
    exact fun b member => focus.real b (perm.mem_iff.mp member)
  · rw [nil₆]
    exact focus.sentinel
  · rw [nil₆, kept.sentinel]
    exact focus.black

end Writes

/-! ## Reading around the focus -/

section Reads

variable {T : Rbtree σ K V} {ctx : Ctx K V} {f : Frame K V} {t : Tree K V}

/-- The focus moves to the sibling. -/
theorem Focus.over : Focus T (f :: ctx) t ↔
    Focus T (⟨f.side.flip, f.addr, f.color, f.pair, t⟩ :: ctx) f.other := by
  rw [Focus.up, Focus.up, Frame.plug, Frame.plug, Tree.make_flip]

/-- The focus moves back from the sibling. -/
theorem Focus.back {side : Side} {a : Ptr} {c : Color} {pair : K × V} {s : Tree K V}
    (focus : Focus T (⟨side.flip, a, c, pair, t⟩ :: ctx) s) : Focus T (⟨side, a, c, pair, s⟩ :: ctx) t := by
  rw [Focus.over]
  exact focus

theorem Focus.color_eq (focus : Focus T ctx t) : T.color (t.ptr T.nil) = some t.color := by
  rw [Rbtree.color_eq, focus.below.color focus.black]
  by_cases isNil : t.ptr T.nil = T.nil
  · rw [isNil]
    exact focus.sentinel
  · exact (focus.real _ (List.mem_append_left _ (Tree.ptr_mem isNil))).1

theorem Focus.parent_eq (focus : Focus T ctx t) (real : t ≠ .leaf) :
    T.parent (t.ptr T.nil) = some (Ctx.parent T.nil ctx) := by
  obtain ⟨pair, near, far, shape⟩ := Tree.exists_make .left T.nil real
  rw [shape] at focus
  exact parent_cell focus.cell focus.addr_real.1

theorem Focus.frame_parent (focus : Focus T (f :: ctx) t) : T.parent f.addr = some (Ctx.parent T.nil ctx) :=
  parent_cell (Focus.up.mp focus).cell (Focus.up.mp focus).addr_real.1

theorem Focus.frame_color (focus : Focus T (f :: ctx) t) : T.color f.addr = some f.color :=
  color_cell (Focus.up.mp focus).cell (Focus.up.mp focus).addr_real.1

theorem Focus.frame_child (focus : Focus T (f :: ctx) t) : T.child f.side f.addr = some (t.ptr T.nil) :=
  child_near (Focus.up.mp focus).cell (Focus.up.mp focus).addr_real.1

theorem Focus.sibling (focus : Focus T (f :: ctx) t) :
    T.child f.side.flip f.addr = some (f.other.ptr T.nil) :=
  child_far (Focus.up.mp focus).cell (Focus.up.mp focus).addr_real.1

theorem Focus.setFrameColor (focus : Focus T (f :: ctx) t) (c : Color) :
    ∃ T', T.setColor f.addr c = some T' ∧ Focus T' ({ f with color := c } :: ctx) t ∧ Kept T T' := by
  obtain ⟨T', written, focus', kept⟩ := (Focus.up.mp focus).setColor c
  exact ⟨T', written, Focus.up.mpr focus', kept⟩

theorem Focus.ptr_real (focus : Focus T ctx t) (real : t ≠ .leaf) : t.ptr T.nil ≠ T.nil := by
  obtain ⟨pair, near, far, shape⟩ := Tree.exists_make .left T.nil real
  rw [shape] at focus
  exact focus.addr_real.2

/-- Siblings are different nodes, if there is one. -/
theorem Focus.ptr_ne (focus : Focus T (f :: ctx) t)
    (real : t.ptr T.nil ≠ T.nil ∨ f.other.ptr T.nil ≠ T.nil) : t.ptr T.nil ≠ f.other.ptr T.nil := by
  intro same
  have tReal : t.ptr T.nil ≠ T.nil := real.elim id fun other => same ▸ other
  have otherReal : f.other.ptr T.nil ≠ T.nil := same ▸ tReal
  have inOther : t.ptr T.nil ∈ f.other.addrs := same ▸ Tree.ptr_mem otherReal
  exact (Focus.up.mp focus).apart.nearFar _ (Tree.ptr_mem tReal) inOther

/-- How the loops find out which child they are at. -/
theorem Focus.side_eq (focus : Focus T (f :: ctx) t)
    (real : t.ptr T.nil ≠ T.nil ∨ f.other.ptr T.nil ≠ T.nil) :
    ∃ first, T.left f.addr = some first ∧
      (if t.ptr T.nil = first then Side.left else Side.right) = f.side := by
  have near := focus.frame_child
  have far := focus.sibling
  have differ := focus.ptr_ne real
  obtain ⟨side, addr, color, pair, other⟩ := f
  cases side with
  | left => exact ⟨_, near, if_pos rfl⟩
  | right => exact ⟨_, far, if_neg differ⟩

end Reads

end Rbtree

end KTableFS.Index
