/-
# Index.Rbtree -- the red-black index, pointer for pointer

`Rbtree` embeds `struct rbtree` and the memory its nodes live in: `heap` is the contents of
every address, and `nil` the shared sentinel, a node like the others whose `parent` deletion
uses for its own ends.  Every function is the source's, statement by statement; a mirrored
pair of functions is one definition with the side as a parameter.

`none` is a state the program does not leave: an access through a null pointer, or a loop
that passes more nodes than the tree has (`fuel`), that is, one that never ends.  The
contents of memory that is not in use are arbitrary.  Sizes are numbers, and so is the count of a
scan, which is an `int` in the source: the two are the same while the tree has fewer than `2 ^ 31`
nodes.
-/
import KTableFS.Index.KeyCmp
import KTableFS.Index.Memory
import Mathlib.Logic.Function.Basic

namespace KTableFS.Index

open KTableFS.Theory

set_option autoImplicit false

/-- `enum color` -/
inductive Color where
  | black
  | red
  deriving DecidableEq, Inhabited

/-- One of two mirrored cases. -/
inductive Side where
  | left
  | right
  deriving DecidableEq

def Side.flip : Side → Side
  | .left => .right
  | .right => .left

/-- `struct rbtree_node` -/
structure RbtreeNode (K V : Type) where
  parent : Ptr
  left : Ptr
  right : Ptr
  key : K
  value : V
  color : Color

/-- `struct rbtree`, with the memory of its nodes.  (`hash_table` is only ever created.) -/
structure Rbtree (σ K V : Type) where
  root : Ptr
  nodeSlab : σ
  nil : Ptr
  size : Nat
  heap : Ptr → RbtreeNode K V

namespace Rbtree

variable {σ K V : Type}

/-! ## Access through a pointer -/

section Access

variable (T : Rbtree σ K V)

def deref (p : Ptr) : Option (RbtreeNode K V) := if p = null then none else some (T.heap p)

def assign (p : Ptr) (f : RbtreeNode K V → RbtreeNode K V) : Option (Rbtree σ K V) :=
  if p = null then none else some { T with heap := Function.update T.heap p (f (T.heap p)) }

def parent (p : Ptr) : Option Ptr := (T.deref p).map RbtreeNode.parent

def child (side : Side) (p : Ptr) : Option Ptr :=
  (T.deref p).map fun node => match side with
    | .left => node.left
    | .right => node.right

def left (p : Ptr) : Option Ptr := T.child .left p

def right (p : Ptr) : Option Ptr := T.child .right p

def key (p : Ptr) : Option K := (T.deref p).map RbtreeNode.key

def value (p : Ptr) : Option V := (T.deref p).map RbtreeNode.value

def color (p : Ptr) : Option Color := (T.deref p).map RbtreeNode.color

def setParent (p q : Ptr) : Option (Rbtree σ K V) := T.assign p fun node => { node with parent := q }

def setChild (side : Side) (p q : Ptr) : Option (Rbtree σ K V) :=
  T.assign p fun node => match side with
    | .left => { node with left := q }
    | .right => { node with right := q }

def setLeft (p q : Ptr) : Option (Rbtree σ K V) := T.setChild .left p q

def setRight (p q : Ptr) : Option (Rbtree σ K V) := T.setChild .right p q

def setColor (p : Ptr) (color : Color) : Option (Rbtree σ K V) :=
  T.assign p fun node => { node with color := color }

def setRoot (p : Ptr) : Rbtree σ K V := { T with root := p }

end Access

/-! ## Rotations -/

/-- `if (u->parent == T->nil) T->root = v; else if (u == u->parent->left) u->parent->left = v;
else u->parent->right = v;` -/
def relink (T : Rbtree σ K V) (u v : Ptr) : Option (Rbtree σ K V) := do
  let up ← T.parent u
  if up = T.nil then some (T.setRoot v)
  else do
    let near ← T.left up
    if u = near then T.setLeft up v else T.setRight up v

/-- `left_rotate` and `right_rotate`. -/
def rotate (side : Side) (T : Rbtree σ K V) (x : Ptr) : Option (Rbtree σ K V) := do
  let y ← T.child side.flip x
  let inner ← T.child side y
  let T ← T.setChild side.flip x inner
  let T ← if inner ≠ T.nil then T.setParent inner x else some T
  let T ← T.setParent y (← T.parent x)
  let T ← T.relink x y
  let T ← T.setChild side y x
  T.setParent x y

def leftRotate (T : Rbtree σ K V) (x : Ptr) : Option (Rbtree σ K V) := T.rotate .left x

def rightRotate (T : Rbtree σ K V) (x : Ptr) : Option (Rbtree σ K V) := T.rotate .right x

/-! ## Insertion -/

/-- The body of the loop of `rb_insert_fixup` where `z->parent` is its parent's `side` child. -/
def insertFixupCase (side : Side) (T : Rbtree σ K V) (z : Ptr) : Option (Rbtree σ K V × Ptr) := do
  let y ← T.child side.flip (← T.parent (← T.parent z))
  let color ← T.color y
  if color = .red then do
    let T ← T.setColor (← T.parent z) .black
    let T ← T.setColor y .black
    let T ← T.setColor (← T.parent (← T.parent z)) .red
    let z ← T.parent (← T.parent z)
    some (T, z)
  else do
    let inner ← T.child side.flip (← T.parent z)
    let (T, z) ← if z = inner then do
        let z ← T.parent z
        let T ← T.rotate side z
        some (T, z)
      else some (T, z)
    let T ← T.setColor (← T.parent z) .black
    let T ← T.setColor (← T.parent (← T.parent z)) .red
    let T ← T.rotate side.flip (← T.parent (← T.parent z))
    some (T, z)

/-- `rb_insert_fixup` -/
def insertFixup : Nat → Rbtree σ K V → Ptr → Option (Rbtree σ K V)
  | 0, _, _ => none
  | fuel + 1, T, z => do
      let p ← T.parent z
      let color ← T.color p
      if color = .red then do
        let first ← T.left (← T.parent p)
        let (T, z) ← T.insertFixupCase (if p = first then .left else .right) z
        insertFixup fuel T z
      else T.setColor T.root .black

/-- `rb_node_new` -/
def nodeNew (A : Allocator σ) (T : Rbtree σ K V) (key : K) (value : V) : Ptr × Rbtree σ K V :=
  let new := A.alloc T.nodeSlab
  (new.1, { T with
    nodeSlab := new.2
    heap := Function.update T.heap new.1 { T.heap new.1 with key := key, value := value } })

/-- `rb_node_free` -/
def nodeFree (A : Allocator σ) (T : Rbtree σ K V) (x : Ptr) : Rbtree σ K V :=
  { T with nodeSlab := A.free T.nodeSlab x }

/-- The descent of `rbtree_insert`: the node to insert under, or `none` at an equal key. -/
def place (C : KeyCmp K) (T : Rbtree σ K V) (z : Ptr) : Nat → Ptr → Ptr → Option (Option Ptr)
  | 0, _, _ => none
  | fuel + 1, y, x =>
      if x = T.nil then some (some y)
      else do
        let key ← T.key z
        let here ← T.key x
        if C.keyLess key here then place C T z fuel x (← T.left x)
        else if C.keyEqual key here then some none
        else place C T z fuel x (← T.right x)

/-- `rbtree_insert` -/
def insert (C : KeyCmp K) (A : Allocator σ) (T : Rbtree σ K V) (key : K) (value : V) :
    Option (Rbtree σ K V × Int) := do
  let (z, T) := T.nodeNew A key value
  let y ← T.place C z (T.size + 1) T.nil T.root
  match y with
  | none => some (T.nodeFree A z, -1)
  | some y =>
      let T ← T.setParent z y
      let T ← if y = T.nil then some (T.setRoot z)
        else do
          let key ← T.key z
          let here ← T.key y
          if C.keyLess key here then T.setLeft y z else T.setRight y z
      let T ← T.setLeft z T.nil
      let T ← T.setRight z T.nil
      let T ← T.setColor z .red
      let T ← T.insertFixup (T.size + 1) z
      some ({ T with size := T.size + 1 }, 0)

/-! ## Removal -/

/-- `find_min_node` -/
def findMinNode (T : Rbtree σ K V) : Nat → Ptr → Option Ptr
  | 0, _ => none
  | fuel + 1, n => do
      let l ← T.left n
      if l = T.nil then some n else findMinNode T fuel l

/-- `transplant` -/
def transplant (T : Rbtree σ K V) (u v : Ptr) : Option (Rbtree σ K V) := do
  let T ← T.relink u v
  if v = null then some T else T.setParent v (← T.parent u)

/-- The body of the loop of `rb_delete_fixup` where `x` is its parent's `side` child. -/
def deleteFixupCase (side : Side) (T : Rbtree σ K V) (x : Ptr) : Option (Rbtree σ K V × Ptr) := do
  let w ← T.child side.flip (← T.parent x)
  let color ← T.color w
  let (T, w) ← if color = .red then do
      let T ← T.setColor w .black
      let T ← T.setColor (← T.parent x) .red
      let T ← T.rotate side (← T.parent x)
      let w ← T.child side.flip (← T.parent x)
      some (T, w)
    else some (T, w)
  let first ← T.color (← T.left w)
  let second ← T.color (← T.right w)
  if first = .black ∧ second = .black then do
    let T ← T.setColor w .red
    let x ← T.parent x
    some (T, x)
  else do
    let outer ← T.color (← T.child side.flip w)
    let (T, w) ← if outer = .black then do
        let T ← T.setColor (← T.child side w) .black
        let T ← T.setColor w .red
        let T ← T.rotate side.flip w
        let w ← T.child side.flip (← T.parent x)
        some (T, w)
      else some (T, w)
    let T ← T.setColor w (← T.color (← T.parent x))
    let T ← T.setColor (← T.parent x) .black
    let T ← T.setColor (← T.child side.flip w) .black
    let T ← T.rotate side (← T.parent x)
    some (T, T.root)

/-- `rb_delete_fixup` -/
def deleteFixup : Nat → Rbtree σ K V → Ptr → Option (Rbtree σ K V)
  | 0, _, _ => none
  | fuel + 1, T, x => do
      let color ← T.color x
      if x ≠ T.root ∧ color = .black then do
        let first ← T.left (← T.parent x)
        let (T, x) ← T.deleteFixupCase (if x = first then .left else .right) x
        deleteFixup fuel T x
      else T.setColor x .black

/-- The first half of `delete_node`: `z` is taken out of the tree.  The results are `x`, the
node that moved up, and `y_original_color`. -/
def unlink (T : Rbtree σ K V) (z : Ptr) : Option (Rbtree σ K V × Ptr × Color) := do
  let color ← T.color z
  let l ← T.left z
  let r ← T.right z
  if l = T.nil then do
    let T ← T.transplant z r
    some (T, r, color)
  else if r = T.nil then do
    let T ← T.transplant z l
    some (T, l, color)
  else do
    let y ← T.findMinNode T.size r
    let color ← T.color y
    let x ← T.right y
    let up ← T.parent y
    let T ← if up = z then T.setParent x y
      else do
        let T ← T.transplant y (← T.right y)
        let T ← T.setRight y (← T.right z)
        T.setParent (← T.right y) y
    let T ← T.transplant z y
    let T ← T.setLeft y (← T.left z)
    let T ← T.setParent (← T.left y) y
    let T ← T.setColor y (← T.color z)
    some (T, x, color)

/-- `delete_node` -/
def deleteNode (A : Allocator σ) (T : Rbtree σ K V) (z : Ptr) : Option (Rbtree σ K V) := do
  let (T, x, color) ← T.unlink z
  let T ← if color = .black then T.deleteFixup (T.size + 1) x else some T
  some { T.nodeFree A z with size := T.size - 1 }

/-- The node with the key, by the descent of `rbtree_remove` and `rbtree_lookup`. -/
def search (C : KeyCmp K) (T : Rbtree σ K V) (key : K) : Nat → Ptr → Option (Option Ptr)
  | 0, _ => none
  | fuel + 1, node =>
      if node = T.nil then some none
      else do
        let here ← T.key node
        if C.keyLess key here then search C T key fuel (← T.left node)
        else if C.keyEqual key here then some (some node)
        else search C T key fuel (← T.right node)

/-- `rbtree_remove` -/
def remove (C : KeyCmp K) (A : Allocator σ) (T : Rbtree σ K V) (key : K) :
    Option (Rbtree σ K V × Int) := do
  let node ← T.search C key (T.size + 1) T.root
  match node with
  | none => some (T, -1)
  | some node =>
      let T ← T.deleteNode A node
      some (T, 0)

/-! ## Lookup and scan -/

/-- `rbtree_lookup`; `default` is `NULL`. -/
def lookup [Inhabited V] (C : KeyCmp K) (T : Rbtree σ K V) (key : K) : Option V := do
  let node ← T.search C key (T.size + 1) T.root
  match node with
  | none => some default
  | some node => T.value node

/-- `rbtree_scan_recurse`: the pairs `scan` is called with, and the count. -/
def scanRecurse (C : KeyCmp K) (T : Rbtree σ K V) (minKey maxKey : K) :
    Nat → Ptr → Option (List (K × V) × Nat)
  | 0, _ => none
  | fuel + 1, root =>
      if root = T.nil then some ([], 0)
      else do
        let key ← T.key root
        if C.keyLess key minKey then scanRecurse C T minKey maxKey fuel (← T.right root)
        else if C.keyGreater key maxKey || C.keyEqual key maxKey then
          scanRecurse C T minKey maxKey fuel (← T.left root)
        else do
          let value ← T.value root
          let first ← scanRecurse C T minKey maxKey fuel (← T.left root)
          let second ← scanRecurse C T minKey maxKey fuel (← T.right root)
          some ((key, value) :: (first.1 ++ second.1), 1 + first.2 + second.2)

/-- `rbtree_scan` -/
def scan (C : KeyCmp K) (T : Rbtree σ K V) (minKey maxKey : K) : Option (List (K × V) × Nat) :=
  T.scanRecurse C minKey maxKey (T.size + 1) T.root

/-! ## The check of the DEBUG build -/

/-- `rb_valid_recurse`; `none` is a failed assertion. -/
def validRecurse (T : Rbtree σ K V) : Nat → Ptr → Option Nat
  | 0, _ => none
  | fuel + 1, root =>
      if root = T.nil then some 1
      else do
        let leftDepth ← validRecurse T fuel (← T.left root)
        let rightDepth ← validRecurse T fuel (← T.right root)
        if leftDepth = rightDepth then do
          let color ← T.color root
          if color = .red then do
            let first ← T.color (← T.left root)
            let second ← T.color (← T.right root)
            if first = .black ∧ second = .black then some leftDepth else none
          else some (leftDepth + 1)
        else none

/-- `rb_valid` -/
def valid (T : Rbtree σ K V) : Option Nat := do
  let color ← T.color T.root
  if color = .black then T.validRecurse (T.size + 1) T.root else none

/-! ## The index -/

/-- `rbtree_new`; `junk` is what the fresh memory holds. -/
def new [Inhabited K] [Inhabited V] (A : Allocator σ) (junk : Ptr → RbtreeNode K V) : Rbtree σ K V :=
  let nil := A.alloc A.new
  { root := nil.1
    nodeSlab := nil.2
    nil := nil.1
    size := 0
    heap := Function.update junk nil.1 { junk nil.1 with
      key := default
      value := default
      color := .black
      left := null
      right := null } }

/-- A call of the index. -/
def next [Inhabited V] (C : KeyCmp K) (A : Allocator σ) (T : Rbtree σ K V) :
    Op K V → Option (Rbtree σ K V × Out K V)
  | .insert key value => (T.insert C A key value).map fun out => (out.1, .code out.2)
  | .remove key => (T.remove C A key).map fun out => (out.1, .code out.2)
  | .lookup key => (T.lookup C key).map fun value => (T, .value value)
  | .scan minKey maxKey => (T.scan C minKey maxKey).map fun out => (T, .scanned out.1 out.2)

end Rbtree

end KTableFS.Index
