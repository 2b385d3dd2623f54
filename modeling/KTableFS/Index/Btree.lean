/-
# Index.Btree -- the B-tree index, pointer for pointer

`Btree` embeds `struct btree` and the memory its nodes and pairs live in: one map for each
field of `struct btree_node` and of `struct pair`, so that `p->next = q` is an update of
`next` at `p`.  (`node->tree` is the tree itself.)  A node keeps its pairs in a list linked by
`pairNext` and its children in one linked by `next`.  Every function is the source's,
statement by statement.  Where the source has a branch each for the first pair of a list
(`node->head`) and for a later one (`pos->next`), the branches differ in the pointer that they
read and write only, which is a `Link` here.

`none` is a state the program does not leave: an access through a null pointer, a failed
assertion, or a loop that never ends.  A loop may pass `fuel` nodes or pairs, which is more
than there are.  Sizes are numbers, and so are `order` and the count of a scan, which are
`int`s in the source: these are the same while `2 * order + 1` and the number of pairs in the tree are
below `2 ^ 31`.
-/
import KTableFS.Index.KeyCmp
import KTableFS.Index.Memory
import Mathlib.Logic.Function.Basic

namespace KTableFS.Index

open KTableFS.Theory

set_option autoImplicit false

/-- `struct btree`, with the fields of its nodes and pairs. -/
structure Btree (σ K V : Type) where
  root : Ptr
  arena : σ
  order : Nat
  size : Nat
  parent : Ptr → Ptr
  child : Ptr → Ptr
  next : Ptr → Ptr
  head : Ptr → Ptr
  nodeSize : Ptr → Nat
  key : Ptr → K
  value : Ptr → V
  pairNext : Ptr → Ptr

namespace Btree

variable {σ K V : Type}

/-- Memory with one key and one value everywhere. -/
def blank (arena : σ) (key : K) (value : V) : Btree σ K V where
  root := null
  arena := arena
  order := 0
  size := 0
  parent _ := null
  child _ := null
  next _ := null
  head _ := null
  nodeSize _ := 0
  key _ := key
  value _ := value
  pairNext _ := null

/-! ## Access through a pointer -/

/-- `p->f` -/
def load {β : Type} (f : Ptr → β) (p : Ptr) : Option β := if p = null then none else some (f p)

/-- `p->f = x` -/
def store {β : Type} (f : Ptr → β) (p : Ptr) (x : β) : Option (Ptr → β) :=
  if p = null then none else some (Function.update f p x)

section Access

variable (T : Btree σ K V)

def setParent (p q : Ptr) : Option (Btree σ K V) := (store T.parent p q).map fun f => { T with parent := f }

def setChild (p q : Ptr) : Option (Btree σ K V) := (store T.child p q).map fun f => { T with child := f }

def setNext (p q : Ptr) : Option (Btree σ K V) := (store T.next p q).map fun f => { T with next := f }

def setHead (p q : Ptr) : Option (Btree σ K V) := (store T.head p q).map fun f => { T with head := f }

def setNodeSize (p : Ptr) (n : Nat) : Option (Btree σ K V) :=
  (store T.nodeSize p n).map fun f => { T with nodeSize := f }

def setKey (p : Ptr) (key : K) : Option (Btree σ K V) := (store T.key p key).map fun f => { T with key := f }

def setValue (p : Ptr) (value : V) : Option (Btree σ K V) :=
  (store T.value p value).map fun f => { T with value := f }

def setPairNext (p q : Ptr) : Option (Btree σ K V) :=
  (store T.pairNext p q).map fun f => { T with pairNext := f }

/-- A pointer to a pair of a node: `node->head` or `pos->next`. -/
inductive Link where
  | head (node : Ptr)
  | next (pos : Ptr)

def loadLink : Link → Option Ptr
  | .head node => load T.head node
  | .next pos => load T.pairNext pos

def storeLink : Link → Ptr → Option (Btree σ K V)
  | .head node, q => T.setHead node q
  | .next pos, q => T.setPairNext pos q

/-- As many nodes and pairs as a loop may pass. -/
def fuel : Nat := T.size + 2

end Access

/-! ## Loops along a list -/

section Loops

variable (next : Ptr → Ptr)

/-- `for (int i = 0; i < n; ++i) pos = pos->next;` -/
def advance : Nat → Ptr → Option Ptr
  | 0, pos => some pos
  | n + 1, pos => do advance n (← load next pos)

/-- `while (pos->next) pos = pos->next;` -/
def tail : Nat → Ptr → Option Ptr
  | 0, _ => none
  | fuel + 1, pos => do
      let after ← load next pos
      if after = null then some pos else tail fuel after

/-- `while (pos->next->next) pos = pos->next;` -/
def tailBefore : Nat → Ptr → Option Ptr
  | 0, _ => none
  | fuel + 1, pos => do
      let after ← load next pos
      if (← load next after) = null then some pos else tailBefore fuel after

/-- `while (pos->next != p) pos = pos->next;` -/
def before (p : Ptr) : Nat → Ptr → Option Ptr
  | 0, _ => none
  | fuel + 1, pos => do
      let after ← load next pos
      if after = p then some pos else before p fuel after

end Loops

/-- `while (pos) { pos->parent = parent; pos = pos->next; }` -/
def adopt (parent : Ptr) : Nat → Btree σ K V → Ptr → Option (Btree σ K V)
  | 0, _, _ => none
  | fuel + 1, T, pos =>
      if pos = null then some T
      else do
        let T ← T.setParent pos parent
        adopt parent fuel T (← load T.next pos)

/-- `while (pos->next && key_less(pos->next->key, key)) pos = pos->next;` -/
def lastBelow (C : KeyCmp K) (T : Btree σ K V) (key : K) : Nat → Ptr → Option Ptr
  | 0, _ => none
  | fuel + 1, pos => do
      let after ← load T.pairNext pos
      if after = null then some pos
      else do
        let there ← load T.key after
        if C.keyLess there key then lastBelow C T key fuel after else some pos

/-! ## Insertion -/

/-- `btree_node_find` -/
def nodeFind (C : KeyCmp K) (T : Btree σ K V) (node : Ptr) (key : K) : Option Ptr := do
  let head ← load T.head node
  if head = null then some null
  else do
    let first ← load T.key head
    if C.keyGreater first key then some null else T.lastBelow C key T.fuel head

/-- `btree_node_insert` up to its call of `btree_node_split`. -/
def nodeInsert (C : KeyCmp K) (T : Btree σ K V) (node newPair : Ptr) : Option (Btree σ K V) := do
  let key ← load T.key newPair
  let pos ← T.nodeFind C node key
  let link : Link := if pos = null then .head node else .next pos
  let after ← T.loadLink link
  -- `Assert(pos->next == NULL || !key_equal(pos->next->key, new_pair->key))`, behind a pair only
  if pos ≠ null ∧ after ≠ null ∧ (load T.key after).any (fun there => C.keyEqual there key) then none
  else do
    let T ← T.setPairNext newPair after
    let T ← T.storeLink link newPair
    T.setNodeSize node ((← load T.nodeSize node) + 1)

/-- `btree_node_insert_parent` up to its call of `btree_node_insert`. -/
def linkSibling (A : Allocator σ) (T : Btree σ K V) (left right : Ptr) : Option (Btree σ K V) := do
  let T ← T.setNext right (← load T.next left)
  let T ← T.setNext left right
  let parent ← load T.parent left
  if parent = null then do
    let new := A.alloc T.arena
    let newRoot := new.1
    let T := { T with arena := new.2 }
    let T ← T.setHead newRoot null
    let T ← T.setNext newRoot null
    let T ← T.setChild newRoot left
    let T ← T.setParent newRoot null
    let T ← T.setNodeSize newRoot 0
    let T := { T with root := newRoot }
    let T ← T.setParent left newRoot
    T.setParent right newRoot
  else some T

/-- `if (node->child) { .. } else { new_node->child = NULL; }` of `btree_node_split`: the
children behind the first `order + 1` go to the new node. -/
def halveKids (T : Btree σ K V) (node newNode : Ptr) : Option (Btree σ K V) := do
  let child ← load T.child node
  if child ≠ null then do
    let childPos ← advance T.next T.order child
    let T ← T.setChild newNode (← load T.next childPos)
    let T ← T.setNext childPos null
    T.adopt newNode T.fuel (← load T.child newNode)
  else T.setChild newNode null

/-- So do the pairs behind the first `order + 1`; the last of these is `mid_pair`. -/
def halvePairs (T : Btree σ K V) (node newNode : Ptr) : Option (Btree σ K V × Ptr) := do
  let pos ← advance T.pairNext (T.order - 1) (← load T.head node)
  let midPair ← load T.pairNext pos
  let T ← T.setHead newNode (← load T.pairNext midPair)
  let T ← T.setPairNext pos null
  some (T, midPair)

/-- `btree_node_split` of a full node up to its call of `btree_node_insert_parent`: the new
node, and the pair between the two. -/
def halve (A : Allocator σ) (T : Btree σ K V) (node : Ptr) : Option (Btree σ K V × Ptr × Ptr) := do
  let new := A.alloc T.arena
  let newNode := new.1
  let T := { T with arena := new.2 }
  let T ← T.setParent newNode (← load T.parent node)
  let T ← T.setNodeSize newNode T.order
  let T ← T.halveKids node newNode
  let (T, midPair) ← T.halvePairs node newNode
  let T ← T.setNodeSize node T.order
  some (T, newNode, midPair)

/-- `btree_node_split`, with `btree_node_insert_parent` and the insertion into the parent. -/
def split (C : KeyCmp K) (A : Allocator σ) : Nat → Btree σ K V → Ptr → Option (Btree σ K V)
  | 0, _, _ => none
  | fuel + 1, T, node => do
      let size ← load T.nodeSize node
      if size ≠ T.order * 2 + 1 then some T
      else do
        let (T, newNode, midPair) ← T.halve A node
        let T ← T.linkSibling A node newNode
        let parent ← load T.parent node
        let T ← T.nodeInsert C parent midPair
        let T ← split C A fuel T parent
        -- `btree_node_insert_parent` splits the parent again
        split C A fuel T (← load T.parent node)

/-! ## Removal -/

/-- The pair between `left` and its right sibling is at this link: of the parent's head, or by
`while (child_pos->next != left) { pos = pos->next; child_pos = child_pos->next; }`. -/
def beside (T : Btree σ K V) (left : Ptr) : Nat → Ptr → Ptr → Option Ptr
  | 0, _, _ => none
  | fuel + 1, pos, childPos => do
      let after ← load T.next childPos
      if after = left then some pos else beside T left fuel (← load T.pairNext pos) after

def separator (T : Btree σ K V) (parent left : Ptr) : Option Link := do
  let first ← load T.child parent
  if first = left then some (.head parent)
  else do
    let pos ← T.beside left T.fuel (← load T.head parent) first
    some (.next pos)

/-- Merge left and right's child list. -/
def joinKids (T : Btree σ K V) (left right : Ptr) : Option (Btree σ K V) := do
  let child ← load T.child left
  if child ≠ null then do
    let leftTailChild ← tail T.next T.fuel child
    let T ← T.setNext leftTailChild (← load T.child right)
    T.adopt left T.fuel (← load T.next leftTailChild)
  else some T

/-- Merge node's pairs. -/
def joinPairs (T : Btree σ K V) (left right parent : Ptr) : Option (Btree σ K V) := do
  let leftTail ← tail T.pairNext T.fuel (← load T.head left)
  let link ← T.separator parent left
  let T ← T.setPairNext leftTail (← T.loadLink link)
  let T ← T.storeLink link (← load T.pairNext (← T.loadLink link))
  T.setPairNext (← load T.pairNext leftTail) (← load T.head right)

/-- `btree_node_merge_` where the two nodes and the pair between them become one node. -/
def join (T : Btree σ K V) (left right parent : Ptr) : Option (Btree σ K V) := do
  let T ← T.joinKids left right
  let T ← T.setNext left (← load T.next right)
  let T ← T.joinPairs left right parent
  let T ← T.setNodeSize left (2 * T.order)
  T.setNodeSize parent ((← load T.nodeSize parent) - 1)

/-- The pair between the two nodes goes to `left`, and the first of `right` takes its place. -/
def borrowRightPairs (T : Btree σ K V) (left right parent : Ptr) : Option (Btree σ K V) := do
  let leftTail ← tail T.pairNext T.fuel (← load T.head left)
  let link ← T.separator parent left
  let T ← T.setPairNext leftTail (← T.loadLink link)
  let T ← T.storeLink link (← load T.head right)
  let T ← T.setHead right (← load T.pairNext (← load T.head right))
  let T ← T.setPairNext (← T.loadLink link) (← load T.pairNext (← load T.pairNext leftTail))
  T.setPairNext (← load T.pairNext leftTail) null

/-- The first child of `right` goes to `left`. -/
def borrowRightKid (T : Btree σ K V) (left right : Ptr) : Option (Btree σ K V) := do
  let child ← load T.child left
  if child ≠ null then do
    let leftTailChild ← tail T.next T.fuel child
    let T ← T.setNext leftTailChild (← load T.child right)
    let T ← T.setChild right (← load T.next (← load T.child right))
    let T ← T.setNext (← load T.next leftTailChild) null
    T.setParent (← load T.next leftTailChild) left
  else some T

/-- Where `left` gets a pair and a child of `right`. -/
def borrowRight (T : Btree σ K V) (left right parent : Ptr) : Option (Btree σ K V) := do
  let T ← T.borrowRightPairs left right parent
  let T ← T.borrowRightKid left right
  let T ← T.setNodeSize left ((← load T.nodeSize left) + 1)
  T.setNodeSize right ((← load T.nodeSize right) - 1)

/-- The pair between the two nodes goes to `right`, and the last of `left` takes its place. -/
def borrowLeftPairs (T : Btree σ K V) (left right parent : Ptr) : Option (Btree σ K V) := do
  let leftTailBefore ← tailBefore T.pairNext T.fuel (← load T.head left)
  let link ← T.separator parent left
  let T ← T.setPairNext (← load T.pairNext leftTailBefore) (← load T.pairNext (← T.loadLink link))
  let T ← T.setPairNext (← T.loadLink link) (← load T.head right)
  let T ← T.setHead right (← T.loadLink link)
  let T ← T.storeLink link (← load T.pairNext leftTailBefore)
  T.setPairNext leftTailBefore null

/-- The last child of `left` goes to `right`. -/
def borrowLeftKid (T : Btree σ K V) (left right : Ptr) : Option (Btree σ K V) := do
  let child ← load T.child left
  if child ≠ null then do
    let leftTailBeforeChild ← tailBefore T.next T.fuel child
    let T ← T.setNext (← load T.next leftTailBeforeChild) (← load T.child right)
    let T ← T.setChild right (← load T.next leftTailBeforeChild)
    let T ← T.setNext leftTailBeforeChild null
    T.setParent (← load T.child right) right
  else some T

/-- Where `right` gets a pair and a child of `left`. -/
def borrowLeft (T : Btree σ K V) (left right parent : Ptr) : Option (Btree σ K V) := do
  let T ← T.borrowLeftPairs left right parent
  let T ← T.borrowLeftKid left right
  let T ← T.setNodeSize left ((← load T.nodeSize left) - 1)
  T.setNodeSize right ((← load T.nodeSize right) + 1)

/-- The node and its right sibling; a node that has none, and its left sibling. -/
def neighbours (T : Btree σ K V) (node parent : Ptr) : Option (Ptr × Ptr) := do
  let after ← load T.next node
  if after ≠ null then some (node, after)
  else do
    let sibling ← before T.next node T.fuel (← load T.child parent)
    some (sibling, node)

/-- `btree_node_merge`, with `btree_node_merge_`. -/
def merge : Nat → Btree σ K V → Ptr → Option (Btree σ K V)
  | 0, _, _ => none
  | fuel + 1, T, node => do
      let size ← load T.nodeSize node
      let parent ← load T.parent node
      if T.order ≤ size ∨ parent = null then some T
      else if size ≠ T.order - 1 then none
      else do
        let (left, right) ← T.neighbours node parent
        -- `btree_node_merge_`
        if (← load T.next left) ≠ right then none
        else do
          let parent ← load T.parent left
          let leftSize ← load T.nodeSize left
          let rightSize ← load T.nodeSize right
          if leftSize + rightSize = 2 * T.order - 1 then do
            let T ← T.join left right parent
            if (← load T.nodeSize parent) = 0 then do
              -- the root is empty
              let T := { T with root := left }
              T.setParent left null
            else merge fuel T parent
          else if leftSize = T.order - 1 then T.borrowRight left right parent
          else T.borrowLeft left right parent

/-- `btree_node_remove`, with its result. -/
def nodeRemove (C : KeyCmp K) (T : Btree σ K V) (node : Ptr) (key : K) : Option (Btree σ K V × Int) := do
  let child ← load T.child node
  let size ← load T.nodeSize node
  if child ≠ null then none
  else if size = 0 then some (T, -1)
  else do
    let head ← load T.head node
    let first ← load T.key head
    if C.keyEqual first key then do
      let T ← T.setHead node (← load T.pairNext head)
      let T ← T.setNodeSize node (size - 1)
      let T ← T.merge T.fuel node
      some (T, 0)
    else do
      let pos ← T.lastBelow C key T.fuel head
      let after ← load T.pairNext pos
      if after = null ∨ (load T.key after).all (fun there => !C.keyEqual there key) then some (T, -1)
      else do
        let T ← T.setPairNext pos (← load T.pairNext after)
        let T ← T.setNodeSize node (size - 1)
        let T ← T.merge T.fuel node
        some (T, 0)

/-! ## Lookup and scan -/

section Search

variable (C : KeyCmp K) (T : Btree σ K V)

/-- `while (pos && key_less(pos->key, key)) pos = pos->next;` -/
def seek (key : K) : Nat → Ptr → Option Ptr
  | 0, _ => none
  | fuel + 1, pos =>
      if pos = null then some null
      else do
        let here ← load T.key pos
        if C.keyLess here key then seek key fuel (← load T.pairNext pos) else some pos

/-- The same with `child = child->next;`. -/
def seekChild (key : K) : Nat → Ptr → Ptr → Option (Ptr × Ptr)
  | 0, _, _ => none
  | fuel + 1, pos, child =>
      if pos = null then some (null, child)
      else do
        let here ← load T.key pos
        if C.keyLess here key then seekChild key fuel (← load T.pairNext pos) (← load T.next child)
        else some (pos, child)

/-- `pos && key_equal(pos->key, key)` -/
def isAt (key : K) (pos : Ptr) : Option Bool :=
  if pos = null then some false else (load T.key pos).map fun here => C.keyEqual here key

/-- `btree_lookup_`: the node, and the value if the key is there. -/
def lookupNode (key : K) : Nat → Ptr → Option (Ptr × Option V)
  | 0, _ => none
  | fuel + 1, node =>
      if node = null then none
      else do
        let child ← load T.child node
        if child = null then do
          let pos ← T.seek C key T.fuel (← load T.head node)
          if ← T.isAt C key pos then some (node, some (← load T.value pos)) else some (node, none)
        else do
          let (pos, child) ← T.seekChild C key T.fuel (← load T.head node) child
          if ← T.isAt C key pos then some (node, some (← load T.value pos))
          else lookupNode key fuel child

/-- `btree_lookup`; `default` is `NULL`. -/
def lookup [Inhabited V] (key : K) : Option V := do
  let out ← T.lookupNode C key T.fuel T.root
  some (out.2.getD default)

/-- `if (child) scan_nr += btree_node_scan(child, ..);` -/
def visit (scanChild : Ptr → Option (List (K × V) × Nat)) (child : Ptr) : Option (List (K × V) × Nat) :=
  if child = null then some ([], 0) else scanChild child

/-- The loop of `btree_node_scan`, and what is behind it. -/
def scanLoop (minKey maxKey : K) (scanChild : Ptr → Option (List (K × V) × Nat)) :
    Nat → Ptr → Ptr → Option (List (K × V) × Nat)
  | 0, _, _ => none
  | fuel + 1, pos, child =>
      if pos = null then visit scanChild child
      else do
        let key ← load T.key pos
        if C.keyGreater key maxKey then visit scanChild child
        else do
          let after ← load T.pairNext pos
          let nextChild ← if child = null then some null else load T.next child
          if C.keyLess key minKey then scanLoop minKey maxKey scanChild fuel after nextChild
          else do
            let value ← load T.value pos
            let first ← visit scanChild child
            let rest ← scanLoop minKey maxKey scanChild fuel after nextChild
            some ((key, value) :: (first.1 ++ rest.1), 1 + first.2 + rest.2)

/-- `btree_node_scan`: the pairs `scan` is called with, and the count. -/
def scanNode (minKey maxKey : K) : Nat → Ptr → Option (List (K × V) × Nat)
  | 0, _ => none
  | fuel + 1, node => do
      T.scanLoop C minKey maxKey (scanNode minKey maxKey fuel) T.fuel (← load T.head node)
        (← load T.child node)

/-- `btree_scan` -/
def scan (minKey maxKey : K) : Option (List (K × V) × Nat) := T.scanNode C minKey maxKey T.fuel T.root

end Search

/-! ## The index -/

/-- `btree_new`; `junk` is what the fresh memory holds. -/
def new (A : Allocator σ) (junk : Btree σ K V) (order : Nat) : Option (Btree σ K V) :=
  if 2 < order then do
    let root := A.alloc A.new
    let T := { junk with order := order, size := 0, arena := root.2, root := root.1 }
    let T ← T.setNodeSize root.1 0
    let T ← T.setChild root.1 null
    let T ← T.setHead root.1 null
    let T ← T.setNext root.1 null
    T.setParent root.1 null
  else none

/-- `btree_insert` -/
def insert (C : KeyCmp K) (A : Allocator σ) (T : Btree σ K V) (key : K) (value : V) :
    Option (Btree σ K V × Int) := do
  let (leaf, found) ← T.lookupNode C key T.fuel T.root
  if found.isSome then some (T, -1)
  else do
    let new := A.alloc T.arena
    let newPair := new.1
    let T := { T with arena := new.2 }
    let T ← T.setKey newPair key
    let T ← T.setValue newPair value
    let T ← T.nodeInsert C leaf newPair
    let T ← T.split C A T.fuel leaf
    some ({ T with size := T.size + 1 }, 0)

/-- `while (!key_equal(pos->key, key)) { pos = pos->next; child = child->next; }` -/
def findPair (C : KeyCmp K) (T : Btree σ K V) (key : K) : Nat → Ptr → Ptr → Option (Ptr × Ptr)
  | 0, _, _ => none
  | fuel + 1, pos, child => do
      let here ← load T.key pos
      if C.keyEqual here key then some (pos, child)
      else findPair C T key fuel (← load T.pairNext pos) (← load T.next child)

/-- `while (child->child) child = child->child;` -/
def firstLeaf (T : Btree σ K V) : Nat → Ptr → Option Ptr
  | 0, _ => none
  | fuel + 1, node => do
      let child ← load T.child node
      if child = null then some node else firstLeaf T fuel child

/-- `btree_remove` of a pair of an inner node: the first pair of the first leaf behind it takes
its place, and is removed from the leaf. -/
def removeInner (C : KeyCmp K) (T : Btree σ K V) (node child : Ptr) (key : K) : Option (Btree σ K V × Int) := do
  let (pos, child) ← T.findPair C key T.fuel (← load T.head node) child
  let leaf ← T.firstLeaf T.fuel (← load T.next child)
  let T ← T.setKey pos (← load T.key (← load T.head leaf))
  let T ← T.setValue pos (← load T.value (← load T.head leaf))
  T.nodeRemove C leaf (← load T.key (← load T.head leaf))

/-- `btree_remove` -/
def remove (C : KeyCmp K) (T : Btree σ K V) (key : K) : Option (Btree σ K V × Int) := do
  let (node, found) ← T.lookupNode C key T.fuel T.root
  if found.isSome then do
    let child ← load T.child node
    let (T, _) ← if child = null then T.nodeRemove C node key else T.removeInner C node child key
    some ({ T with size := T.size - 1 }, 0)
  else some (T, -1)

/-- A call of the index. -/
def call [Inhabited V] (C : KeyCmp K) (A : Allocator σ) (T : Btree σ K V) :
    Op K V → Option (Btree σ K V × Out K V)
  | .insert key value => (T.insert C A key value).map fun out => (out.1, .code out.2)
  | .remove key => (T.remove C key).map fun out => (out.1, .code out.2)
  | .lookup key => (T.lookup C key).map fun value => (T, .value value)
  | .scan minKey maxKey => (T.scan C minKey maxKey).map fun out => (T, .scanned out.1 out.2)

end Btree

end KTableFS.Index
