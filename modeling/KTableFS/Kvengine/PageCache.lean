/-
# Kvengine.PageCache -- the LRU page cache, pointer for pointer

`PageCache` embeds `kvengine::PageCache`: one `data` block of frames, a heap of
`Entry` objects named by the order they were allocated in (an entry keeps its
frame for life), the hand-linked recency list `newest`/`oldest`/`prev`/`next`, and
the hash index.  The list operations are the source's, statement by statement, so
that what they do to a list they have already bent is what the source does to it:
`update` does not unlink an entry that is in the middle of the list.

`none` is a state the program does not leave: a null pointer dereference (the
`assert`s are compiled out of the configured Release build) or a victim search
that runs forever.

`find` is the search half of `Lookup`: twenty steps along `next`, giving up at a
null pointer, and only then the index.
-/
import KTableFS.Theory.Bytes
import Mathlib.Logic.Function.Basic

namespace KTableFS.Kvengine

open KTableFS.Theory

set_option autoImplicit false

/-- `PageCache::PAGE_SIZE`. -/
abbrev pageSize : Nat := 4096

/-- `PageCache::Entry`.  `page` is the frame's address inside `data`. -/
structure Entry where
  page : Nat
  hash : Nat
  /-- Waiting for data: the entry cannot be replaced. -/
  wait : Bool
  prev : Option Nat
  next : Option Nat
  valid : Bool
  deriving Inhabited

structure PageCache where
  newest : Option Nat
  oldest : Option Nat
  data : Memory
  /-- `std::map<uint64_t, Entry*> index_`. -/
  index : Nat → Option Nat
  /-- The `Entry` objects, by order of allocation; `usedPage` of them exist. -/
  entry : Nat → Entry
  usedPage : Nat
  maxPage : Nat

/-- Where a walk of the recency list ends. -/
inductive Walk where
  | hit (ent : Nat)
  | null
  | spent
  deriving DecidableEq

namespace PageCache

/-- `PageCache::PageCache(pages)`; `junk` is what the fresh frames hold. -/
def new (pages : Nat) (junk : Memory) : PageCache where
  newest := none
  oldest := none
  data := junk
  index := fun _ => none
  entry := fun _ => default
  usedPage := 0
  maxPage := pages

def modify (c : PageCache) (ent : Nat) (f : Entry → Entry) : PageCache :=
  { c with entry := Function.update c.entry ent (f (c.entry ent)) }

def setPrev (c : PageCache) (ent : Nat) (prev : Option Nat) : PageCache :=
  c.modify ent fun e => { e with prev := prev }

def setNext (c : PageCache) (ent : Nat) (next : Option Nat) : PageCache :=
  c.modify ent fun e => { e with next := next }

/-! ## The recency list -/

/-- `oldest_ = ent->prev; oldest_->next = nullptr;` -/
def dropOldest (c : PageCache) (ent : Nat) : Option PageCache :=
  (c.entry ent).prev.map fun prev => setNext { c with oldest := some prev } prev none

/-- `ent->next = newest_; ent->prev = nullptr; newest_->prev = ent; newest_ = ent;` -/
def pushNewest (c : PageCache) (ent newest : Nat) : PageCache :=
  { ((c.setNext ent (some newest)).setPrev ent none).setPrev newest (some ent) with
    newest := some ent }

/-- `PageCache::Update_`. -/
def update (c : PageCache) (ent : Nat) : Option PageCache :=
  match c.newest with
  | none =>
      some { (c.setPrev ent none).setNext ent none with newest := some ent, oldest := some ent }
  | some newest =>
      if ent = newest then some c
      else
        -- an entry that is neither newest_ nor oldest_ stays linked where it was
        (if c.oldest = some ent then c.dropOldest ent else some c).map fun c =>
          c.pushNewest ent newest

/-! ## Allocation and eviction -/

/-- `while (ent && ent->wait) ent = ent->prev;` -/
def victimFrom (c : PageCache) : Nat → Option Nat → Option Nat
  | 0, _ => none
  | _ + 1, none => none
  | fuel + 1, some ent =>
      if (c.entry ent).wait then c.victimFrom fuel (c.entry ent).prev else some ent

/-- The entry `NewEntry` reuses when the cache is full.  A search that passes more
entries than exist is on a cycle and never ends. -/
def victim (c : PageCache) : Option Nat :=
  c.victimFrom (c.usedPage + 1) c.oldest

/-- Take the victim out of the list, at its end or from its middle. -/
def unlink (c : PageCache) (ent : Nat) : Option PageCache :=
  if c.oldest = some ent then c.dropOldest ent
  else
    match (c.entry ent).prev with
    | none => none
    | some prev =>
        let c := c.setNext prev (c.entry ent).next
        (c.entry ent).next.map fun next => c.setPrev next (c.entry ent).prev

/-- `ent->hash = hash; ent->valid = true; ent->wait = true; index_.emplace(hash, ent);` -/
def install (c : PageCache) (ent hash : Nat) : PageCache :=
  { c.modify ent fun e => { e with hash := hash, valid := true, wait := true } with
    index := if (c.index hash).isSome then c.index else Function.update c.index hash (some ent) }

/-- `PageCache::NewEntry`. -/
def newEntry (c : PageCache) (hash : Nat) : Option (Nat × PageCache) :=
  if c.usedPage < c.maxPage then
    let ent := c.usedPage
    let c := modify { c with usedPage := ent + 1 } ent fun e => { e with page := ent * pageSize }
    ((c.install ent hash).update ent).map fun c => (ent, c)
  else
    match c.victim with
    | none => none
    | some ent =>
        match c.unlink ent with
        | none => none
        | some c =>
            let c := { c with index := Function.update c.index (c.entry ent).hash none }
            ((c.install ent hash).update ent).map fun c => (ent, c)

/-! ## Lookup -/

/-- The walk of at most `fuel` entries from `p` along `next`. -/
def walk (c : PageCache) (hash : Nat) : Nat → Option Nat → Walk
  | 0, _ => .spent
  | _ + 1, none => .null
  | fuel + 1, some p =>
      if (c.entry p).valid = true ∧ (c.entry p).hash = hash then .hit p
      else c.walk hash fuel (c.entry p).next

/-- The entry `Lookup(hash)` returns. -/
def find (c : PageCache) (hash : Nat) : Option Nat :=
  match c.walk hash 20 c.newest with
  | .hit p => some p
  | .null => none
  | .spent =>
      match c.index hash with
      | none => none
      | some ent => if (c.entry ent).valid then some ent else none

/-- `PageCache::Lookup`: the search, then `Update_` of what it found. -/
def lookup (c : PageCache) (hash : Nat) : Option (Option Nat × PageCache) :=
  match c.find hash with
  | none => some (none, c)
  | some ent => (c.update ent).map fun c => (some ent, c)

/-! ## Completion callbacks -/

/-- `PageCache::WriteCallback` of a write that succeeded. -/
def writeCallback (c : PageCache) (ent : Nat) (data : List UInt8) (off : Nat) : PageCache :=
  { c with data := blit c.data ((c.entry ent).page + off) data }

/-- `PageCache::ReadCallback` of a read that succeeded. -/
def readCallback (c : PageCache) (ent : Nat) : PageCache :=
  c.modify ent fun e => { e with valid := true, wait := false }

end PageCache

end KTableFS.Kvengine
