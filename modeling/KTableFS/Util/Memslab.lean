/-
# Util.Memslab -- slabs of one size, recycled over an arena

`Memslab` is `struct memslab` with its arena, its `struct freelist` and the memory the nodes of
the free list lie in: `memory p` are the eight bytes at `p`.  A freed slab is named by a node of
the list; a node that is taken off the list is not used again.  The arena is there from
`memslab_new` on, so that the branches for `memslab->arena == NULL` are never taken.

The arena keeps a ledger (`Arena.Ledger`): every call of `arena_allocate` enters the range it
returns.  Nothing reads it; it says what the allocator has taken.

The clients write into their slabs as they like (`Call.write`).  What they promise is that they
write into slabs they hold and free slabs they hold, which is what a `Pool` keeps track of.

* `memslab_serves`: in every run the slabs, the nodes of the list and the two structures lie apart
  in the arena's blocks, so that no slab is held twice and no client's write reaches the list, and
  the list names the freed slabs, the last one freed first.
* `memslab_takes`: the ledger holds as many slabs as were ever held at once, and a node for every
  slab freed.
-/
import KTableFS.Util.Arena
import KTableFS.Theory.Chain

namespace KTableFS.Util

open KTableFS.Theory

set_option autoImplicit false

/-- An arena with the ranges it has returned, in order. -/
structure Arena.Ledger where
  state : Arena.State
  given : List Region

/-- `arena_allocate`, entered in the ledger. -/
def Arena.Ledger.allocate (C : ArenaConfig) (S : System) (ledger : Arena.Ledger) (size : Nat) :
    Option (Arena.Ledger × Nat) :=
  (ledger.state.allocate C S size).map fun out => (⟨out.1, ledger.given ++ [⟨out.2, round8 size⟩]⟩, out.2)

structure Memslab where
  arena : Arena.Ledger
  /-- The addresses of the `struct memslab`, of its `struct freelist`, and `freelist->head`. -/
  self : Nat
  freelist : Nat
  head : Nat
  slabSize : Nat
  memory : Nat → Nat

/-! ## The free list -/

/-- `sizeof(struct list_node)`, and that of a `struct freelist`. -/
def nodeSize : Nat := 16

/-- `node->next` lies behind `node->data`. -/
def nextOf (memory : Nat → Nat) (node : Nat) : Nat := memory (node + 8)

namespace Memslab

variable (C : ArenaConfig) (S : System)

/-- `freelist_new` -/
def freelistNew (arena : Arena.Ledger) (memory : Nat → Nat) :
    Option (Arena.Ledger × Nat × Nat × (Nat → Nat)) := do
  let (arena, list) ← arena.allocate C S nodeSize
  let (arena, head) ← arena.allocate C S nodeSize
  some (arena, list, head, Function.update (Function.update memory (head + 8) 0) head 0)

/-- `freelist_add` -/
def freelistAdd (m : Memslab) (data : Nat) : Option Memslab := do
  let (arena, newNode) ← m.arena.allocate C S nodeSize
  let memory := Function.update m.memory newNode data
  let memory := Function.update memory (newNode + 8) (nextOf memory m.head)
  some { m with arena := arena, memory := Function.update memory (m.head + 8) newNode }

/-- `freelist_get`; 0 is `NULL`. -/
def freelistGet (m : Memslab) : Memslab × Nat :=
  let node := nextOf m.memory m.head
  if node ≠ 0 then
    ({ m with memory := Function.update m.memory (m.head + 8) (nextOf m.memory node) }, m.memory node)
  else (m, 0)

/-! ## Slabs -/

/-- `memslab_new`; `junk` is what the arena's blocks hold. -/
def new (sizeofMemslab : Nat) (junkBlocks junk : Nat → Nat) (size : Nat) : Option Memslab := do
  let state ← Arena.State.new C S junkBlocks
  let (arena, self) ← Arena.Ledger.allocate C S ⟨state, []⟩ sizeofMemslab
  let (arena, list, head, memory) ← freelistNew C S arena junk
  some ⟨arena, self, list, head, size, memory⟩

/-- `memslab_alloc` -/
def alloc (m : Memslab) : Option (Memslab × Nat) :=
  let got := m.freelistGet
  if got.2 = 0 then
    (got.1.arena.allocate C S m.slabSize).map fun out => ({ got.1 with arena := out.1 }, out.2)
  else some got

/-- `memslab_free` -/
def free (m : Memslab) (data : Nat) : Option Memslab := m.freelistAdd C S data

/-- What clients do with slabs. -/
inductive Call where
  | alloc
  | free (slab : Nat)
  /-- A client stores a word. -/
  | write (addr word : Nat)

/-- The slabs that a call gives back. -/
def Call.frees : Call → Nat
  | .free _ => 1
  | _ => 0

/-- One call, with the slab it returns. -/
def next (m : Memslab) : Call → Option (Memslab × Nat)
  | .alloc => m.alloc C S
  | .free slab => (m.free C S slab).map fun m => (m, 0)
  | .write addr word => some ({ m with memory := Function.update m.memory addr word }, 0)

end Memslab

/-! ## What the clients know -/

/-- The slabs in the clients' hands, and those given back, the last one first. -/
structure Pool where
  held : List Nat
  freed : List Nat

namespace Pool

def empty : Pool := ⟨[], []⟩

/-- A call, and what it returned. -/
def after (pool : Pool) : Memslab.Call → Nat → Pool
  | .alloc, slab => ⟨slab :: pool.held, pool.freed.tail⟩
  | .free slab, _ => ⟨pool.held.erase slab, slab :: pool.freed⟩
  | .write .., _ => pool

/-- What the clients promise. -/
def Allows (slabSize : Nat) (pool : Pool) : Memslab.Call → Prop
  | .alloc => True
  | .free slab => slab ∈ pool.held
  | .write addr _ => ∃ slab ∈ pool.held, Region.Within ⟨addr, 8⟩ ⟨slab, round8 slabSize⟩

/-- The slabs in the clients' hands, and those ever handed out. -/
def sizes (pool : Pool) : Nat × Nat := (pool.held.length, pool.held.length + pool.freed.length)

end Pool

/-- The number of slabs held, and the most that were held at once. -/
def Memslab.Call.count : Nat × Nat → Memslab.Call → Nat × Nat
  | (held, most), .alloc => (held + 1, max most (held + 1))
  | (held, most), .free _ => (held - 1, most)
  | counts, .write .. => counts

/-- A `Memslab` with its clients. -/
structure Tenancy where
  memslab : Memslab
  pool : Pool

def Tenancy.next (C : ArenaConfig) (S : System) (t : Tenancy) (call : Memslab.Call) :
    Option (Tenancy × Nat) :=
  (t.memslab.next C S call).map fun out => (⟨out.1, t.pool.after call out.2⟩, out.2)

def Tenancy.Allows (t : Tenancy) (call : Memslab.Call) : Prop := t.pool.Allows t.memslab.slabSize call

instance (t : Tenancy) : (call : Memslab.Call) → Decidable (t.Allows call)
  | .alloc => .isTrue trivial
  | .free slab => inferInstanceAs (Decidable (slab ∈ t.pool.held))
  | .write addr _ => inferInstanceAs (Decidable (∃ slab ∈ t.pool.held, Region.Within ⟨addr, 8⟩ ⟨slab, _⟩))

/-! ## The arena's answers -/

/-- The blocks in use after a request: those before it, or a fresh one as well. -/
theorem Arena.live_allocate {C : ArenaConfig} {S : System} {s s' : Arena.State} {size p : Nat}
    (taken : s.allocate C S size = some (s', p)) :
    s'.live = s.live ∨ ∃ block : Region, Fresh s.live block ∧ s'.live = s.live ++ [block] := by
  simp only [Arena.State.allocate, Arena.State.allocBlock] at taken
  split at taken
  · simp only [Arena.State.large, Arena.State.pushBlock, Option.map_eq_some_iff] at taken
    obtain ⟨t, ⟨q, answered, rfl⟩, taken⟩ := taken
    cases taken
    exact Or.inr ⟨_, S.malloc_fresh answered, rfl⟩
  · split at taken
    · cases taken
      exact Or.inl rfl
    · simp only [Arena.State.restarted, Arena.State.pushBlock, Option.map_eq_some_iff] at taken
      obtain ⟨t, ⟨q, answered, rfl⟩, taken⟩ := taken
      cases taken
      exact Or.inr ⟨_, S.malloc_fresh answered, rfl⟩

namespace Arena.Ledger

variable {C : ArenaConfig} {S : System} {ledger ledger' : Ledger}

/-- What is entered is what was returned. -/
theorem allocate_eq_some {size p : Nat} (taken : ledger.allocate C S size = some (ledger', p)) :
    ledger.state.allocate C S size = some (ledger'.state, p) ∧
      ledger'.given = ledger.given ++ [⟨p, round8 size⟩] := by
  obtain ⟨⟨s, q⟩, allocated, isOut⟩ := Option.map_eq_some_iff.mp taken
  cases isOut
  exact ⟨allocated, rfl⟩

/-- A sound arena none of whose blocks is at `NULL`. -/
structure Standing (ledger : Ledger) : Prop where
  sound : Arena.Sound ledger.state ledger.given
  real : ∀ b ∈ ledger.state.live, b.base ≠ 0

namespace Standing

theorem new {junk : Nat → Nat} {s : Arena.State} (created : Arena.State.new C S junk = some s) :
    Standing ⟨s, []⟩ := by
  refine ⟨.new created, ?_⟩
  obtain ⟨p, answered, rfl⟩ := Option.map_eq_some_iff.mp created
  intro b member
  rw [List.mem_singleton.mp member]
  exact (S.malloc_fresh answered).notNull

variable (standing : ledger.Standing)

include standing

/-- **`arena_allocate`** -/
theorem allocate {size p : Nat} (ok : SizeOk size) (taken : ledger.allocate C S size = some (ledger', p)) :
    ledger'.Standing ∧ 8 ∣ p := by
  obtain ⟨allocated, entered⟩ := allocate_eq_some taken
  have next : ledger.state.next C S (.allocate size) = some (ledger'.state, ⟨p, round8 size⟩) := by
    rw [Arena.State.next, allocated, Option.map_some]
  obtain ⟨sound, -, eight⟩ := standing.sound.next (show (Arena.Call.allocate size).Ok from ok) next
  refine ⟨⟨entered ▸ sound, fun b member => ?_⟩, eight⟩
  rcases live_allocate allocated with same | ⟨block, fresh, more⟩
  · rw [same] at member
    exact standing.real b member
  · rw [more] at member
    rcases List.mem_append.mp member with old | new
    · exact standing.real b old
    · rw [List.mem_singleton.mp new]
      exact fresh.notNull

/-- What was returned lies in a block, and not at `NULL`. -/
theorem within {r : Region} (member : r ∈ ledger.given) :
    r.base ≠ 0 ∧ ∃ b ∈ ledger.state.live, r.Within b := by
  obtain ⟨b, inUse, within⟩ := standing.sound.inside r member
  have real := standing.real b inUse
  have low := within.1
  exact ⟨by omega, b, inUse, within⟩

end Standing

end Arena.Ledger

/-! ## What every call keeps -/

/-- A slab, and a node of the list. -/
def Memslab.region (m : Memslab) (p : Nat) : Region := ⟨p, round8 m.slabSize⟩

def node (p : Nat) : Region := ⟨p, nodeSize⟩

/-- All that the arena has been asked for. -/
def Memslab.ranges (m : Memslab) (sizeofMemslab : Nat) (pool : Pool) (nodes stale : List Nat) : List Region :=
  ⟨m.self, round8 sizeofMemslab⟩ :: node m.freelist :: node m.head ::
    ((nodes ++ stale).map node ++ (pool.held ++ pool.freed).map m.region)

/-- An allocator with its clients: `nodes` is the free list, `stale` the nodes taken off it. -/
structure Memslab.Keeps (sizeofMemslab : Nat) (m : Memslab) (pool : Pool) (nodes stale : List Nat) : Prop where
  standing : m.arena.Standing
  given : m.arena.given.Perm (m.ranges sizeofMemslab pool nodes stale)
  eight : ∀ p ∈ pool.held ++ pool.freed, 8 ∣ p
  leads : Leads (nextOf m.memory) (nextOf m.memory m.head) nodes 0
  data : nodes.map m.memory = pool.freed

theorem sizeOk_node : Arena.SizeOk nodeSize := ⟨by decide, by decide⟩

/-- The words of nodes that are apart. -/
theorem words_ne {a b : Nat} (apart : (node a).Apart (node b)) : a ≠ b ∧ a ≠ b + 8 ∧ a + 8 ≠ b := by
  simp only [Region.Apart, node, nodeSize] at apart
  omega

/-- **`freelist_add`**: the new node is in front, and no other word of the memory is written. -/
theorem Memslab.freelistAdd_eq_some {C : ArenaConfig} {S : System} {m m' : Memslab} {data : Nat}
    (added : m.freelistAdd C S data = some m') : ∃ arena n memory,
      m.arena.allocate C S nodeSize = some (arena, n) ∧ m' = { m with arena := arena, memory := memory } ∧
      ((node m.head).Apart (node n) → nextOf memory m.head = n ∧ memory n = data ∧
        nextOf memory n = nextOf m.memory m.head ∧
        ∀ q, q ≠ n → q ≠ n + 8 → q ≠ m.head + 8 → memory q = m.memory q) := by
  simp only [freelistAdd, Option.bind_eq_bind, Option.bind_eq_some_iff] at added
  obtain ⟨⟨arena, n⟩, allocated, isOut⟩ := added
  cases isOut
  refine ⟨arena, n, _, allocated, rfl, fun apart => ?_⟩
  have words := words_ne apart
  refine ⟨Function.update_self .., ?_, ?_, fun q notData notNext notHead => ?_⟩
  · rw [Function.update_of_ne (by omega), Function.update_of_ne (by omega), Function.update_self]
  · rw [nextOf, Function.update_of_ne (by omega), Function.update_self, nextOf, Function.update_of_ne (by omega)]
    rfl
  · rw [Function.update_of_ne notHead, Function.update_of_ne notNext, Function.update_of_ne notData]

section Ranges

variable {m : Memslab} {sizeofMemslab : Nat} {pool pool' : Pool} {nodes nodes' stale stale' : List Nat}

theorem Memslab.ranges_perm (sameNodes : (nodes ++ stale).Perm (nodes' ++ stale'))
    (sameSlabs : (pool.held ++ pool.freed).Perm (pool'.held ++ pool'.freed)) :
    (m.ranges sizeofMemslab pool nodes stale).Perm (m.ranges sizeofMemslab pool' nodes' stale') :=
  .cons _ (.cons _ (.cons _ (.append (sameNodes.map node) (sameSlabs.map m.region))))

theorem Memslab.ranges_node (n : Nat) : (node n :: m.ranges sizeofMemslab pool nodes stale).Perm
    (m.ranges sizeofMemslab pool (n :: nodes) stale) :=
  (List.perm_middle : ([⟨m.self, round8 sizeofMemslab⟩, node m.freelist, node m.head] ++ node n ::
    ((nodes ++ stale).map node ++ (pool.held ++ pool.freed).map m.region)).Perm _).symm

theorem Memslab.ranges_slab (p : Nat) : (m.region p :: m.ranges sizeofMemslab pool nodes stale).Perm
    (m.ranges sizeofMemslab ⟨p :: pool.held, pool.freed⟩ nodes stale) :=
  (List.perm_middle : (⟨m.self, round8 sizeofMemslab⟩ :: node m.freelist :: node m.head ::
    (nodes ++ stale).map node ++ m.region p :: (pool.held ++ pool.freed).map m.region).Perm _).symm

end Ranges

namespace Memslab.Keeps

variable {C : ArenaConfig} {S : System} {sizeofMemslab : Nat} {m : Memslab} {pool : Pool} {nodes stale : List Nat}
  (keeps : Keeps sizeofMemslab m pool nodes stale)

include keeps

theorem apart : (m.ranges sizeofMemslab pool nodes stale).Pairwise Region.Apart :=
  (keeps.given.pairwise_iff fun apart => apart.symm).mp keeps.standing.sound.apart

theorem within {r : Region} (member : r ∈ m.ranges sizeofMemslab pool nodes stale) :
    r.base ≠ 0 ∧ ∃ b ∈ m.arena.state.live, r.Within b :=
  keeps.standing.within (keeps.given.mem_iff.mpr member)

/-- The head of the list is apart from its nodes. -/
theorem head_apart {n : Nat} (member : n ∈ nodes) : (node m.head).Apart (node n) := by
  have apart := keeps.apart
  rw [ranges, List.pairwise_cons, List.pairwise_cons, List.pairwise_cons] at apart
  exact apart.2.2.1 _ (List.mem_append_left _ (List.mem_map_of_mem (List.mem_append_left _ member)))

/-- So are the slabs, from the head and from the nodes. -/
theorem slab_apart {p : Nat} (member : p ∈ pool.held ++ pool.freed) : (node m.head).Apart (m.region p) ∧
    ∀ n ∈ nodes, (node n).Apart (m.region p) := by
  have apart := keeps.apart
  rw [ranges, List.pairwise_cons, List.pairwise_cons, List.pairwise_cons, List.pairwise_append] at apart
  have isSlab := List.mem_map_of_mem (f := m.region) member
  exact ⟨apart.2.2.1 _ (List.mem_append_right _ isSlab), fun n inNodes =>
    apart.2.2.2.2.2 _ (List.mem_map_of_mem (List.mem_append_left _ inNodes)) _ isSlab⟩

/-- The list is where it was if its words are. -/
theorem frame {memory : Nat → Nat} (head : memory (m.head + 8) = m.memory (m.head + 8))
    (same : ∀ n ∈ nodes, memory n = m.memory n ∧ memory (n + 8) = m.memory (n + 8)) :
    Keeps sizeofMemslab { m with memory := memory } pool nodes stale where
  standing := keeps.standing
  given := keeps.given
  eight := keeps.eight
  leads := by
    show Leads (nextOf memory) (memory (m.head + 8)) nodes 0
    rw [head]
    exact keeps.leads.congr fun n member => (same n member).2
  data := by
    rw [← keeps.data]
    exact List.map_congr_left fun n member => (same n member).1

/-- A client's write into a slab it holds. -/
theorem write {addr : Nat} (word : Nat)
    (inside : ∃ slab ∈ pool.held, Region.Within ⟨addr, 8⟩ ⟨slab, round8 m.slabSize⟩) :
    Keeps sizeofMemslab { m with memory := Function.update m.memory addr word } pool nodes stale := by
  obtain ⟨slab, held, within⟩ := inside
  obtain ⟨headApart, nodesApart⟩ := keeps.slab_apart (List.mem_append_left _ held)
  simp only [Region.Apart, Region.Within, node, nodeSize, region] at headApart nodesApart within
  refine keeps.frame (Function.update_of_ne (by omega) ..) fun n member => ?_
  have apart := nodesApart n member
  exact ⟨Function.update_of_ne (by omega) .., Function.update_of_ne (by omega) ..⟩

/-- **`freelist_get`** of a list that is not empty. -/
theorem get {slab : Nat} {rest : List Nat} (freed : pool.freed = slab :: rest) :
    ∃ m' n nodes', m.freelistGet = (m', slab) ∧ nodes = n :: nodes' ∧ m'.arena = m.arena ∧
      m'.slabSize = m.slabSize ∧ Keeps sizeofMemslab m' ⟨slab :: pool.held, rest⟩ nodes' (n :: stale) := by
  cases nodes with
  | nil =>
      have none := keeps.data
      rw [freed] at none
      cases none
  | cons n nodes =>
      have data := keeps.data
      rw [freed, List.map_cons, List.cons.injEq] at data
      obtain ⟨isSlab, data⟩ := data
      obtain ⟨isNode, leads⟩ := keeps.leads
      have real : n ≠ 0 := (keeps.within (r := node n) (by simp [ranges])).1
      refine ⟨{ m with memory := Function.update m.memory (m.head + 8) (nextOf m.memory n) }, n, nodes,
        by rw [freelistGet, isNode, if_pos real, isSlab], rfl, rfl, rfl, ?_⟩
      have apart : ∀ k ∈ nodes, (node m.head).Apart (node k) := fun k member =>
        keeps.head_apart (List.mem_cons_of_mem _ member)
      refine ⟨keeps.standing, keeps.given.trans ?_, fun p member => keeps.eight p ?_, ?_, ?_⟩
      · refine ranges_perm List.perm_middle.symm ?_
        rw [freed]
        exact List.perm_middle
      · rw [freed]
        exact List.perm_middle.symm.subset member
      · show Leads _ (Function.update m.memory (m.head + 8) (nextOf m.memory n) (m.head + 8)) nodes 0
        rw [Function.update_self]
        refine leads.congr fun k member => Function.update_of_ne ?_ ..
        have other := words_ne (apart k member)
        omega
      · rw [← data]
        refine List.map_congr_left fun k member => Function.update_of_ne ?_ ..
        exact (words_ne (apart k member)).2.2.symm

/-- An empty list has nothing to get. -/
theorem get_empty (freed : pool.freed = []) : m.freelistGet = (m, 0) := by
  have data := keeps.data
  rw [freed, List.map_eq_nil_iff] at data
  have leads : nextOf m.memory m.head = 0 := by simpa only [data, Leads] using keeps.leads
  rw [freelistGet, if_neg (not_not.mpr leads)]

/-- The arena is asked for one more range. -/
theorem allocate {size : Nat} (ok : Arena.SizeOk size) {arena : Arena.Ledger} {p : Nat}
    (taken : m.arena.allocate C S size = some (arena, p)) :
    arena.Standing ∧ arena.given.Perm (⟨p, round8 size⟩ :: m.ranges sizeofMemslab pool nodes stale) ∧ 8 ∣ p ∧
    ∀ r ∈ m.ranges sizeofMemslab pool nodes stale, r.Apart ⟨p, round8 size⟩ := by
  obtain ⟨standing, eight⟩ := keeps.standing.allocate ok taken
  have entered := (Arena.Ledger.allocate_eq_some taken).2
  have apart := standing.sound.apart
  rw [entered] at apart
  refine ⟨standing, ?_, eight, fun r member => ?_⟩
  · rw [entered]
    exact (List.perm_append_singleton _ _).trans (keeps.given.cons _)
  · exact (List.pairwise_append.mp apart).2.2 r (keeps.given.mem_iff.mpr member) _ (List.mem_singleton_self _)

/-- **`freelist_add`** takes a node that is apart from all of them, so that it writes where it means to. -/
theorem added {data : Nat} {m' : Memslab} (taken : m.freelistAdd C S data = some m') : ∃ arena n memory,
    m' = { m with arena := arena, memory := memory } ∧ m.arena.allocate C S nodeSize = some (arena, n) ∧
      (∀ r ∈ m.ranges sizeofMemslab pool nodes stale, r.Apart (node n)) ∧
      nextOf memory m.head = n ∧ memory n = data ∧ nextOf memory n = nextOf m.memory m.head ∧
      ∀ q, q ≠ n → q ≠ n + 8 → q ≠ m.head + 8 → memory q = m.memory q := by
  obtain ⟨arena, n, memory, allocated, isOut, words⟩ := freelistAdd_eq_some taken
  obtain ⟨-, -, -, apart⟩ := keeps.allocate sizeOk_node allocated
  exact ⟨arena, n, memory, isOut, allocated, apart, words (apart (node m.head) (by simp [ranges]))⟩

/-- **`memslab_alloc`** where no slab is free. -/
theorem take (ok : Arena.SizeOk m.slabSize) (freed : pool.freed = []) {m' : Memslab} {p : Nat}
    (taken : m.alloc C S = some (m', p)) :
    m'.slabSize = m.slabSize ∧ Keeps sizeofMemslab m' ⟨p :: pool.held, []⟩ nodes stale := by
  rw [alloc, keeps.get_empty freed] at taken
  obtain ⟨⟨arena, slab⟩, allocated, isOut⟩ := Option.map_eq_some_iff.mp taken
  cases isOut
  obtain ⟨standing, perm, eight, -⟩ := keeps.allocate ok allocated
  refine ⟨rfl, standing, perm.trans ?_, fun q member => ?_, keeps.leads, freed ▸ keeps.data⟩
  · have more : (m.region slab :: m.ranges sizeofMemslab pool nodes stale).Perm _ := ranges_slab slab
    rw [freed] at more
    exact more
  · rw [List.append_nil] at member
    rcases List.mem_cons.mp member with rfl | old
    · exact eight
    · exact keeps.eight q (List.mem_append_left _ old)

/-- The node of a slab that is given back is apart from all the arena has returned before. -/
theorem costs_node {slab : Nat} {m' : Memslab} (taken : m.free C S slab = some m') :
    ∃ n, m'.arena.given = m.arena.given ++ [node n] ∧ (∀ r ∈ m.arena.given, r.Apart (node n)) ∧
      nextOf m'.memory m'.head = n ∧ m'.memory n = slab := by
  obtain ⟨arena, n, memory, rfl, allocated, apart, first, data, -⟩ := keeps.added taken
  have entered := (Arena.Ledger.allocate_eq_some allocated).2
  exact ⟨n, entered, fun r member => apart r (keeps.given.mem_iff.mp member), first, data⟩

/-- **`memslab_free`** of a slab that is held. -/
theorem giveBack {slab : Nat} (held : slab ∈ pool.held) {m' : Memslab} (taken : m.free C S slab = some m') :
    ∃ n, m'.slabSize = m.slabSize ∧
      Keeps sizeofMemslab m' ⟨pool.held.erase slab, slab :: pool.freed⟩ (n :: nodes) stale := by
  obtain ⟨arena, n, memory, rfl, allocated, apart, first, data, next, others⟩ := keeps.added taken
  obtain ⟨standing, perm, -, -⟩ := keeps.allocate sizeOk_node allocated
  have inPool : (pool.held ++ pool.freed).Perm (pool.held.erase slab ++ slab :: pool.freed) :=
    ((List.perm_cons_erase held).append_right _).trans List.perm_middle.symm
  have kept : ∀ k ∈ nodes, memory k = m.memory k ∧ nextOf memory k = nextOf m.memory k := by
    intro k member
    have inRanges : node k ∈ m.ranges sizeofMemslab pool nodes stale := by
      simp only [ranges, List.map_append, List.mem_cons, List.mem_append]
      exact Or.inr (Or.inr (Or.inr (Or.inl (Or.inl (List.mem_map_of_mem member)))))
    have fromNew := words_ne (apart (node k) inRanges)
    have fromHead := words_ne (keeps.head_apart member)
    exact ⟨others k (by omega) (by omega) (by omega), others (k + 8) (by omega) (by omega) (by omega)⟩
  refine ⟨n, rfl, standing, perm.trans ?_, fun p member => keeps.eight p (inPool.symm.subset member),
    ⟨first, ?_⟩, ?_⟩
  · exact (ranges_node n).trans (ranges_perm (.refl _) inPool)
  · rw [next]
    exact keeps.leads.congr fun k member => (kept k member).2
  · show memory n :: nodes.map memory = slab :: pool.freed
    rw [data, ← keeps.data]
    exact congrArg _ (List.map_congr_left fun k member => (kept k member).1)

end Memslab.Keeps

/-- **One call** of the clients. -/
theorem Memslab.Keeps.next {C : ArenaConfig} {S : System} {sizeofMemslab : Nat} {t t' : Tenancy}
    {nodes stale : List Nat} (keeps : Keeps sizeofMemslab t.memslab t.pool nodes stale)
    (ok : Arena.SizeOk t.memslab.slabSize) {call : Memslab.Call} (allowed : t.Allows call) {out : Nat}
    (taken : t.next C S call = some (t', out)) : t'.memslab.slabSize = t.memslab.slabSize ∧
      ∃ nodes' stale', Keeps sizeofMemslab t'.memslab t'.pool nodes' stale' ∧
        nodes'.length + stale'.length = nodes.length + stale.length + call.frees ∧
        t'.pool.sizes = call.count t.pool.sizes := by
  obtain ⟨⟨m, r⟩, ran, isOut⟩ := Option.map_eq_some_iff.mp taken
  cases isOut
  cases call with
  | alloc =>
      cases freed : t.pool.freed with
      | nil =>
          obtain ⟨size, keeps'⟩ := keeps.take ok freed ran
          refine ⟨size, nodes, stale, by rwa [Pool.after, freed], rfl, ?_⟩
          simp only [Pool.after, Pool.sizes, Call.count, freed, List.tail_nil, List.length_cons, List.length_nil]
          rw [max_eq_right (by omega), Nat.add_zero]
      | cons slab rest =>
          obtain ⟨m', n, nodes', got, rfl, -, size, keeps'⟩ := keeps.get freed
          have real : slab ≠ 0 := (keeps.within (r := t.memslab.region slab) (by simp [ranges, freed])).1
          simp only [Memslab.next, alloc, got, if_neg real, Option.some.injEq, Prod.mk.injEq] at ran
          obtain ⟨rfl, rfl⟩ := ran
          refine ⟨size, nodes', n :: stale, by rwa [Pool.after, freed], ?_, ?_⟩
          · simp only [List.length_cons, Call.frees]
            omega
          · simp only [Pool.after, Pool.sizes, Call.count, freed, List.tail_cons, List.length_cons]
            rw [max_eq_left (by omega), Nat.succ_add_eq_add_succ]
  | free slab =>
      obtain ⟨m', freed, isOut⟩ := Option.map_eq_some_iff.mp ran
      cases isOut
      obtain ⟨n, size, keeps'⟩ := keeps.giveBack allowed freed
      refine ⟨size, n :: nodes, stale, keeps', ?_, ?_⟩
      · simp only [List.length_cons, Call.frees]
        omega
      · have some' := List.length_pos_of_mem allowed
        simp only [Pool.after, Pool.sizes, Call.count, List.length_cons, List.length_erase_of_mem allowed]
        rw [show t.pool.held.length - 1 + (t.pool.freed.length + 1) =
          t.pool.held.length + t.pool.freed.length by omega]
  | write addr word =>
      cases ran
      exact ⟨rfl, nodes, stale, keeps.write word allowed, rfl, rfl⟩

/-! ## Runs -/

/-- **The start**: the arena has been asked for the two structures and the head of the list. -/
theorem Memslab.Keeps.new {C : ArenaConfig} {S : System} {sizeofMemslab size : Nat} (ok : Arena.SizeOk sizeofMemslab)
    {junkBlocks junk : Nat → Nat} {m : Memslab} (created : Memslab.new C S sizeofMemslab junkBlocks junk size = some m) :
    m.slabSize = size ∧ Keeps sizeofMemslab m .empty [] [] := by
  simp only [Memslab.new, freelistNew, Option.bind_eq_bind, Option.bind_eq_some_iff] at created
  obtain ⟨arena, isNew, ⟨arena₁, self⟩, took₁, ⟨arena₃, list', head', memory⟩,
    ⟨⟨arena₂, list⟩, took₂, ⟨arena₃', head⟩, took₃, isList⟩, isOut⟩ := created
  cases isList
  cases isOut
  have standing := Arena.Ledger.Standing.new isNew
  obtain ⟨standing₁, -⟩ := standing.allocate ok took₁
  obtain ⟨standing₂, -⟩ := standing₁.allocate sizeOk_node took₂
  obtain ⟨standing₃, -⟩ := standing₂.allocate sizeOk_node took₃
  have given : arena₃'.given = _ := (Arena.Ledger.allocate_eq_some took₃).2
  rw [(Arena.Ledger.allocate_eq_some took₂).2, (Arena.Ledger.allocate_eq_some took₁).2] at given
  refine ⟨rfl, standing₃, .of_eq given, fun p member => absurd member List.not_mem_nil, ?_, rfl⟩
  show Function.update (Function.update junk (head + 8) 0) head 0 (head + 8) = 0
  rw [Function.update_of_ne (by omega), Function.update_self]

/-- What the allocator promises its clients, when they hold `pool.held`. -/
structure Memslab.Serves (sizeofMemslab : Nat) (m : Memslab) (pool : Pool) (nodes stale : List Nat) : Prop where
  /-- The slabs, the structures and the nodes are memory of the arena. -/
  live : ∀ r ∈ m.ranges sizeofMemslab pool nodes stale, r.base ≠ 0 ∧ ∃ b ∈ m.arena.state.live, r.Within b
  eight : ∀ p ∈ pool.held ++ pool.freed, 8 ∣ p
  /-- They share no byte. -/
  apart : (m.ranges sizeofMemslab pool nodes stale).Pairwise Region.Apart
  /-- The list is that of the freed slabs. -/
  list : Leads (nextOf m.memory) (nextOf m.memory m.head) nodes 0 ∧ nodes.map m.memory = pool.freed

theorem Memslab.Keeps.serves {sizeofMemslab : Nat} {m : Memslab} {pool : Pool} {nodes stale : List Nat}
    (keeps : Keeps sizeofMemslab m pool nodes stale) : Serves sizeofMemslab m pool nodes stale where
  live _ member := keeps.within member
  eight := keeps.eight
  apart := keeps.apart
  list := ⟨keeps.leads, keeps.data⟩

section Runs

variable {C : ArenaConfig} {S : System} {sizeofMemslab size : Nat} {junkBlocks junk : Nat → Nat} {m₀ : Memslab}
  {calls : List Memslab.Call} {t : Tenancy} {outs : List Nat}

/-- What every call keeps, a run keeps. -/
theorem Memslab.Keeps.run : ∀ {calls : List Memslab.Call} {t₀ t : Tenancy} {nodes stale outs : List Nat},
    Keeps sizeofMemslab t₀.memslab t₀.pool nodes stale → Arena.SizeOk t₀.memslab.slabSize →
    Run.Along (Tenancy.next C S) Tenancy.Allows t₀ calls → Run.run (Tenancy.next C S) t₀ calls = some (t, outs) →
    ∃ nodes' stale', Keeps sizeofMemslab t.memslab t.pool nodes' stale' ∧
      nodes'.length + stale'.length = nodes.length + stale.length + (calls.map Call.frees).sum ∧
      t.pool.sizes = calls.foldl Call.count t₀.pool.sizes := by
  intro calls
  induction calls with
  | nil =>
      rintro t₀ t nodes stale outs keeps - - ⟨⟩
      exact ⟨nodes, stale, keeps, rfl, rfl⟩
  | cons call calls ih =>
      intro t₀ t nodes stale outs keeps ok allowed ran
      obtain ⟨t₁, out, outs', taken, rest, -⟩ := Run.run_cons_eq_some.mp ran
      obtain ⟨size, nodes₁, stale₁, keeps₁, length₁, sizes₁⟩ := keeps.next ok allowed.1 taken
      obtain ⟨nodes', stale', keeps', length', sizes'⟩ := ih keeps₁ (size ▸ ok) (allowed.2 _ _ taken) rest
      refine ⟨nodes', stale', keeps', ?_, by rw [sizes', sizes₁, List.foldl_cons]⟩
      rw [length', length₁, List.map_cons, List.sum_cons]
      omega

/-- A slab is written to, given back and handed out again. -/
theorem exists_tenancy : ∃ (C : ArenaConfig) (m₀ : Memslab) (t : Tenancy) (outs : List Nat),
    Memslab.new C .upward 24 (fun _ => 0) (fun _ => 5) 40 = some m₀ ∧
    Run.Along (Tenancy.next C .upward) Tenancy.Allows ⟨m₀, .empty⟩
      [.alloc, .alloc, .write 88 7, .free 72, .alloc, .free 112] ∧
    Run.run (Tenancy.next C .upward) ⟨m₀, .empty⟩ [.alloc, .alloc, .write 88 7, .free 72, .alloc, .free 112] =
      some (t, outs) ∧ outs = [72, 112, 0, 0, 72, 0] := by
  let C : ArenaConfig := ⟨256, 1, by decide, by decide, by decide, by decide⟩
  let calls : List Memslab.Call := [.alloc, .alloc, .write 88 7, .free 72, .alloc, .free 112]
  have ends : (Memslab.new C .upward 24 (fun _ => 0) (fun _ => 5) 40).any (fun m₀ =>
      decide (Run.Along (Tenancy.next C .upward) Tenancy.Allows ⟨m₀, .empty⟩ calls) &&
        decide ((Run.run (Tenancy.next C .upward) ⟨m₀, .empty⟩ calls).map Prod.snd =
          some [72, 112, 0, 0, 72, 0])) = true := by
    decide +kernel
  obtain ⟨m₀, created, facts⟩ := (Option.any_eq_true ..).mp ends
  obtain ⟨allowed, answers⟩ := Bool.and_eq_true _ _ ▸ facts
  obtain ⟨⟨t, outs⟩, ran, isOuts⟩ := Option.map_eq_some_iff.mp (of_decide_eq_true answers)
  exact ⟨C, m₀, t, outs, created, of_decide_eq_true allowed, ran, isOuts⟩

/-- The ranges the arena has returned: the three structures, the slabs in the clients' hands and those
given back, the nodes of the list and those taken off it. -/
structure Tenancy.Takes (sizeofMemslab : Nat) (t : Tenancy) (slabs frees : Nat) (nodes stale : List Nat) : Prop where
  ledger : t.memslab.arena.given.Perm (t.memslab.ranges sizeofMemslab t.pool nodes stale)
  apart : t.memslab.arena.given.Pairwise Region.Apart
  list : Leads (nextOf t.memslab.memory) (nextOf t.memslab.memory t.memslab.head) nodes 0
  slabs : (t.pool.held ++ t.pool.freed).length = slabs
  nodes : (nodes ++ stale).length = frees

/-- **What the allocator takes from the arena**: as many slabs as were ever held at once, and a node
for every slab given back, each fresh. -/
theorem memslab_takes (okSelf : Arena.SizeOk sizeofMemslab) (ok : Arena.SizeOk size)
    (created : Memslab.new C S sizeofMemslab junkBlocks junk size = some m₀)
    (allowed : Run.Along (Tenancy.next C S) Tenancy.Allows ⟨m₀, .empty⟩ calls)
    (ran : Run.run (Tenancy.next C S) ⟨m₀, .empty⟩ calls = some (t, outs)) :
    (∃ nodes stale, t.Takes sizeofMemslab (calls.foldl Memslab.Call.count (0, 0)).2
      (calls.map Memslab.Call.frees).sum nodes stale) ∧
    ∀ slab m', t.memslab.free C S slab = some m' → ∃ n,
      m'.arena.given = t.memslab.arena.given ++ [node n] ∧ (∀ r ∈ t.memslab.arena.given, r.Apart (node n)) ∧
        nextOf m'.memory m'.head = n ∧ m'.memory n = slab := by
  obtain ⟨isSize, start⟩ := Memslab.Keeps.new okSelf created
  obtain ⟨nodes, stale, keeps, length, sizes⟩ := start.run (isSize ▸ ok) allowed ran
  refine ⟨⟨nodes, stale, keeps.given, keeps.standing.sound.apart, keeps.leads, ?_, ?_⟩,
    fun slab m' taken => keeps.costs_node taken⟩
  · rw [List.length_append]
    exact congrArg Prod.snd sizes
  · rw [List.length_append, length]
    exact Nat.zero_add _

/-- Two slabs held at once and two given back are seven ranges with the three structures. -/
theorem memslab_takes_example : ∃ (C : ArenaConfig) (t : Tenancy), Arena.SizeOk 24 ∧ Arena.SizeOk 40 ∧
    (∃ nodes stale, t.Takes 24 2 2 nodes stale) ∧
    ∀ slab m', t.memslab.free C .upward slab = some m' → ∃ n,
      m'.arena.given = t.memslab.arena.given ++ [node n] ∧ (∀ r ∈ t.memslab.arena.given, r.Apart (node n)) ∧
        nextOf m'.memory m'.head = n ∧ m'.memory n = slab := by
  obtain ⟨C, m₀, t, outs, created, allowed, ran, -⟩ := exists_tenancy
  have okSelf : Arena.SizeOk 24 := ⟨by decide, by decide⟩
  have ok : Arena.SizeOk 40 := ⟨by decide, by decide⟩
  exact ⟨C, t, okSelf, ok, memslab_takes okSelf ok created allowed ran⟩

end Runs

end KTableFS.Util
