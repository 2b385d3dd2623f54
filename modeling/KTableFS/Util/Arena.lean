/-
# Util.Arena -- the bump allocator of the indexes

`Arena` is `struct arena` with the block array it points to; an `Arena.State` adds the
blocks the system has handed out to it (`live`), which is also all a `System` bases its
answers on.  A request the system answers with `NULL` ends the run (`none`): the
assertions behind `malloc` and `aligned_alloc` stop the program there.

Pointers are 64-bit words, so rounding a size to eight, and a pointer to an alignment, are
the source's mask operations with their wrap-around.  Sizes of blocks and the loop counter of
`arena_destroy` are numbers.

Three things keep the returned ranges apart (`Arena.Sound`):

* `live` -- the system's blocks are apart, and each is in the block array once;
* `current` -- the bump range `alloc_ptr_ .. alloc_ptr_ + alloc_bytes_remaining_` lies in
  the block at `alloc_blk_idx_`, which a large request is swapped beneath;
* `tail` -- what was returned before is apart from the bump range.
-/
import KTableFS.Theory.Regions
import KTableFS.Theory.Run
import Mathlib.Logic.Function.Basic

namespace KTableFS.Util

open KTableFS.Theory

set_option autoImplicit false

/-- `ktablefs_config.h`: `ARENA_BLOCK_SIZE`, a `size_t`, and `ARENA_NB_BLOCKS`. -/
structure ArenaConfig where
  blockSize : Nat
  nbBlocks : Nat
  eight : 8 ∣ blockSize
  positive : 0 < blockSize
  word : blockSize < 2 ^ 64
  room : 0 < nbBlocks

/-- A block as the system hands it out, when these are in use. -/
structure Fresh (live : List Region) (block : Region) : Prop where
  notNull : block.base ≠ 0
  inside : block.base + block.size < 2 ^ 64
  eight : 8 ∣ block.base
  apart : ∀ r ∈ live, r.Apart block

/-- `malloc` and `aligned_alloc`; `none` is `NULL`. -/
structure System where
  malloc : List Region → Nat → Option Nat
  alignedAlloc : List Region → Nat → Nat → Option Nat
  malloc_fresh : ∀ {live : List Region} {size p : Nat}, malloc live size = some p → Fresh live ⟨p, size⟩
  aligned_fresh : ∀ {live : List Region} {k size p : Nat}, alignedAlloc live (2 ^ k) size = some p →
    Fresh live ⟨p, size⟩ ∧ 2 ^ k ∣ p

/-- `(size + 7) & ~7` -/
def round8 (size : Nat) : Nat := (size + 7) % 2 ^ 64 &&& (2 ^ 64 - 8)

structure Arena where
  allocBlkIdx : Nat
  allocPtr : Nat
  allocBytesRemaining : Nat
  maxBlocks : Nat
  /-- `blocks_`, an array of `blocksBytes` bytes. -/
  blocks : Nat → Nat
  blocksBytes : Nat

namespace Arena

structure State where
  arena : Arena
  live : List Region

/-- `realloc` of the block array; the size of a pointer is taken to be `ARENA_BLOCK_SIZE`. -/
def grow (C : ArenaConfig) (a : Arena) : Arena :=
  if a.allocBlkIdx = a.maxBlocks - 1 then
    { a with
      blocksBytes := (a.maxBlocks + C.nbBlocks) * C.blockSize
      maxBlocks := a.maxBlocks + C.nbBlocks }
  else a

/-- `blocks_[++alloc_blk_idx_] = block` -/
def push (a : Arena) (block : Nat) : Arena :=
  { a with
    allocBlkIdx := a.allocBlkIdx + 1
    blocks := Function.update a.blocks (a.allocBlkIdx + 1) block }

/-- Exchange the last two blocks. -/
def swap (a : Arena) : Arena :=
  let tmp := a.blocks (a.allocBlkIdx - 1)
  let blocks := Function.update a.blocks (a.allocBlkIdx - 1) (a.blocks a.allocBlkIdx)
  { a with blocks := Function.update blocks a.allocBlkIdx tmp }

/-- `size` bytes from the bump range. -/
def bump (a : Arena) (size : Nat) : Arena :=
  { a with
    allocPtr := a.allocPtr + size
    allocBytesRemaining := a.allocBytesRemaining - size }

/-- The bump range behind the first `size` bytes of the current block. -/
def restart (C : ArenaConfig) (a : Arena) (size : Nat) : Arena :=
  { a with
    allocPtr := a.blocks a.allocBlkIdx + size
    allocBytesRemaining := C.blockSize - size }

/-- The step of `alloc_ptr_` to the next multiple of `align`, or the end of the block. -/
def skip (a : Arena) (align : Nat) : Arena :=
  if a.allocPtr &&& (align - 1) ≠ 0 then
    let newPtr := (a.allocPtr + align) % 2 ^ 64 &&& ((2 ^ 64 - 1) ^^^ (align - 1))
    -- the difference of the pointers is compared as a `size_t`
    let step := (newPtr + (2 ^ 64 - a.allocPtr)) % 2 ^ 64
    if step < a.allocBytesRemaining then
      { a with allocBytesRemaining := a.allocBytesRemaining - step, allocPtr := newPtr }
    else { a with allocBytesRemaining := 0 }
  else a

namespace State

variable (C : ArenaConfig) (S : System)

/-- `arena_new`; `junk` is what the fresh block array holds. -/
def new (junk : Nat → Nat) : Option State :=
  (S.malloc [] C.blockSize).map fun block =>
    { arena :=
        { allocBlkIdx := 0
          allocPtr := block
          allocBytesRemaining := C.blockSize
          maxBlocks := C.nbBlocks
          blocks := Function.update junk 0 block
          blocksBytes := 8 * C.nbBlocks }
      live := [⟨block, C.blockSize⟩] }

/-- `arena_destroy`: the blocks it frees, in order. -/
def destroy (s : State) : List Nat := (List.range (s.arena.allocBlkIdx + 1)).map s.arena.blocks

/-- What the system answered goes into the block array. -/
def pushBlock (s : State) (size : Nat) (answer : Option Nat) : Option State :=
  answer.map fun block =>
    { arena := (s.arena.grow C).push block
      live := s.live ++ [⟨block, size⟩] }

/-- `arena_alloc_block` -/
def allocBlock (s : State) (size : Nat) : Option State :=
  s.pushBlock C (round8 size) (S.malloc s.live (round8 size))

/-- `arena_alloc_block_aligned` -/
def allocBlockAligned (s : State) (size align : Nat) : Option State :=
  s.pushBlock C (round8 size) (S.alignedAlloc s.live align (round8 size))

/-- The branch of a large request: its block goes beneath the current one. -/
def large (pushed : Option State) : Option (State × Nat) :=
  pushed.map fun s =>
    ({ s with arena := s.arena.swap }, s.arena.swap.blocks (s.arena.allocBlkIdx - 1))

/-- The branch of a small request the bump range has no room for. -/
def restarted (size : Nat) (pushed : Option State) : Option (State × Nat) :=
  pushed.map fun s =>
    ({ s with arena := s.arena.restart C size }, s.arena.blocks s.arena.allocBlkIdx)

/-- `arena_allocate` -/
def allocate (s : State) (size : Nat) : Option (State × Nat) :=
  let size := round8 size
  if C.blockSize / 4 ≤ size then large (s.allocBlock C S size)
  else if size ≤ s.arena.allocBytesRemaining then
    some ({ s with arena := s.arena.bump size }, s.arena.allocPtr)
  else restarted C size (s.allocBlock C S C.blockSize)

/-- `arena_allocate_aligned` -/
def allocateAligned (s : State) (size align : Nat) : Option (State × Nat) :=
  let size := round8 size
  if C.blockSize / 4 ≤ size then large (s.allocBlockAligned C S size align)
  else
    let s := { s with arena := s.arena.skip align }
    if size ≤ s.arena.allocBytesRemaining then
      some ({ s with arena := s.arena.bump size }, s.arena.allocPtr)
    else restarted C size (s.allocBlockAligned C S C.blockSize align)

end State

/-- A call of the arena. -/
inductive Call where
  | allocate (size : Nat)
  | allocateAligned (size align : Nat)

/-- A size that is not zero and does not wrap when it is rounded. -/
def SizeOk (size : Nat) : Prop := 0 < size ∧ size + 7 < 2 ^ 64

/-- What the callers of the arena promise. -/
def Call.Ok : Call → Prop
  | .allocate size => SizeOk size
  | .allocateAligned size align => SizeOk size ∧ ∃ k, k < 64 ∧ align = 2 ^ k

/-- What the range returned by a call has to be. -/
def Call.Gets (r : Region) : Call → Prop
  | .allocate size => r.size = round8 size ∧ 8 ∣ r.base
  | .allocateAligned size align => r.size = round8 size ∧ 8 ∣ r.base ∧ align ∣ r.base

/-- One call, with the range it returns. -/
def State.next (C : ArenaConfig) (S : System) (s : State) : Call → Option (State × Region)
  | .allocate size => (s.allocate C S size).map fun out => (out.1, ⟨out.2, round8 size⟩)
  | .allocateAligned size align =>
      (s.allocateAligned C S size align).map fun out => (out.1, ⟨out.2, round8 size⟩)

/-! ## What every call keeps -/

/-- The bump range. -/
def rest (a : Arena) : Region := ⟨a.allocPtr, a.allocBytesRemaining⟩

/-- An arena that has returned the ranges `given`. -/
structure Sound (s : State) (given : List Region) : Prop where
  index : s.arena.allocBlkIdx < s.arena.maxBlocks
  array : 8 * s.arena.maxBlocks ≤ s.arena.blocksBytes
  blocks : s.destroy.Perm (s.live.map Region.base)
  live : s.live.Pairwise Region.Apart
  each : ∀ b ∈ s.live, 0 < b.size ∧ 8 ∣ b.base ∧ b.base + b.size < 2 ^ 64
  current : ∃ b ∈ s.live, b.base = s.arena.blocks s.arena.allocBlkIdx ∧ s.arena.rest.Within b
  eight : 8 ∣ s.arena.allocPtr
  inside : ∀ r ∈ given, ∃ b ∈ s.live, r.Within b
  tail : ∀ r ∈ given, r.Apart s.arena.rest
  apart : given.Pairwise Region.Apart

theorem round8_eq {size : Nat} (word : size + 7 < 2 ^ 64) : round8 size = 8 * ((size + 7) / 8) := by
  rw [round8, Nat.mod_eq_of_lt word]
  exact clear_low (w := 64) (k := 3) word

theorem round8_round8 {size : Nat} (word : size + 7 < 2 ^ 64) : round8 (round8 size) = round8 size := by
  have first := round8_eq word
  rw [round8_eq (by omega)]
  omega

theorem round8_spec {size : Nat} (ok : SizeOk size) : 8 ∣ round8 size ∧ 0 < round8 size := by
  have positive := ok.1
  rw [round8_eq ok.2]
  omega

theorem round8_blockSize (C : ArenaConfig) : round8 C.blockSize = C.blockSize := by
  have eight := C.eight
  have word := C.word
  rw [round8_eq (by omega)]
  omega

/-- The array after a push: the new block is last. -/
theorem push_blocks (a : Arena) (p : Nat) :
    (List.range (a.allocBlkIdx + 1 + 1)).map (a.push p).blocks =
      (List.range (a.allocBlkIdx + 1)).map a.blocks ++ [p] := by
  rw [List.range_succ, List.map_append]
  congr 1
  · apply List.map_congr_left
    intro i member
    have below := List.mem_range.mp member
    exact Function.update_of_ne (by omega) ..
  · simp [push]

/-- The array after a push and an exchange: the new block is beneath the last one. -/
theorem swap_push_blocks (a : Arena) (p : Nat) :
    (List.range (a.allocBlkIdx + 1 + 1)).map (a.push p).swap.blocks =
      (List.range a.allocBlkIdx).map a.blocks ++ [p, a.blocks a.allocBlkIdx] := by
  rw [List.range_succ, List.range_succ, List.append_assoc, List.map_append]
  congr 1
  · apply List.map_congr_left
    intro i member
    have below := List.mem_range.mp member
    simp only [push, swap, Nat.add_sub_cancel]
    rw [Function.update_of_ne (by omega), Function.update_of_ne (by omega),
      Function.update_of_ne (by omega)]
  · simp [push, swap]

namespace Sound

variable {C : ArenaConfig} {S : System} {s : State} {given : List Region} (sound : Sound s given)

include sound

/-- The bump range may only get smaller. -/
theorem shrink {a : Arena} (blocks : a.blocks = s.arena.blocks)
    (index : a.allocBlkIdx = s.arena.allocBlkIdx) (room : a.maxBlocks = s.arena.maxBlocks)
    (bytes : a.blocksBytes = s.arena.blocksBytes) (within : a.rest.Within s.arena.rest)
    (eight : 8 ∣ a.allocPtr) : Sound { s with arena := a } given := by
  obtain ⟨b, member, base, there⟩ := sound.current
  refine ⟨?_, ?_, ?_, sound.live, sound.each, ⟨b, member, ?_, within.trans there⟩, eight, sound.inside,
    fun r returned => (sound.tail r returned).mono (.refl r) within, sound.apart⟩
  · rw [index, room]
    exact sound.index
  · rw [room, bytes]
    exact sound.array
  · rw [State.destroy, index, blocks]
    exact sound.blocks
  · rw [index, blocks]
    exact base

/-- A range of a block in use, apart from the others and from the bump range, may be returned. -/
theorem give {r : Region} (inside : ∃ b ∈ s.live, r.Within b) (tail : r.Apart s.arena.rest)
    (apart : ∀ q ∈ given, q.Apart r) : Sound s (given ++ [r]) where
  index := sound.index
  array := sound.array
  blocks := sound.blocks
  live := sound.live
  each := sound.each
  current := sound.current
  eight := sound.eight
  inside q member := by
    rcases List.mem_append.mp member with old | new
    · exact sound.inside q old
    · exact List.mem_singleton.mp new ▸ inside
  tail q member := by
    rcases List.mem_append.mp member with old | new
    · exact sound.tail q old
    · exact List.mem_singleton.mp new ▸ tail
  apart := by
    rw [List.pairwise_append]
    refine ⟨sound.apart, List.pairwise_singleton .., fun q old p new => ?_⟩
    rw [List.mem_singleton.mp new]
    exact apart q old

/-- A range at the start of the bump range. -/
theorem bump {size : Nat} (room : size ≤ s.arena.allocBytesRemaining) (eight : 8 ∣ size) :
    Sound { s with arena := s.arena.bump size } (given ++ [⟨s.arena.allocPtr, size⟩]) := by
  have within : Region.Within ⟨s.arena.allocPtr, size⟩ s.arena.rest :=
    ⟨le_rfl, Nat.add_le_add_left room _⟩
  have smaller : (s.arena.bump size).rest.Within s.arena.rest := by
    simp only [Region.Within, rest, Arena.bump]
    omega
  have bumped := sound.shrink (a := s.arena.bump size) rfl rfl rfl rfl smaller
    (Nat.dvd_add sound.eight eight)
  refine bumped.give ?_ (Or.inl le_rfl) fun q returned => (sound.tail q returned).mono (.refl q) within
  obtain ⟨b, member, -, there⟩ := sound.current
  exact ⟨b, member, within.trans there⟩

/-- After the step to an alignment the bump range is empty or starts at a multiple of it. -/
theorem skip {k : Nat} (word : k < 64) : Sound { s with arena := s.arena.skip (2 ^ k) } given ∧
    (2 ^ k ∣ (s.arena.skip (2 ^ k)).allocPtr ∨ (s.arena.skip (2 ^ k)).allocBytesRemaining = 0) := by
  obtain ⟨b, member, -, low, high⟩ := sound.current
  have last := (sound.each b member).2.2
  simp only [rest] at low high
  unfold Arena.skip
  rw [Nat.and_two_pow_sub_one_eq_mod]
  by_cases off : s.arena.allocPtr % 2 ^ k ≠ 0
  · rw [if_pos off]
    have distance := next_multiple (x := s.arena.allocPtr) (Nat.le_of_lt word) (by omega)
    have multiple := clear_low (k := k) (Nat.mod_lt (s.arena.allocPtr + 2 ^ k) (Nat.two_pow_pos 64))
    generalize (s.arena.allocPtr + 2 ^ k) % 2 ^ 64 &&& ((2 ^ 64 - 1) ^^^ (2 ^ k - 1)) = newPtr
      at distance multiple ⊢
    have divides : 2 ^ k ∣ newPtr := ⟨_, multiple⟩
    have low' := Nat.mod_lt s.arena.allocPtr (Nat.two_pow_pos k)
    have small : 2 ^ k < 2 ^ 64 := Nat.pow_lt_pow_right (by decide) word
    have short : 2 ^ k - s.arena.allocPtr % 2 ^ k < 2 ^ 64 := by omega
    rw [Nat.mod_eq_of_lt short] at distance
    by_cases reached : (newPtr + (2 ^ 64 - s.arena.allocPtr)) % 2 ^ 64 < s.arena.allocBytesRemaining
    · -- the next multiple is in the bump range, so that the sum has not wrapped
      have ahead : newPtr < 2 ^ 64 := by
        rw [multiple]
        exact lt_of_le_of_lt (Nat.mul_div_le _ _) (Nat.mod_lt _ (Nat.two_pow_pos 64))
      have step : newPtr = s.arena.allocPtr + (newPtr + (2 ^ 64 - s.arena.allocPtr)) % 2 ^ 64 := by
        omega
      have eight : 8 ∣ newPtr := by
        have big : 3 ≤ k := by
          by_contra few
          exact off (Nat.mod_eq_zero_of_dvd ((Nat.pow_dvd_pow 2 (by omega : k ≤ 3)).trans sound.eight))
        exact (Nat.pow_dvd_pow 2 big).trans divides
      simp only [if_pos reached]
      refine ⟨sound.shrink rfl rfl rfl rfl ?_ eight, Or.inl divides⟩
      simp only [Region.Within, rest]
      omega
    · simp only [if_neg reached]
      refine ⟨sound.shrink rfl rfl rfl rfl ?_ sound.eight, Or.inr trivial⟩
      simp only [Region.Within, rest]
      omega
  · rw [if_neg off]
    exact ⟨sound, Or.inl (Nat.dvd_of_mod_eq_zero (not_not.mp off))⟩

/-- Growing the array keeps what is in it, and makes room for one block more. -/
theorem grow (C : ArenaConfig) : (s.arena.grow C).allocBlkIdx = s.arena.allocBlkIdx ∧
    (s.arena.grow C).blocks = s.arena.blocks ∧ (s.arena.grow C).rest = s.arena.rest ∧
    (s.arena.grow C).allocBlkIdx + 1 < (s.arena.grow C).maxBlocks ∧
    8 * (s.arena.grow C).maxBlocks ≤ (s.arena.grow C).blocksBytes := by
  have index := sound.index
  have array := sound.array
  unfold Arena.grow
  split
  · have room := C.room
    -- a block size is at least the size of a pointer
    have pointer : 8 ≤ C.blockSize := Nat.le_of_dvd C.positive C.eight
    refine ⟨rfl, rfl, rfl, by simp only; omega, ?_⟩
    rw [Nat.mul_comm 8]
    exact Nat.mul_le_mul_left _ pointer
  · exact ⟨rfl, rfl, rfl, by omega, array⟩

/-- Every range returned is apart from a fresh block. -/
theorem apart_fresh {block : Region} (fresh : Fresh s.live block) : ∀ q ∈ given, q.Apart block := by
  intro q returned
  obtain ⟨b, member, there⟩ := sound.inside q returned
  exact (fresh.apart b member).mono there (.refl block)

/-- A fresh block enters the array. -/
theorem enter {block : Region} (fresh : Fresh s.live block) (positive : 0 < block.size) {a : Arena}
    (index : a.allocBlkIdx < a.maxBlocks) (array : 8 * a.maxBlocks ≤ a.blocksBytes)
    (blocks : ((List.range (a.allocBlkIdx + 1)).map a.blocks).Perm (s.destroy ++ [block.base]))
    (current : ∃ b ∈ s.live ++ [block], b.base = a.blocks a.allocBlkIdx ∧ a.rest.Within b)
    (eight : 8 ∣ a.allocPtr) (tail : ∀ r ∈ given, r.Apart a.rest) :
    Sound ⟨a, s.live ++ [block]⟩ given where
  index := index
  array := array
  blocks := by
    refine blocks.trans ?_
    rw [List.map_append]
    exact sound.blocks.append_right _
  live := by
    refine List.pairwise_append.mpr ⟨sound.live, List.pairwise_singleton .., fun b member b' new => ?_⟩
    rw [List.mem_singleton.mp new]
    exact fresh.apart b member
  each b member := by
    rcases List.mem_append.mp member with old | new
    · exact sound.each b old
    · rw [List.mem_singleton.mp new]
      exact ⟨positive, fresh.eight, fresh.inside⟩
  current := current
  eight := eight
  inside r returned := by
    obtain ⟨b, member, there⟩ := sound.inside r returned
    exact ⟨b, List.mem_append_left _ member, there⟩
  tail := tail
  apart := sound.apart

/-- **A large request**: its block is swapped beneath the current one. -/
theorem large {size : Nat} {answer : Option Nat} {out : State × Nat}
    (fresh : ∀ p, answer = some p → Fresh s.live ⟨p, size⟩) (positive : 0 < size)
    (took : State.large (s.pushBlock C size answer) = some out) :
    Sound out.1 (given ++ [⟨out.2, size⟩]) ∧ answer = some out.2 := by
  obtain ⟨t, pushed, rfl⟩ := Option.map_eq_some_iff.mp took
  obtain ⟨p, answered, rfl⟩ := Option.map_eq_some_iff.mp pushed
  obtain ⟨index, blocks, range, room, array⟩ := sound.grow C
  have fresh' := fresh p answered
  obtain ⟨b, member, base, there⟩ := sound.current
  have beneath : ((s.arena.grow C).push p).swap.blocks (s.arena.grow C).allocBlkIdx = p := by
    simp [push, swap]
  have top : ((s.arena.grow C).push p).swap.blocks ((s.arena.grow C).allocBlkIdx + 1) =
      s.arena.blocks s.arena.allocBlkIdx := by
    simp [push, swap, blocks, index]
  have entered : Sound ⟨((s.arena.grow C).push p).swap, s.live ++ [⟨p, size⟩]⟩ given := by
    refine sound.enter fresh' positive room array ?_ ⟨b, List.mem_append_left _ member, ?_, ?_⟩ ?_
      fun r returned => ?_
    · rw [show ((s.arena.grow C).push p).swap.allocBlkIdx = (s.arena.grow C).allocBlkIdx + 1 from rfl,
        swap_push_blocks, State.destroy, List.range_succ, List.map_append, List.append_assoc, blocks, index]
      exact (List.Perm.swap ..).append_left _
    · exact base.trans top.symm
    · exact (range ▸ there : (s.arena.grow C).rest.Within b)
    · have same : (s.arena.grow C).allocPtr = s.arena.allocPtr := congrArg Region.base range
      exact same ▸ sound.eight
    · exact (range ▸ sound.tail r returned : r.Apart (s.arena.grow C).rest)
  have returned : ((s.arena.grow C).push p).swap.blocks (((s.arena.grow C).push p).allocBlkIdx - 1) = p :=
    beneath
  simp only [returned]
  refine ⟨entered.give ⟨⟨p, size⟩, by simp, .refl _⟩ ?_ (sound.apart_fresh fresh'), answered⟩
  have apart : Region.Apart ⟨p, size⟩ s.arena.rest :=
    (fresh'.apart b member).symm.mono (.refl _) there
  exact (range ▸ apart : Region.Apart ⟨p, size⟩ (s.arena.grow C).rest)

/-- **A small request without room**: it is the start of a fresh block. -/
theorem restarted {size : Nat} {answer : Option Nat} {out : State × Nat}
    (fresh : ∀ p, answer = some p → Fresh s.live ⟨p, C.blockSize⟩) (fits : size ≤ C.blockSize)
    (eight : 8 ∣ size) (took : State.restarted C size (s.pushBlock C C.blockSize answer) = some out) :
    Sound out.1 (given ++ [⟨out.2, size⟩]) ∧ answer = some out.2 := by
  obtain ⟨t, pushed, rfl⟩ := Option.map_eq_some_iff.mp took
  obtain ⟨p, answered, rfl⟩ := Option.map_eq_some_iff.mp pushed
  obtain ⟨index, blocks, -, room, array⟩ := sound.grow C
  have fresh' := fresh p answered
  have top : ((s.arena.grow C).push p).blocks ((s.arena.grow C).push p).allocBlkIdx = p := by
    simp [push]
  have within : (((s.arena.grow C).push p).restart C size).rest.Within ⟨p, C.blockSize⟩ := by
    simp only [Region.Within, rest, restart, top]
    omega
  have entered : Sound ⟨((s.arena.grow C).push p).restart C size, s.live ++ [⟨p, C.blockSize⟩]⟩ given := by
    refine sound.enter fresh' C.positive room array ?_ ⟨⟨p, C.blockSize⟩, by simp, top.symm, within⟩ ?_
      fun r returned => ((sound.apart_fresh fresh') r returned).mono (.refl r) within
    · rw [show (((s.arena.grow C).push p).restart C size).allocBlkIdx =
        (s.arena.grow C).allocBlkIdx + 1 from rfl, State.destroy, ← blocks, ← index]
      exact List.Perm.of_eq (push_blocks ..)
    · simp only [restart, top]
      exact Nat.dvd_add fresh'.eight eight
  simp only [top]
  have start : Region.Within ⟨p, size⟩ ⟨p, C.blockSize⟩ := ⟨le_rfl, Nat.add_le_add_left fits p⟩
  refine ⟨entered.give ⟨⟨p, C.blockSize⟩, by simp, start⟩ (Or.inl ?_) fun q returned =>
    ((sound.apart_fresh fresh') q returned).mono (.refl q) start, answered⟩
  simp only [rest, restart, top]
  exact le_rfl

/-- **One call** keeps the arena sound, and returns what was asked for. -/
theorem next {call : Call} (ok : call.Ok) {out : State × Region} (taken : s.next C S call = some out) :
    Sound out.1 (given ++ [out.2]) ∧ call.Gets out.2 := by
  cases call with
  | allocate size =>
      obtain ⟨⟨t, p⟩, took, rfl⟩ := Option.map_eq_some_iff.mp taken
      obtain ⟨eight, positive⟩ := round8_spec ok
      simp only [State.allocate, State.allocBlock, round8_round8 ok.2, round8_blockSize] at took
      split at took
      · obtain ⟨sound', answered⟩ := sound.large (fun _ => S.malloc_fresh) positive took
        exact ⟨sound', rfl, (S.malloc_fresh answered).eight⟩
      · split at took
        · next room =>
            cases took
            exact ⟨sound.bump room eight, rfl, sound.eight⟩
        · obtain ⟨sound', answered⟩ :=
            sound.restarted (fun _ => S.malloc_fresh) (by omega) eight took
          exact ⟨sound', rfl, (S.malloc_fresh answered).eight⟩
  | allocateAligned size align =>
      obtain ⟨sizeOk, k, word, rfl⟩ := ok
      obtain ⟨⟨t, p⟩, took, rfl⟩ := Option.map_eq_some_iff.mp taken
      obtain ⟨eight, positive⟩ := round8_spec sizeOk
      simp only [State.allocateAligned, State.allocBlockAligned, round8_round8 sizeOk.2,
        round8_blockSize] at took
      split at took
      · obtain ⟨sound', answered⟩ :=
          sound.large (fun _ answered => (S.aligned_fresh answered).1) positive took
        exact ⟨sound', rfl, (S.aligned_fresh answered).1.eight, (S.aligned_fresh answered).2⟩
      · obtain ⟨skipped, aligned⟩ := sound.skip word
        split at took
        · next room =>
            cases took
            refine ⟨skipped.bump room eight, rfl, skipped.eight, aligned.resolve_right ?_⟩
            omega
        · obtain ⟨sound', answered⟩ := skipped.restarted
            (fun _ answered => (S.aligned_fresh answered).1) (by omega) eight took
          exact ⟨sound', rfl, (S.aligned_fresh answered).1.eight, (S.aligned_fresh answered).2⟩

end Sound

theorem Sound.new {C : ArenaConfig} {S : System} {junk : Nat → Nat} {s : State}
    (created : State.new C S junk = some s) : Sound s [] := by
  obtain ⟨p, answered, rfl⟩ := Option.map_eq_some_iff.mp created
  have fresh := S.malloc_fresh answered
  refine ⟨C.room, le_rfl, ?_, by simp, ?_, ⟨_, List.mem_singleton_self _, ?_, .refl _⟩, fresh.eight,
    by simp, by simp, .nil⟩
  · simp [State.destroy]
  · intro b member
    rw [List.mem_singleton.mp member]
    exact ⟨C.positive, fresh.eight, fresh.inside⟩
  · simp

/-- What the arena promises to those who call it, and to those who destroy it. -/
structure Serves (s : State) (given : List (Call × Region)) : Prop where
  gets : ∀ call r, (call, r) ∈ given → call.Gets r
  inside : ∀ call r, (call, r) ∈ given →
    ∃ b ∈ s.live, (∃ i ≤ s.arena.allocBlkIdx, s.arena.blocks i = b.base) ∧ r.Within b
  apart : (given.map Prod.snd).Pairwise Region.Apart
  /-- The bump range ends in the current block. -/
  bump : ∃ b ∈ s.live, b.base = s.arena.blocks s.arena.allocBlkIdx ∧ s.arena.rest.Within b
  /-- The block array has room for what is in it. -/
  array : 8 * (s.arena.allocBlkIdx + 1) ≤ s.arena.blocksBytes
  /-- `arena_destroy` frees every block the system has handed out, and each once. -/
  freed : s.destroy.Perm (s.live.map Region.base)
  once : s.destroy.Nodup

theorem Sound.serves {s : State} {given : List (Call × Region)} (sound : Sound s (given.map Prod.snd))
    (gets : ∀ call r, (call, r) ∈ given → call.Gets r) : Serves s given where
  gets := gets
  inside call r member := by
    obtain ⟨b, inUse, there⟩ := sound.inside r (List.mem_map.mpr ⟨_, member, rfl⟩)
    have listed := sound.blocks.mem_iff.mpr (List.mem_map.mpr ⟨b, inUse, rfl⟩)
    obtain ⟨i, below, same⟩ := List.mem_map.mp listed
    exact ⟨b, inUse, ⟨i, by have := List.mem_range.mp below; omega, same⟩, there⟩
  apart := sound.apart
  bump := sound.current
  array := by
    have index := sound.index
    have array := sound.array
    omega
  freed := sound.blocks
  once := sound.blocks.nodup_iff.mpr (Region.nodup_bases sound.live fun b inUse => (sound.each b inUse).1)

/-- **The arena hands out disjoint, aligned memory**, whatever the sizes, the alignments and their
order. -/
theorem arena_serves {C : ArenaConfig} {S : System} {junk : Nat → Nat} {calls : List Call}
    (ok : ∀ call ∈ calls, call.Ok) {s₀ s : State} {ranges : List Region}
    (created : State.new C S junk = some s₀)
    (ran : Run.run (State.next C S) s₀ calls = some (s, ranges)) : Serves s (calls.zip ranges) := by
  have step : ∀ (given : List (Call × Region)) (s : State) (call : Call) (s' : State) (r : Region),
      (Sound s (given.map Prod.snd) ∧ ∀ c q, (c, q) ∈ given → c.Gets q) → call.Ok →
      s.next C S call = some (s', r) →
      Sound s' ((given ++ [(call, r)]).map Prod.snd) ∧ ∀ c q, (c, q) ∈ given ++ [(call, r)] → c.Gets q := by
    rintro given s call s' r ⟨sound, gets⟩ ok taken
    obtain ⟨sound', here⟩ := sound.next ok taken
    refine ⟨by rw [List.map_append]; exact sound', fun c q member => ?_⟩
    rcases List.mem_append.mp member with old | new
    · exact gets c q old
    · cases List.mem_singleton.mp new
      exact here
  have start : Sound s₀ (([] : List (Call × Region)).map Prod.snd) ∧
      ∀ (c : Call) (q : Region), (c, q) ∈ ([] : List (Call × Region)) → c.Gets q :=
    ⟨Sound.new created, by simp⟩
  obtain ⟨sound, gets⟩ := Run.trail step start ok ran
  exact Sound.serves sound gets

end Arena

/-- The end of the highest block in use. -/
def top (live : List Region) : Nat := live.foldr (fun r high => max (r.base + r.size) high) 8

/-- The lowest multiple of `8 * align` above all blocks in use. -/
def above (live : List Region) (align size : Nat) : Option Nat :=
  let p := 8 * align * (top live / (8 * align) + 1)
  if p + size < 2 ^ 64 then some p else none

theorem le_top {live : List Region} {r : Region} (member : r ∈ live) : r.base + r.size ≤ top live := by
  induction live with
  | nil => cases member
  | cons first rest ih =>
      rcases List.mem_cons.mp member with rfl | later
      · exact le_max_left ..
      · exact (ih later).trans (le_max_right ..)

theorem fresh_above {live : List Region} {align size p : Nat} (positive : 0 < align)
    (placed : above live align size = some p) : Fresh live ⟨p, size⟩ ∧ align ∣ p := by
  unfold above at placed
  simp only [Option.ite_none_right_eq_some, Option.some.injEq] at placed
  obtain ⟨inside, rfl⟩ := placed
  have higher : top live < 8 * align * (top live / (8 * align) + 1) :=
    Nat.lt_mul_div_succ _ (by omega)
  refine ⟨⟨by simp only; omega, inside, Dvd.dvd.mul_right ⟨align, rfl⟩ _, fun r member => Or.inl ?_⟩,
    Dvd.dvd.mul_right (Nat.dvd_mul_left ..) _⟩
  exact (le_top member).trans higher.le

/-- A system that never reuses an address. -/
def System.upward : System where
  malloc live size := above live 1 size
  alignedAlloc live align size := above live align size
  malloc_fresh placed := (fresh_above Nat.one_pos placed).1
  aligned_fresh placed := fresh_above (Nat.two_pow_pos _) placed

namespace Arena

/-- A block for each of the three kinds of request, and the array grown twice. -/
theorem arena_serves_example : ∃ (C : ArenaConfig) (s₀ s : State) (ranges : List Region),
    State.new C .upward (fun _ => 0) = some s₀ ∧
    Run.run (State.next C .upward) s₀
      [.allocate 5, .allocateAligned 3 32, .allocate 100, .allocateAligned 9 4096] = some (s, ranges) ∧
    ranges = [⟨16, 8⟩, ⟨32, 8⟩, ⟨280, 104⟩, ⟨32768, 16⟩] ∧ s.destroy = [280, 16, 32768] ∧
    Serves s ([.allocate 5, .allocateAligned 3 32, .allocate 100, .allocateAligned 9 4096].zip ranges) := by
  let C : ArenaConfig := ⟨256, 1, by decide, by decide, by decide, by decide⟩
  let calls : List Call := [.allocate 5, .allocateAligned 3 32, .allocate 100, .allocateAligned 9 4096]
  have ok : ∀ call ∈ calls, call.Ok := by
    simp only [calls, List.forall_mem_cons, Call.Ok, SizeOk]
    exact ⟨by decide, ⟨by decide, 5, by decide⟩, by decide, ⟨by decide, 12, by decide⟩, by simp⟩
  have ends : ((State.new C .upward fun _ => 0).bind fun s₀ =>
      (Run.run (State.next C .upward) s₀ calls).map fun out => (out.2, out.1.destroy)) =
        some ([⟨16, 8⟩, ⟨32, 8⟩, ⟨280, 104⟩, ⟨32768, 16⟩], [280, 16, 32768]) := by
    decide +kernel
  obtain ⟨s₀, created, later⟩ := Option.bind_eq_some_iff.mp ends
  obtain ⟨⟨s, ranges⟩, ran, facts⟩ := Option.map_eq_some_iff.mp later
  obtain ⟨isRanges, isFreed⟩ := Prod.mk.inj facts
  exact ⟨C, s₀, s, ranges, created, ran, isRanges, isFreed, arena_serves ok created ran⟩

end Arena

end KTableFS.Util
