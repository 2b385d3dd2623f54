/-
# Index.Memory -- pointers and the allocators the indexes rely on

The nodes of an index are named by their addresses.  An `Allocator` is `memslab` or
`arena` as the indexes use it: what it hands out is not `NULL` and not in use, and what is
in use stays so until it is freed.
-/
import KTableFS.Theory.OrderedMap

namespace KTableFS.Index

set_option autoImplicit false

abbrev Ptr := Nat

/-- `NULL` -/
def null : Ptr := 0

structure Allocator (σ : Type) where
  new : σ
  alloc : σ → Ptr × σ
  free : σ → Ptr → σ
  /-- The memory is allocated, and not freed since. -/
  InUse : σ → Ptr → Prop
  alloc_ne_null : ∀ s, (alloc s).1 ≠ null
  alloc_fresh : ∀ s, ¬InUse s (alloc s).1
  alloc_inUse : ∀ s, InUse (alloc s).2 (alloc s).1
  alloc_keeps : ∀ s p, InUse s p → InUse (alloc s).2 p
  free_keeps : ∀ s p q, InUse s q → q ≠ p → InUse (free s p) q

/-- Memory is handed out in order, and never again. -/
def Allocator.bump : Allocator Nat where
  new := 0
  alloc s := (s + 1, s + 1)
  free s _ := s
  InUse s p := p ≤ s
  alloc_ne_null s := Nat.succ_ne_zero s
  alloc_fresh s := Nat.not_succ_le_self s
  alloc_inUse s := Nat.le_refl (s + 1)
  alloc_keeps _ _ inUse := Nat.le_succ_of_le inUse
  free_keeps _ _ _ inUse _ := inUse

end KTableFS.Index
