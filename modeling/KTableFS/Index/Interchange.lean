/-
# Index.Interchange -- one index in place of the other

A build has one of the two indexes.  Both answer as the ordered map does, so they differ where
the keys of their scans do: `btree_scan` calls back for `max_key`, `rbtree_scan` does not.
-/
import KTableFS.Index.BtreeMap
import KTableFS.Index.RbtreeMap

namespace KTableFS.Index

open KTableFS.Theory

set_option autoImplicit false

variable {σ σ' K V : Type}

/-- What the calls return on a tree of `btree_new`. -/
def Btree.outs [Inhabited V] (C : KeyCmp K) (A : Allocator σ) (junk : Btree σ K V) (order : Nat)
    (ops : List (Op K V)) : Option (List (Out K V)) := do
  let T ← Btree.new A junk order
  (Run.run (Btree.call C A) T ops).map Prod.snd

/-- What they return on a tree of `rbtree_new`. -/
def Rbtree.outs [Inhabited K] [Inhabited V] (C : KeyCmp K) (A : Allocator σ) (junk : Ptr → RbtreeNode K V)
    (ops : List (Op K V)) : Option (List (Out K V)) :=
  (Run.run (Rbtree.next C A) (Rbtree.new A junk) ops).map Prod.snd

/-- A scan whose `max_key` is not stored, or is below `min_key`. -/
def ScanApart {C : KeyCmp K} (m : OrderedMap K V C.order) : Op K V → Prop
  | .scan minKey maxKey => m.contains maxKey = true → C.keyLess maxKey minKey = true
  | _ => True

section Interchange

variable {C : KeyCmp K} {m : OrderedMap K V C.order}

/-- The keys of a scan of the B-tree, and not of the red-black tree: those equal to `max_key`. -/
theorem inRange_iff {minKey maxKey key : K} : Btree.inRange C minKey maxKey key = true ↔
    Rbtree.inRange C minKey maxKey key = true ∨
      C.order maxKey key = .eq ∧ C.keyLess maxKey minKey = false := by
  have symm : C.order maxKey key = .eq ↔ C.order key maxKey = .eq := ⟨Std.OrientedCmp.eq_symm, Std.OrientedCmp.eq_symm⟩
  have congr : C.order key maxKey = .eq → C.order key minKey = C.order maxKey minKey := Std.TransCmp.congr_left
  simp only [Btree.inRange, Rbtree.inRange, Bool.and_eq_true, Bool.not_eq_true', ← Bool.not_eq_true,
    ← C.order_lt, ← C.order_gt, symm]
  cases here : C.order key maxKey with
  | lt | gt => simp
  | eq => simp [congr here]

/-- The two scans are alike exactly where `max_key` is not among the keys. -/
theorem agrees_iff [Inhabited V] (op : Op K V) :
    (m.next (Btree.inRange C) op).2.Agrees (m.next (Rbtree.inRange C) op).2 ↔ ScanApart m op := by
  cases op with
  | insert key value => exact iff_of_true (.refl _) trivial
  | remove key => exact iff_of_true (.refl _) trivial
  | lookup key => exact iff_of_true (.refl _) trivial
  | scan minKey maxKey =>
      constructor
      · intro agrees contains
        obtain ⟨e, member, equal⟩ := List.any_eq_true.mp contains
        by_contra notBelow
        have inB := inRange_iff.mpr (Or.inr ⟨eq_of_beq equal, Bool.not_eq_true _ ▸ notBelow⟩)
        have inR := (List.mem_filter.mp (agrees.perm.subset (List.mem_filter.mpr ⟨member, inB⟩))).2
        have below := C.order_lt.mpr (Bool.and_eq_true _ _ ▸ inR).2
        rw [Std.OrientedCmp.eq_symm (eq_of_beq equal)] at below
        cases below
      · intro apart
        have same : m.pairs.filter (fun e => Btree.inRange C minKey maxKey e.1) =
            m.pairs.filter fun e => Rbtree.inRange C minKey maxKey e.1 := by
          refine List.filter_congr fun e member => Bool.eq_iff_iff.mpr (inRange_iff.trans ?_)
          refine or_iff_left fun inB => ?_
          have contains : m.contains maxKey = true := List.any_eq_true.mpr ⟨e, member, beq_of_eq inB.1⟩
          rw [apart contains] at inB
          cases inB.2
        simp only [OrderedMap.next, same]
        exact .refl _

end Interchange

/-- **The two indexes answer alike exactly where no scan has a stored key as its `max_key`**, or has
one below its `min_key`. -/
theorem interchangeable_iff [Inhabited K] [Inhabited V] (C : KeyCmp K) (A : Allocator σ) (A' : Allocator σ')
    (junk : Btree σ K V) (junk' : Ptr → RbtreeNode K V) (order : Nat) (large : 2 < order) (ops : List (Op K V)) :
    ∃ outs outs', Btree.outs C A junk order ops = some outs ∧ Rbtree.outs C A' junk' ops = some outs' ∧
      (List.Forall₂ Out.Agrees outs outs' ↔
        Run.Along (fun m op => some (m.next (Btree.inRange C) op)) ScanApart
          (.empty : OrderedMap K V C.order) ops) := by
  have stepsB : ∀ (T : Btree σ K V) (m : OrderedMap K V C.order) (op : Op K V), Btree.Represents A order T m →
      ∃ T' out, T.call C A op = some (T', out) ∧ out.Agrees (m.next (Btree.inRange C) op).2 ∧
        Btree.Represents A order T' (m.next (Btree.inRange C) op).1 := fun _ _ op represents => represents.call op
  have stepsR : ∀ (T : Rbtree σ' K V) (m : OrderedMap K V C.order) (op : Op K V), Rbtree.Represents A' T m →
      ∃ T' out, T.next C A' op = some (T', out) ∧ out.Agrees (m.next (Rbtree.inRange C) op).2 ∧
        Rbtree.Represents A' T' (m.next (Rbtree.inRange C) op).1 := fun _ _ op represents => represents.next op
  obtain ⟨T₀, made, start⟩ := Btree.Represents.new C A junk large
  obtain ⟨T, outs, ran, agree, -⟩ := Run.simulates_upTo stepsB ops start
  obtain ⟨T', outs', ran', agree', -⟩ := Run.simulates_upTo stepsR ops (Rbtree.Represents.new C A' junk')
  refine ⟨outs, outs', by rw [Btree.outs, made, Option.bind_eq_bind, Option.bind_some, ran, Option.map_some],
    by rw [Rbtree.outs, ran', Option.map_some], ?_⟩
  have sameState : ∀ (m : OrderedMap K V C.order) op,
      (m.next (Btree.inRange C) op).1 = (m.next (Rbtree.inRange C) op).1 := by
    intro m op
    cases op <;> rfl
  have maps : List.Forall₂ Out.Agrees (Run.trace (OrderedMap.next (Btree.inRange C)) .empty ops).2
      (Run.trace (OrderedMap.next (Rbtree.inRange C)) .empty ops).2 ↔ _ := Run.forall₂_trace_iff sameState
  simp only [agrees_iff] at maps
  exact (Out.Agrees.congr agree agree').trans maps

theorem interchangeable_iff_example : 2 < 3 ∧ ∃ outs outs',
    Btree.outs KeyCmp.numbers Allocator.bump (.blank 0 0 0) 3 [.insert 1 10, .scan 0 2] = some outs ∧
      Rbtree.outs KeyCmp.numbers Allocator.bump (fun _ => ⟨null, null, null, 0, 0, .red⟩)
        [.insert 1 10, .scan 0 2] = some outs' ∧
      (List.Forall₂ Out.Agrees outs outs' ↔
        Run.Along (fun m op => some (m.next (Btree.inRange KeyCmp.numbers) op)) ScanApart
          (.empty : OrderedMap Nat Nat KeyCmp.numbers.order) [.insert 1 10, .scan 0 2]) :=
  ⟨by decide, interchangeable_iff KeyCmp.numbers Allocator.bump Allocator.bump (.blank 0 0 0) _ 3 (by decide) _⟩

/-- A scan up to a stored key. -/
theorem scan_differs : ¬∀ (K V σ σ' : Type) [Inhabited K] [Inhabited V] (C : KeyCmp K) (A : Allocator σ)
    (A' : Allocator σ') (junk : Btree σ K V) (junk' : Ptr → RbtreeNode K V) (order : Nat) (ops : List (Op K V)),
    2 < order → ∃ outs outs', Btree.outs C A junk order ops = some outs ∧ Rbtree.outs C A' junk' ops = some outs' ∧
      List.Forall₂ Out.Agrees outs outs' := by
  intro all
  obtain ⟨outs, outs', isOuts, isOuts', agree⟩ := all Nat Nat Nat Nat KeyCmp.numbers Allocator.bump Allocator.bump
    (.blank 0 0 0) (fun _ => ⟨null, null, null, 0, 0, .red⟩) 3 [.insert 1 10, .scan 0 1] (by decide)
  have first : Btree.outs KeyCmp.numbers Allocator.bump (.blank 0 0 0) 3 [.insert 1 10, .scan 0 1] =
      some [.code 0, .scanned [(1, 10)] 1] := by rfl
  have second : Rbtree.outs KeyCmp.numbers Allocator.bump (fun _ => ⟨null, null, null, 0, 0, .red⟩)
      [.insert 1 10, .scan 0 1] = some [.code 0, .scanned [] 0] := by rfl
  rw [first, Option.some.injEq] at isOuts
  rw [second, Option.some.injEq] at isOuts'
  rw [← isOuts, ← isOuts', List.forall₂_cons, List.forall₂_cons] at agree
  exact List.cons_ne_nil _ _ (List.perm_nil.mp agree.2.1.perm)

end KTableFS.Index
