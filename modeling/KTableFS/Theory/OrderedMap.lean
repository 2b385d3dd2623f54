/-
# Theory.OrderedMap -- ordered maps, and what an index has to answer

An `OrderedMap` is a list of pairs in strictly ascending order of their keys, under a
three-way comparison `cmp`.  `OrderedMap.next` is the map as a machine: it inserts,
removes, looks up and scans, and answers as an index does.

An index finds a key by cutting its pairs in two: `Cut` says that one list is below a key
and another above it.  The rules `contains_of_cut`, `get?_of_cut`, `insert_of_cut`,
`erase_of_cut` say what the map's operations are for pairs that have been cut so.
-/
import Mathlib.Data.List.Forall2
import Mathlib.Order.Compare

namespace KTableFS.Theory

set_option autoImplicit false

variable {K V : Type}

/-- The pairs in strictly ascending order of their keys. -/
structure OrderedMap (K V : Type) (cmp : K → K → Ordering) where
  pairs : List (K × V)
  ascending : pairs.Pairwise fun a b => cmp a.1 b.1 = .lt

/-- A call of an index.  Which keys a scan is for is the index's own. -/
inductive Op (K V : Type) where
  | insert (key : K) (value : V)
  | remove (key : K)
  | lookup (key : K)
  | scan (minKey maxKey : K)

/-- What a call returns; a scan with the pairs it calls back for. -/
inductive Out (K V : Type) where
  | code (res : Int)
  | value (value : V)
  | scanned (calls : List (K × V)) (count : Nat)

/-- The same answer, the calls of a scan in any order. -/
inductive Out.Agrees : Out K V → Out K V → Prop where
  | code (res : Int) : Agrees (.code res) (.code res)
  | value (v : V) : Agrees (.value v) (.value v)
  | scanned {calls pairs : List (K × V)} {count : Nat} (perm : calls.Perm pairs) :
      Agrees (.scanned calls count) (.scanned pairs count)

theorem Out.Agrees.refl (a : Out K V) : a.Agrees a := by
  cases a with
  | code res => exact .code res
  | value v => exact .value v
  | scanned calls count => exact .scanned (.refl calls)

theorem Out.Agrees.perm {calls pairs : List (K × V)} {count count' : Nat}
    (agrees : (Out.scanned calls count).Agrees (.scanned pairs count')) : calls.Perm pairs := by
  cases agrees with
  | scanned perm => exact perm

theorem Out.Agrees.symm {a b : Out K V} (agrees : a.Agrees b) : b.Agrees a := by
  cases agrees with
  | code res => exact .code res
  | value v => exact .value v
  | scanned perm => exact .scanned perm.symm

theorem Out.Agrees.trans {a b c : Out K V} (first : a.Agrees b) (second : b.Agrees c) : a.Agrees c := by
  cases first with
  | code _ | value _ => exact second
  | scanned perm =>
      cases second with
      | scanned perm' => exact .scanned (perm.trans perm')

/-- Answers are compared through answers like them. -/
theorem Out.Agrees.congr {as bs : List (Out K V)} (first : List.Forall₂ Agrees as bs) :
    ∀ {as' bs' : List (Out K V)}, List.Forall₂ Agrees as' bs' →
      (List.Forall₂ Agrees as as' ↔ List.Forall₂ Agrees bs bs') := by
  induction first with
  | nil =>
      intro as' bs' second
      cases second <;> simp
  | cons here later ih =>
      intro as' bs' second
      cases second with
      | nil => simp
      | cons here' later' =>
          rw [List.forall₂_cons, List.forall₂_cons, ih later']
          exact and_congr_left fun _ => ⟨fun agrees => here.symm.trans (agrees.trans here'),
            fun agrees => here.trans (agrees.trans here'.symm)⟩

namespace OrderedMap

variable {cmp : K → K → Ordering}

@[ext] theorem ext {m m' : OrderedMap K V cmp} (same : m.pairs = m'.pairs) : m = m' := by
  cases m
  cases m'
  cases same
  rfl

def empty : OrderedMap K V cmp := ⟨[], .nil⟩

def contains (m : OrderedMap K V cmp) (key : K) : Bool := m.pairs.any fun e => cmp key e.1 == .eq

def get? (m : OrderedMap K V cmp) (key : K) : Option V :=
  (m.pairs.find? fun e => cmp key e.1 == .eq).map Prod.snd

/-- The pairs below a key, and those above it. -/
def below (m : OrderedMap K V cmp) (key : K) : List (K × V) := m.pairs.filter fun e => cmp e.1 key == .lt

def above (m : OrderedMap K V cmp) (key : K) : List (K × V) := m.pairs.filter fun e => cmp key e.1 == .lt

variable [Std.TransCmp cmp]

/-- A pair is added in its place. -/
def insert (m : OrderedMap K V cmp) (key : K) (value : V) : OrderedMap K V cmp where
  pairs := m.below key ++ (key, value) :: m.above key
  ascending := by
    have small : ∀ e ∈ m.below key, cmp e.1 key = .lt := fun e member =>
      eq_of_beq (List.mem_filter.mp member).2
    have great : ∀ e ∈ m.above key, cmp key e.1 = .lt := fun e member =>
      eq_of_beq (List.mem_filter.mp member).2
    refine List.pairwise_append.mpr ⟨m.ascending.sublist List.filter_sublist, List.pairwise_cons.mpr
      ⟨great, m.ascending.sublist List.filter_sublist⟩, fun a inBelow b member => ?_⟩
    rcases List.mem_cons.mp member with rfl | inAbove
    · exact small a inBelow
    · exact Std.TransCmp.lt_trans (small a inBelow) (great b inAbove)

omit [Std.TransCmp cmp] in
/-- The pair of a key is taken out. -/
def erase (m : OrderedMap K V cmp) (key : K) : OrderedMap K V cmp where
  pairs := m.pairs.filter fun e => cmp key e.1 != .eq
  ascending := m.ascending.sublist List.filter_sublist

/-- The map as an index: `inRange minKey maxKey` are the keys of a scan. -/
def next [Inhabited V] (inRange : K → K → K → Bool) (m : OrderedMap K V cmp) :
    Op K V → OrderedMap K V cmp × Out K V
  | .insert key value => if m.contains key then (m, .code (-1)) else (m.insert key value, .code 0)
  | .remove key => if m.contains key then (m.erase key, .code 0) else (m, .code (-1))
  | .lookup key => (m, .value ((m.get? key).getD default))
  | .scan minKey maxKey =>
      let pairs := m.pairs.filter fun e => inRange minKey maxKey e.1
      (m, .scanned pairs pairs.length)

/-! ## Pairs that have been cut at a key -/

/-- One list is below a key and the other above it. -/
structure Cut (cmp : K → K → Ordering) (key : K) (low high : List (K × V)) : Prop where
  low : ∀ e ∈ low, cmp e.1 key = .lt
  high : ∀ e ∈ high, cmp key e.1 = .lt

section Cut

variable {m : OrderedMap K V cmp} {key : K} {low high : List (K × V)}

theorem Cut.low_ne (cut : Cut cmp key low high) : ∀ e ∈ low, (cmp key e.1 == .eq) = false := by
  intro e member
  have greater : cmp key e.1 = .gt := Std.OrientedCmp.gt_of_lt (cut.low e member)
  rw [greater]
  rfl

omit [Std.TransCmp cmp] in
theorem Cut.high_ne (cut : Cut cmp key low high) : ∀ e ∈ high, (cmp key e.1 == .eq) = false := by
  intro e member
  rw [cut.high e member]
  rfl

/-- A key at the cut. -/
theorem contains_of_cut (cut : Cut cmp key low high) (pairs : m.pairs = low ++ high) :
    m.contains key = false := by
  rw [contains, pairs, List.any_append, Bool.or_eq_false_iff, List.any_eq_false, List.any_eq_false]
  exact ⟨fun e member => by rw [cut.low_ne e member]; decide,
    fun e member => by rw [cut.high_ne e member]; decide⟩

theorem get?_of_cut (cut : Cut cmp key low high) (pairs : m.pairs = low ++ high) :
    m.get? key = none := by
  rw [get?, pairs, List.find?_eq_none.mpr]
  · rfl
  · intro e member
    rcases List.mem_append.mp member with inLow | inHigh
    · rw [cut.low_ne e inLow]
      decide
    · rw [cut.high_ne e inHigh]
      decide

theorem insert_of_cut (cut : Cut cmp key low high) (pairs : m.pairs = low ++ high) (value : V) :
    (m.insert key value).pairs = low ++ (key, value) :: high := by
  have lowBelow : low.filter (fun e => cmp e.1 key == .lt) = low :=
    List.filter_eq_self.mpr fun e member => beq_of_eq (cut.low e member)
  have highBelow : high.filter (fun e => cmp e.1 key == .lt) = [] := by
    refine List.filter_eq_nil_iff.mpr fun e member => ?_
    rw [Std.OrientedCmp.gt_of_lt (cut.high e member)]
    decide
  have lowAbove : low.filter (fun e => cmp key e.1 == .lt) = [] := by
    refine List.filter_eq_nil_iff.mpr fun e member => ?_
    rw [Std.OrientedCmp.gt_of_lt (cut.low e member)]
    decide
  have highAbove : high.filter (fun e => cmp key e.1 == .lt) = high :=
    List.filter_eq_self.mpr fun e member => beq_of_eq (cut.high e member)
  simp only [insert, below, above, pairs, List.filter_append, lowBelow, highBelow, lowAbove, highAbove,
    List.append_nil, List.nil_append]

omit [Std.TransCmp cmp] in
/-- A pair at the cut. -/
theorem contains_of_found {pair : K × V} (pairs : m.pairs = low ++ pair :: high)
    (found : cmp key pair.1 = .eq) : m.contains key = true := by
  rw [contains, pairs, List.any_eq_true]
  exact ⟨pair, by simp, beq_of_eq found⟩

/-- The neighbours of a pair are cut by any key equal to its own. -/
theorem cut_of_found {pair : K × V} (pairs : m.pairs = low ++ pair :: high)
    (found : cmp key pair.1 = .eq) : Cut cmp key low high := by
  have ascending := m.ascending
  rw [pairs, List.pairwise_append, List.pairwise_cons] at ascending
  obtain ⟨-, ⟨after, -⟩, before⟩ := ascending
  constructor
  · intro e member
    exact Std.TransCmp.lt_of_lt_of_eq (before e member pair (List.mem_cons_self ..))
      (Std.OrientedCmp.eq_symm found)
  · intro e member
    exact Std.TransCmp.lt_of_eq_of_lt found (after e member)

theorem get?_of_found {pair : K × V} (pairs : m.pairs = low ++ pair :: high)
    (found : cmp key pair.1 = .eq) : m.get? key = some pair.2 := by
  have cut := cut_of_found pairs found
  have missed : low.find? (fun e => cmp key e.1 == .eq) = none := by
    refine List.find?_eq_none.mpr fun e member => ?_
    rw [cut.low_ne e member]
    decide
  have hit : (pair :: high).find? (fun e => cmp key e.1 == .eq) = some pair :=
    List.find?_cons_of_pos (beq_of_eq found)
  rw [get?, pairs, List.find?_append, missed, Option.none_or, hit]
  rfl

theorem erase_of_found {pair : K × V} (pairs : m.pairs = low ++ pair :: high)
    (found : cmp key pair.1 = .eq) : (m.erase key).pairs = low ++ high := by
  have cut := cut_of_found pairs found
  have kept : ∀ {l : List (K × V)}, (∀ e ∈ l, (cmp key e.1 == .eq) = false) →
      l.filter (fun e => cmp key e.1 != .eq) = l := by
    intro l apart
    refine List.filter_eq_self.mpr fun e member => ?_
    rw [bne, apart e member]
    rfl
  have gone : (pair :: high).filter (fun e => cmp key e.1 != .eq) = high := by
    rw [List.filter_cons_of_neg (by rw [bne, beq_of_eq found]; decide), kept cut.high_ne]
  show m.pairs.filter (fun e => cmp key e.1 != .eq) = _
  rw [pairs, List.filter_append, kept cut.low_ne, gone]

/-- More pairs below the key, up to one that is. -/
theorem Cut.more_low {mid rest : List (K × V)} (cut : Cut cmp key low high)
    (sorted : (low ++ (mid ++ rest)).Pairwise fun a b => cmp a.1 b.1 = .lt)
    (last : ∀ e ∈ mid.getLast?, cmp e.1 key = .lt) : Cut cmp key (low ++ mid) high := by
  refine ⟨fun e member => ?_, cut.high⟩
  rcases List.mem_append.mp member with inLow | inMid
  · exact cut.low e inLow
  · obtain ⟨init, l, rfl⟩ : ∃ init l, mid = init ++ [l] :=
      ⟨mid.dropLast, mid.getLast (List.ne_nil_of_mem inMid), (List.dropLast_append_getLast _).symm⟩
    have below : cmp l.1 key = .lt := last l (by simp)
    rcases List.mem_append.mp inMid with inInit | isLast
    · rw [List.append_assoc] at sorted
      have inner := (List.pairwise_append.mp sorted).2.1
      have before := (List.pairwise_append.mp inner).2.2 e inInit l (by simp)
      exact Std.TransCmp.lt_trans before below
    · rw [List.mem_singleton.mp isLast]
      exact below

/-- More pairs above the key, from one that is. -/
theorem Cut.more_high {mid first : List (K × V)} (cut : Cut cmp key low high)
    (sorted : (first ++ (mid ++ high)).Pairwise fun a b => cmp a.1 b.1 = .lt)
    (head : ∀ e ∈ mid.head?, cmp key e.1 = .lt) : Cut cmp key low (mid ++ high) := by
  refine ⟨cut.low, fun e member => ?_⟩
  rcases List.mem_append.mp member with inMid | inHigh
  · cases mid with
    | nil => cases inMid
    | cons z mid =>
        have above : cmp key z.1 = .lt := head z rfl
        rcases List.mem_cons.mp inMid with rfl | later
        · exact above
        · have inner := (List.pairwise_append.mp sorted).2.1
          rw [List.cons_append, List.pairwise_cons] at inner
          exact Std.TransCmp.lt_trans above (inner.1 e (List.mem_append_left _ later))
  · exact cut.high e inHigh

end Cut

end OrderedMap

end KTableFS.Theory
