/-
# Index.BtreeLoops -- the loops of the B-tree along its lists

Every loop of the B-tree follows one list, of pairs or of children, or one of each side by
side.  Each has a rule here that says where it stops in a list that is known, provided its
fuel exceeds the number of cells it passes.
-/
import KTableFS.Index.BtreeShape

namespace KTableFS.Index

open KTableFS.Theory

set_option autoImplicit false

namespace Btree

variable {σ K V : Type}

theorem load_real {β : Type} {p : Ptr} (f : Ptr → β) (real : p ≠ null) : load f p = some (f p) := if_neg real

theorem store_real {β : Type} {p : Ptr} (f : Ptr → β) (x : β) (real : p ≠ null) :
    store f p x = some (Function.update f p x) := if_neg real

section Lists

variable {next : Ptr → Ptr} {e : Ptr}

theorem advance_spec {y : Ptr} {ys : List Ptr} : ∀ {xs : List Ptr} {s : Ptr}, Leads next s (xs ++ y :: ys) e →
    (∀ x ∈ xs, x ≠ null) → advance next xs.length s = some y
  | [], _, leads, _ => congrArg some leads.1
  | x :: xs, s, leads, real => by
      obtain ⟨rfl, rest⟩ := leads
      rw [List.length_cons, advance, load_real next (real s (List.mem_cons_self ..)), Option.bind_eq_bind,
        Option.bind_some]
      exact advance_spec rest fun x member => real x (List.mem_cons_of_mem _ member)

theorem headD_ne_null {xs ys : List Ptr} {x : Ptr} (real : ∀ y ∈ xs ++ x :: ys, y ≠ null) :
    (xs ++ x :: ys).headD null ≠ null := by
  cases xs with
  | nil => exact real x (List.mem_cons_self ..)
  | cons y xs => exact real y (List.mem_cons_self ..)

theorem tail_spec {x : Ptr} : ∀ {xs : List Ptr} {s : Ptr} {fuel : Nat}, Leads next s (xs ++ [x]) null →
    (∀ y ∈ xs ++ [x], y ≠ null) → xs.length < fuel → tail next fuel s = some x
  | _, _, 0, _, _, spent => absurd spent (Nat.not_lt_zero _)
  | [], s, fuel + 1, leads, real, _ => by
      obtain ⟨rfl, last⟩ := leads
      have last : next s = null := last
      simp only [tail, load_real next (real s (List.mem_cons_self ..)), last, if_true, Option.bind_eq_bind,
        Option.bind_some]
  | y :: xs, s, fuel + 1, leads, real, room => by
      obtain ⟨rfl, rest⟩ := leads
      have real' : ∀ y ∈ xs ++ [x], y ≠ null := fun y member => real y (List.mem_cons_of_mem _ member)
      have goesOn : next s ≠ null := by
        rw [rest.start]
        exact headD_ne_null real'
      simp only [tail, load_real next (real s (List.mem_cons_self ..)), if_neg goesOn, Option.bind_eq_bind,
        Option.bind_some]
      exact tail_spec rest real' (Nat.lt_of_succ_lt_succ room)

theorem tailBefore_spec {x y : Ptr} : ∀ {xs : List Ptr} {s : Ptr} {fuel : Nat},
    Leads next s (xs ++ [x, y]) null → (∀ z ∈ xs ++ [x, y], z ≠ null) → xs.length < fuel →
    tailBefore next fuel s = some x
  | _, _, 0, _, _, spent => absurd spent (Nat.not_lt_zero _)
  | [], s, fuel + 1, leads, real, _ => by
      obtain ⟨rfl, rfl, last⟩ := leads
      have last : next (next s) = null := last
      simp only [tailBefore, load_real next (real s (List.mem_cons_self ..)),
        load_real next (real (next s) (by simp)), last, if_true, Option.bind_eq_bind, Option.bind_some]
  | z :: xs, s, fuel + 1, leads, real, room => by
      obtain ⟨rfl, rest⟩ := leads
      have real' : ∀ z ∈ xs ++ [x, y], z ≠ null := fun z member => real z (List.mem_cons_of_mem _ member)
      have nextReal : next s ≠ null := by
        rw [rest.start]
        exact headD_ne_null real'
      have goesOn : next (next s) ≠ null := by
        cases xs with
        | nil =>
            obtain ⟨here, second⟩ := rest
            rw [here, second.1]
            exact real' y (by simp)
        | cons z' xs =>
            obtain ⟨here, second⟩ := rest
            rw [here, second.start]
            exact headD_ne_null fun w member => real' w (List.mem_cons_of_mem _ member)
      simp only [tailBefore, load_real next (real s (List.mem_cons_self ..)), load_real next nextReal,
        if_neg goesOn, Option.bind_eq_bind, Option.bind_some]
      exact tailBefore_spec rest real' (Nat.lt_of_succ_lt_succ room)

theorem before_spec {x p : Ptr} {ys : List Ptr} : ∀ {xs : List Ptr} {s : Ptr} {fuel : Nat},
    Leads next s (xs ++ x :: p :: ys) e → (∀ y ∈ xs ++ [x], y ≠ null ∧ y ≠ p) → xs.length < fuel →
    before next p fuel s = some x
  | _, _, 0, _, _, spent => absurd spent (Nat.not_lt_zero _)
  | [], s, fuel + 1, leads, real, _ => by
      obtain ⟨rfl, found, -⟩ := leads
      simp only [before, load_real next (real s (List.mem_cons_self ..)).1, found, if_true,
        Option.bind_eq_bind, Option.bind_some]
  | y :: xs, s, fuel + 1, leads, real, room => by
      obtain ⟨rfl, rest⟩ := leads
      have real' : ∀ y ∈ xs ++ [x], y ≠ null ∧ y ≠ p := fun y member => real y (List.mem_cons_of_mem _ member)
      have goesOn : next s ≠ p := by
        rw [rest.start]
        cases xs with
        | nil => exact (real' x (by simp)).2
        | cons z xs => exact (real' z (by simp)).2
      simp only [before, load_real next (real s (List.mem_cons_self ..)).1, if_neg goesOn, Option.bind_eq_bind,
        Option.bind_some]
      exact before_spec rest real' (Nat.lt_of_succ_lt_succ room)

end Lists

/-- The nodes of a list get a parent. -/
def adopted (T : Btree σ K V) (parent : Ptr) (xs : List Ptr) : Btree σ K V :=
  { T with parent := fun b => if b ∈ xs then parent else T.parent b }

theorem adopt_spec {parent : Ptr} : ∀ {xs : List Ptr} {T : Btree σ K V} {s : Ptr} {fuel : Nat},
    Leads T.next s xs null → (∀ x ∈ xs, x ≠ null) → xs.length < fuel →
    adopt parent fuel T s = some (adopted T parent xs)
  | _, _, _, 0, _, _, spent => absurd spent (Nat.not_lt_zero _)
  | [], T, s, fuel + 1, leads, _, _ => by
      have done : s = null := leads
      simp [adopt, adopted, done]
  | x :: xs, T, s, fuel + 1, leads, real, room => by
      obtain ⟨rfl, rest⟩ := leads
      have notNull := real s (List.mem_cons_self ..)
      let T₁ : Btree σ K V := { T with parent := Function.update T.parent s parent }
      have write : T.setParent s parent = some T₁ := by
        rw [setParent, store_real _ _ notNull, Option.map_some]
      have later : adopt parent fuel T₁ (T.next s) = some (adopted T₁ parent xs) :=
        adopt_spec rest (fun y member => real y (List.mem_cons_of_mem _ member)) (Nat.lt_of_succ_lt_succ room)
      simp only [adopt, if_neg notNull, write, Option.bind_eq_bind, Option.bind_some,
        show load T₁.next s = some (T.next s) from load_real T.next notNull, later]
      refine congrArg some ?_
      have same : (fun b => if b ∈ xs then parent else T₁.parent b) =
          fun b => if b ∈ s :: xs then parent else T.parent b := by
        funext b
        by_cases inRest : b ∈ xs
        · simp [inRest]
        · by_cases isFirst : b = s
          · simp [isFirst, T₁]
          · simp [inRest, isFirst, T₁]
      rw [adopted, adopted, same]

/-! ## Loops that compare keys -/

section Keys

variable {T : Btree σ K V} (C : KeyCmp K) (key : K)

/-- The first pair is not below the key, if there is one. -/
def Stops (zs : List (Entry K V)) : Prop := ∀ z ∈ zs.head?, C.keyLess z.pair.1 key = false

theorem lastBelow_spec {zs : List (Entry K V)} (stops : Stops C key zs) : ∀ {es : List (Entry K V)}
    {y : Entry K V} {s : Ptr} {fuel : Nat}, Leads T.pairNext s ((y :: es ++ zs).map Entry.addr) null →
    (∀ e ∈ y :: es ++ zs, e.addr ≠ null ∧ T.key e.addr = e.pair.1) →
    (∀ e ∈ es, C.keyLess e.pair.1 key = true) → es.length < fuel →
    ∃ init last, y :: es = init ++ [last] ∧ T.lastBelow C key fuel s = some last.addr
  | _, _, _, 0, _, _, _, spent => absurd spent (Nat.not_lt_zero _)
  | [], y, s, fuel + 1, leads, held, _, _ => by
      obtain ⟨rfl, rest⟩ := leads
      refine ⟨[], y, rfl, ?_⟩
      have notNull := (held y (by simp)).1
      cases zs with
      | nil =>
          have last : T.pairNext y.addr = null := rest
          simp only [lastBelow, load_real _ notNull, last, if_true, Option.bind_eq_bind, Option.bind_some]
      | cons z zs =>
          obtain ⟨here, -⟩ := rest
          obtain ⟨zReal, zKey⟩ := held z (by simp)
          have notLess : C.keyLess z.pair.1 key = false := stops z rfl
          simp only [lastBelow, load_real _ notNull, here, if_neg zReal, load_real _ zReal, zKey, notLess,
            Option.bind_eq_bind, Option.bind_some, Bool.false_eq_true, if_false]
  | e :: es, y, s, fuel + 1, leads, held, less, room => by
      obtain ⟨rfl, rest⟩ := leads
      have notNull := (held y (by simp)).1
      obtain ⟨eReal, eKey⟩ := held e (by simp)
      have here : T.pairNext y.addr = e.addr := rest.1
      obtain ⟨init, last, shape, found⟩ := lastBelow_spec stops rest
        (fun e' member => held e' (List.mem_cons_of_mem _ member))
        (fun e' member => less e' (List.mem_cons_of_mem _ member)) (Nat.lt_of_succ_lt_succ room)
      refine ⟨y :: init, last, by rw [shape, List.cons_append], ?_⟩
      rw [here] at found
      simp only [lastBelow, load_real _ notNull, here, if_neg eReal, load_real _ eReal, eKey,
        less e (List.mem_cons_self ..), if_true, found, Option.bind_eq_bind, Option.bind_some]

theorem seek_spec {zs : List (Entry K V)} (stops : Stops C key zs) : ∀ {es : List (Entry K V)} {s : Ptr}
    {fuel : Nat}, Leads T.pairNext s ((es ++ zs).map Entry.addr) null →
    (∀ e ∈ es ++ zs, e.addr ≠ null ∧ T.key e.addr = e.pair.1) →
    (∀ e ∈ es, C.keyLess e.pair.1 key = true) → es.length < fuel →
    T.seek C key fuel s = some ((zs.map Entry.addr).headD null)
  | _, _, 0, _, _, _, spent => absurd spent (Nat.not_lt_zero _)
  | [], s, fuel + 1, leads, held, _, _ => by
      have start := leads.start
      cases zs with
      | nil =>
          have isNull : s = null := start
          simp [seek, isNull]
      | cons z zs =>
          have here : s = z.addr := start
          obtain ⟨zReal, zKey⟩ := held z (by simp)
          have notLess : C.keyLess z.pair.1 key = false := stops z rfl
          simp only [seek, here, if_neg zReal, load_real _ zReal, zKey, notLess, Option.bind_eq_bind,
            Option.bind_some, Bool.false_eq_true, if_false, List.map_cons, List.headD_cons]
  | e :: es, s, fuel + 1, leads, held, less, room => by
      obtain ⟨rfl, rest⟩ := leads
      obtain ⟨eReal, eKey⟩ := held e (by simp)
      simp only [seek, if_neg eReal, load_real _ eReal, eKey, less e (List.mem_cons_self ..), if_true,
        Option.bind_eq_bind, Option.bind_some]
      exact seek_spec stops rest (fun e' member => held e' (List.mem_cons_of_mem _ member))
        (fun e' member => less e' (List.mem_cons_of_mem _ member)) (Nat.lt_of_succ_lt_succ room)

theorem seekChild_spec {zs : List (Entry K V)} (stops : Stops C key zs) {d : Ptr} {ds : List Ptr} :
    ∀ {es : List (Entry K V)} {cs : List Ptr} {s c : Ptr} {fuel : Nat},
    Leads T.pairNext s ((es ++ zs).map Entry.addr) null → Leads T.next c (cs ++ d :: ds) null →
    cs.length = es.length → (∀ e ∈ es ++ zs, e.addr ≠ null ∧ T.key e.addr = e.pair.1) →
    (∀ b ∈ cs, b ≠ null) → (∀ e ∈ es, C.keyLess e.pair.1 key = true) → es.length < fuel →
    T.seekChild C key fuel s c = some ((zs.map Entry.addr).headD null, d)
  | _, _, _, _, 0, _, _, _, _, _, _, spent => absurd spent (Nat.not_lt_zero _)
  | [], [], s, c, fuel + 1, leads, kids, _, held, _, _, _ => by
      have start := leads.start
      have kid : c = d := kids.1
      cases zs with
      | nil =>
          have isNull : s = null := start
          simp [seekChild, isNull, kid]
      | cons z zs =>
          have here : s = z.addr := start
          obtain ⟨zReal, zKey⟩ := held z (by simp)
          have notLess : C.keyLess z.pair.1 key = false := stops z rfl
          simp only [seekChild, here, if_neg zReal, load_real _ zReal, zKey, notLess, kid, Option.bind_eq_bind,
            Option.bind_some, Bool.false_eq_true, if_false, List.map_cons, List.headD_cons]
  | e :: es, k :: cs, s, c, fuel + 1, leads, kids, same, held, kidsReal, less, room => by
      obtain ⟨rfl, rest⟩ := leads
      obtain ⟨rfl, kids⟩ := kids
      obtain ⟨eReal, eKey⟩ := held e (by simp)
      simp only [seekChild, if_neg eReal, load_real _ eReal, eKey, less e (List.mem_cons_self ..), if_true,
        load_real _ (kidsReal c (List.mem_cons_self ..)), Option.bind_eq_bind, Option.bind_some]
      exact seekChild_spec stops rest kids (Nat.succ.inj same)
        (fun e' member => held e' (List.mem_cons_of_mem _ member))
        (fun b member => kidsReal b (List.mem_cons_of_mem _ member))
        (fun e' member => less e' (List.mem_cons_of_mem _ member)) (Nat.lt_of_succ_lt_succ room)

/-- The pair of the key, and the child before it. -/
theorem findPair_spec {z : Entry K V} {zs : List (Entry K V)} (equal : C.keyEqual z.pair.1 key = true)
    {d : Ptr} {ds : List Ptr} : ∀ {es : List (Entry K V)} {cs : List Ptr} {s c : Ptr} {fuel : Nat},
    Leads T.pairNext s ((es ++ z :: zs).map Entry.addr) null → Leads T.next c (cs ++ d :: ds) null →
    cs.length = es.length → (∀ e ∈ es ++ z :: zs, e.addr ≠ null ∧ T.key e.addr = e.pair.1) →
    (∀ b ∈ cs, b ≠ null) → (∀ e ∈ es, C.keyEqual e.pair.1 key = false) → es.length < fuel →
    T.findPair C key fuel s c = some (z.addr, d)
  | _, _, _, _, 0, _, _, _, _, _, _, spent => absurd spent (Nat.not_lt_zero _)
  | [], [], s, c, fuel + 1, leads, kids, _, held, _, _, _ => by
      have here : s = z.addr := leads.start
      have kid : c = d := kids.1
      obtain ⟨zReal, zKey⟩ := held z (by simp)
      simp only [findPair, here, load_real _ zReal, zKey, equal, if_true, kid, Option.bind_eq_bind,
        Option.bind_some]
  | e :: es, k :: cs, s, c, fuel + 1, leads, kids, same, held, kidsReal, apart, room => by
      obtain ⟨rfl, rest⟩ := leads
      obtain ⟨rfl, kids⟩ := kids
      obtain ⟨eReal, eKey⟩ := held e (by simp)
      simp only [findPair, load_real _ eReal, eKey, apart e (List.mem_cons_self ..), Bool.false_eq_true, if_false,
        load_real _ (kidsReal c (List.mem_cons_self ..)), Option.bind_eq_bind, Option.bind_some]
      exact findPair_spec equal rest kids (Nat.succ.inj same)
        (fun e' member => held e' (List.mem_cons_of_mem _ member))
        (fun b member => kidsReal b (List.mem_cons_of_mem _ member))
        (fun e' member => apart e' (List.mem_cons_of_mem _ member)) (Nat.lt_of_succ_lt_succ room)

end Keys

/-! ## The link behind a part of a list -/

/-- The link behind the cells `xs` of the list of the node `a`. -/
def Link.At (a : Ptr) (xs : List Ptr) : Link → Prop
  | .head b => b = a ∧ xs = []
  | .next pos => ∃ init, xs = init ++ [pos]

section Link

variable {T : Btree σ K V} {a e : Ptr} {xs : List Ptr} {link : Link}

theorem loadLink_spec (at_ : link.At a xs) (chain : Leads T.pairNext (T.head a) xs e) (aReal : a ≠ null)
    (real : ∀ x ∈ xs, x ≠ null) : T.loadLink link = some e := by
  cases link with
  | head b =>
      obtain ⟨rfl, rfl⟩ := at_
      rw [loadLink, load_real _ aReal]
      exact congrArg some chain
  | next pos =>
      obtain ⟨init, rfl⟩ := at_
      rw [loadLink, load_real _ (real pos (by simp)), (leads_snoc.mp chain).2]

theorem storeLink_spec (at_ : link.At a xs) (chain : Leads T.pairNext (T.head a) xs e) (aReal : a ≠ null)
    (real : ∀ x ∈ xs, x ≠ null) (nodup : xs.Nodup) (q : Ptr) : ∃ head pairNext,
      T.storeLink link q = some { T with head := head, pairNext := pairNext } ∧
      Leads pairNext (head a) xs q ∧ (∀ b, b ≠ a → head b = T.head b) ∧
      ∀ c, c ∉ xs → pairNext c = T.pairNext c := by
  cases link with
  | head b =>
      obtain ⟨rfl, rfl⟩ := at_
      refine ⟨Function.update T.head b q, T.pairNext, ?_, Function.update_self ..,
        fun c other => Function.update_of_ne other .., fun _ _ => rfl⟩
      rw [storeLink, setHead, store_real _ _ aReal, Option.map_some]
  | next pos =>
      obtain ⟨init, rfl⟩ := at_
      have apart : pos ∉ init := by
        intro member
        exact (List.nodup_append.mp nodup).2.2 pos member pos (by simp) rfl
      refine ⟨T.head, Function.update T.pairNext pos q, ?_, chain.relink q apart, fun _ _ => rfl,
        fun c other => Function.update_of_ne ?_ ..⟩
      · rw [storeLink, setPairNext, store_real _ _ (real pos (by simp)), Option.map_some]
      · rintro rfl
        exact other (by simp)

end Link

/-- The list of pairs and the list of children, side by side. -/
theorem beside_spec {T : Btree σ K V} {left x : Ptr} {ys : List Ptr} {p : Ptr} {qs : List Ptr} {e e' : Ptr} :
    ∀ {ps cs : List Ptr} {s c : Ptr} {fuel : Nat}, Leads T.pairNext s (ps ++ p :: qs) e →
    Leads T.next c (cs ++ x :: left :: ys) e' → cs.length = ps.length → (∀ b ∈ ps, b ≠ null) →
    (∀ b ∈ cs ++ [x], b ≠ null ∧ b ≠ left) → ps.length < fuel → T.beside left fuel s c = some p
  | _, _, _, _, 0, _, _, _, _, _, spent => absurd spent (Nat.not_lt_zero _)
  | [], [], s, c, fuel + 1, pairs, kids, _, _, real, _ => by
      obtain ⟨rfl, -⟩ := pairs
      obtain ⟨rfl, found, -⟩ := kids
      simp only [beside, load_real _ (real c (by simp)).1, found, if_true, Option.bind_eq_bind,
        Option.bind_some]
  | q :: ps, k :: cs, s, c, fuel + 1, pairs, kids, same, pairsReal, real, room => by
      obtain ⟨rfl, pairs⟩ := pairs
      obtain ⟨rfl, kids⟩ := kids
      have real' : ∀ b ∈ cs ++ [x], b ≠ null ∧ b ≠ left := fun b member => real b (List.mem_cons_of_mem _ member)
      have goesOn : T.next c ≠ left := by
        rw [kids.start]
        cases cs with
        | nil => exact (real' x (by simp)).2
        | cons z cs => exact (real' z (by simp)).2
      simp only [beside, load_real _ (real c (by simp)).1, if_neg goesOn,
        load_real _ (pairsReal s (List.mem_cons_self ..)), Option.bind_eq_bind, Option.bind_some]
      exact beside_spec pairs kids (Nat.succ.inj same) (fun b member => pairsReal b (List.mem_cons_of_mem _ member))
        real' (Nat.lt_of_succ_lt_succ room)

end Btree

end KTableFS.Index
