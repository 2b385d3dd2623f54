/-
# Index.BtreeShare -- two neighbours in the B-tree share their pairs anew

Where a node has lost a pair too many, it and a neighbour become one node with the pair
between them (`Focus.join`), or a pair and a child go from one to the other by way of their
parent (`Focus.borrowRight`, `Focus.borrowLeft`).  Each of these is a walk along the lists of
the three nodes and a few writes to the cells at their ends: what they do to the pairs and what
they do to the children is said for lists of cells first, and then of the tree, by
`Focus.exchange`.
-/
import KTableFS.Index.BtreeSplit

namespace KTableFS.Index

open KTableFS.Theory

set_option autoImplicit false

namespace Btree

variable {σ K V : Type}

/-! ## The pair between two neighbours -/

/-- **`separator`**: the link in front of the pair behind `left`. -/
theorem separator_spec {T : Btree σ K V} {p left c e e' : Ptr} {low high kids rest : List Ptr}
    (pairs : Leads T.pairNext (T.head p) (low ++ c :: high) e)
    (children : Leads T.next (T.child p) (kids ++ left :: rest) e') (same : kids.length = low.length)
    (pReal : p ≠ null) (real : ∀ x ∈ low, x ≠ null) (kidsReal : ∀ b ∈ kids, b ≠ null ∧ b ≠ left)
    (room : low.length < T.fuel) : ∃ link, T.separator p left = some link ∧ link.At p low := by
  have first := children.start
  rcases List.eq_nil_or_concat kids with rfl | ⟨init, x, rfl⟩
  · obtain rfl : low = [] := List.length_eq_zero_iff.mp same.symm
    have isFirst : T.child p = left := first
    exact ⟨.head p, by simp only [separator, load_real _ pReal, isFirst, if_true, Option.bind_eq_bind, Option.bind_some],
      rfl, rfl⟩
  · obtain ⟨front, pos, rfl⟩ : ∃ front pos, low = front ++ [pos] := by
      rcases List.eq_nil_or_concat low with rfl | ⟨front, pos, rfl⟩
      · simp at same
      · exact ⟨front, pos, List.concat_eq_append⟩
    rw [List.concat_eq_append] at *
    rw [List.append_assoc] at pairs children
    have notFirst : T.child p ≠ left := by
      rw [first]
      cases init with
      | nil => exact (kidsReal x (by simp)).2
      | cons b init => exact (kidsReal b (by simp)).2
    have found := beside_spec pairs children (by simpa using same) (fun b member => real b (by simp [member]))
      kidsReal (Nat.lt_of_succ_lt (by simpa using room))
    exact ⟨.next pos, by
      simp only [separator, load_real _ pReal, if_neg notFirst, found, Option.bind_eq_bind, Option.bind_some],
      front, rfl⟩

/-- Two neighbours with their pairs, and the pair between them in the list of their parent. -/
structure Between (T : Btree σ K V) (p l r : Ptr) (low : List Ptr) (c : Ptr) (high xl xr : List Ptr) : Prop where
  separated : ∃ link, T.separator p l = some link ∧ link.At p low
  parent : Leads T.pairNext (T.head p) (low ++ c :: high) null
  left : Leads T.pairNext (T.head l) xl null
  right : Leads T.pairNext (T.head r) xr null
  nodup : (low ++ c :: high ++ (xl ++ xr)).Nodup
  real : ∀ x ∈ low ++ c :: high ++ (xl ++ xr), x ≠ null
  nodes : p ≠ null ∧ l ≠ null ∧ r ≠ null ∧ l ≠ p ∧ r ≠ p ∧ l ≠ r
  room : xl.length < T.fuel

/-- The cells `ws` are written, and those of `low` may be; the others are not. -/
theorem written_of_perm {cells ws low rest : List Ptr} (nodup : cells.Nodup)
    (perm : cells.Perm (ws ++ (low ++ rest))) : ws.Nodup ∧ low.Nodup ∧ (∀ w ∈ ws, w ∉ low) ∧
      ∀ y ∈ rest, y ∉ ws ∧ y ∉ low := by
  obtain ⟨first, second, apart⟩ := List.nodup_append.mp (perm.nodup_iff.mp nodup)
  obtain ⟨lowNodup, -, lowApart⟩ := List.nodup_append.mp second
  refine ⟨first, lowNodup, fun w member inLow => apart w member w (List.mem_append_left _ inLow) rfl,
    fun y member => ⟨fun inWs => apart y inWs y (List.mem_append_right _ member) rfl,
      fun inLow => lowApart y inLow y member rfl⟩⟩

section Between

variable {T : Btree σ K V} {p l r c x d : Ptr} {low high xl xr init : List Ptr}

/-- What a step has written to the pairs of two neighbours and their parent. -/
structure Relinked (T : Btree σ K V) (p r : Ptr) (cells : List Ptr) (head pairNext : Ptr → Ptr) : Prop where
  head : ∀ b, b ≠ p → b ≠ r → head b = T.head b
  pairNext : ∀ x, x ∉ cells → pairNext x = T.pairNext x

theorem Between.lowReal (between : Between T p l r low c high xl xr) : ∀ y ∈ low, y ≠ null := fun y member =>
  between.real y (List.mem_append_left _ (List.mem_append_left _ member))

theorem Between.leftReal (between : Between T p l r low c high xl xr) : ∀ y ∈ xl, y ≠ null := fun y member =>
  between.real y (List.mem_append_right _ (List.mem_append_left _ member))

theorem Between.pairReal (between : Between T p l r low c high xl xr) : c ≠ null :=
  between.real c (by simp)

/-- The pair between the nodes, and what is behind it. -/
theorem Between.pair (between : Between T p l r low c high xl xr) : Leads T.pairNext (T.head p) low c ∧
    T.pairNext c = high.headD null ∧ Leads T.pairNext (high.headD null) high null := by
  obtain ⟨toC, behind, fromC⟩ := leads_cons_append.mp between.parent
  exact ⟨toC, behind, behind ▸ fromC⟩

/-- **A pair goes from the right node to the left**, by way of their parent. -/
theorem borrowRightPairs_spec (between : Between T p l r low c high (init ++ [x]) (d :: xr)) :
    ∃ head pairNext, T.borrowRightPairs l r p = some { T with head := head, pairNext := pairNext } ∧
      Relinked T p r (low ++ c :: high ++ (init ++ [x] ++ d :: xr)) head pairNext ∧
      Leads pairNext (head p) (low ++ d :: high) null ∧ Leads pairNext (head l) (init ++ [x] ++ [c]) null ∧
      Leads pairNext (head r) xr null := by
  obtain ⟨toC, behindC, fromC⟩ := between.pair
  have lowReal := between.lowReal
  have cReal := between.pairReal
  have leftReal := between.leftReal
  obtain ⟨⟨link, separated, at_⟩, -, left, right, nodup, real, ⟨pReal, lReal, rReal, notPL, notPR, notLR⟩, room⟩ :=
    between
  have xReal : x ≠ null := leftReal x (by simp)
  have dReal : d ≠ null := real d (by simp)
  have perm : (low ++ c :: high ++ (init ++ [x] ++ d :: xr)).Perm ([x, c, d] ++ (low ++ (high ++ (init ++ xr)))) := by
    refine List.perm_iff_count.mpr fun b => ?_
    simp only [List.count_append, List.count_cons, List.count_nil]
    omega
  obtain ⟨written, lowNodup, notLow, rest⟩ := written_of_perm nodup perm
  simp only [List.nodup_cons, List.mem_cons, List.not_mem_nil, or_false, not_or, forall_eq_or_imp, forall_eq,
    List.nodup_nil, not_false_eq_true, and_true] at written notLow rest
  obtain ⟨⟨xc, xd⟩, cd⟩ := written
  obtain ⟨xLow, cLow, dLow⟩ := notLow
  have enough : init.length < T.fuel := by
    rw [List.length_append, List.length_singleton] at room
    omega
  have reached := tail_spec left leftReal enough
  have headR : T.head r = d := right.1
  have behindD : T.pairNext d = xr.headD null := right.2.start
  let T₁ : Btree σ K V := { T with pairNext := Function.update T.pairNext x c }
  have toC₁ : Leads T₁.pairNext (T₁.head p) low c := toC.frame c xLow
  have loaded := loadLink_spec at_ toC pReal lowReal
  obtain ⟨head, pairNext, stored, toD, headKept, pairNextKept⟩ :=
    storeLink_spec at_ toC₁ pReal lowReal lowNodup d
  let T₃ : Btree σ K V := { T₁ with head := Function.update head r (xr.headD null), pairNext := pairNext }
  have kept : ∀ y, y ≠ x → y ∉ low → pairNext y = T.pairNext y := fun y notX notLow =>
    (pairNextKept y notLow).trans (Function.update_of_ne notX ..)
  have atX : pairNext x = c := (pairNextKept x xLow).trans (Function.update_self ..)
  have atC : pairNext c = high.headD null := (kept c (Ne.symm xc) cLow).trans behindC
  have atD : pairNext d = xr.headD null := (kept d (Ne.symm xd) dLow).trans behindD
  have headR₂ : head r = d := (headKept r notPR).trans headR
  have toD₃ : Leads T₃.pairNext (T₃.head p) low d := by
    show Leads pairNext (Function.update head r _ p) low d
    rw [Function.update_of_ne (Ne.symm notPR)]
    exact toD
  have loaded₃ := loadLink_spec at_ toD₃ pReal lowReal
  have run : T.borrowRightPairs l r p = some { T₃ with
      pairNext := Function.update (Function.update pairNext d (high.headD null)) c null } := by
    simp only [borrowRightPairs, load_real _ lReal, reached, separated, loaded, setPairNext, store_real _ _ xReal,
      Option.map_some, Option.bind_eq_bind, Option.bind_some, load_real _ rReal, headR]
    change (T₁.storeLink link d).bind _ = _
    rw [stored]
    simp only [Option.bind_some, headR₂, load_real _ dReal, atD, setHead, store_real _ _ rReal, Option.map_some]
    change (T₃.loadLink link).bind _ = _
    rw [loaded₃, Option.bind_some]
    simp only [load_real _ xReal, atX, load_real _ cReal, store_real _ _ dReal, Option.bind_some, Option.map_some]
    rw [Function.update_of_ne xd, atX, atC, store_real _ _ cReal]
    rfl
  have apart : ∀ y, (¬y = x ∧ ¬y = c ∧ ¬y = d) ∧ y ∉ low →
      Function.update (Function.update pairNext d (high.headD null)) c null y = T.pairNext y := by
    rintro y ⟨⟨notX, notC, notD⟩, notLow⟩
    exact (Function.update_of_ne notC ..).trans ((Function.update_of_ne notD ..).trans (kept y notX notLow))
  refine ⟨T₃.head, _, run, ⟨fun b notP notR => (Function.update_of_ne notR ..).trans (headKept b notP),
    fun y other => apart y ?_⟩, ?_, ?_, ?_⟩
  · simp only [List.mem_append, List.mem_cons, not_or] at other
    tauto
  · rw [leads_cons_append]
    refine ⟨(toD₃.frame _ dLow).frame _ cLow, ?_, ?_⟩
    · exact (Function.update_of_ne (Ne.symm cd) ..).trans (Function.update_self ..)
    · rw [Function.update_of_ne (Ne.symm cd), Function.update_self]
      exact fromC.congr fun y member => apart y (rest y (List.mem_append_left _ member))
  · obtain ⟨toX, -⟩ := leads_snoc.mp left
    have headL : T₃.head l = T.head l := (Function.update_of_ne notLR ..).trans (headKept l notPL)
    rw [leads_snoc, leads_snoc, headL]
    refine ⟨⟨toX.congr fun y member => apart y (rest y ?_), ?_⟩, Function.update_self ..⟩
    · exact List.mem_append_right _ (List.mem_append_left _ member)
    · exact (Function.update_of_ne xc ..).trans ((Function.update_of_ne xd ..).trans atX)
  · have behind := right.2
    rw [behindD] at behind
    show Leads _ (Function.update head r _ r) xr null
    rw [Function.update_self]
    exact behind.congr fun y member => apart y (rest y (List.mem_append_right _ (List.mem_append_right _ member)))

/-- **A pair goes from the left node to the right**, by way of their parent. -/
theorem borrowLeftPairs_spec (between : Between T p l r low c high (init ++ [x, d]) xr) :
    ∃ head pairNext, T.borrowLeftPairs l r p = some { T with head := head, pairNext := pairNext } ∧
      Relinked T p r (low ++ c :: high ++ (init ++ [x, d] ++ xr)) head pairNext ∧
      Leads pairNext (head p) (low ++ d :: high) null ∧ Leads pairNext (head l) (init ++ [x]) null ∧
      Leads pairNext (head r) (c :: xr) null := by
  obtain ⟨toC, behindC, fromC⟩ := between.pair
  have lowReal := between.lowReal
  have cReal := between.pairReal
  have leftReal := between.leftReal
  obtain ⟨⟨link, separated, at_⟩, -, left, right, nodup, real, ⟨pReal, lReal, rReal, notPL, notPR, notLR⟩, room⟩ :=
    between
  have xReal : x ≠ null := leftReal x (by simp)
  have dReal : d ≠ null := leftReal d (by simp)
  have perm : (low ++ c :: high ++ (init ++ [x, d] ++ xr)).Perm ([x, c, d] ++ (low ++ (high ++ (init ++ xr)))) := by
    refine List.perm_iff_count.mpr fun b => ?_
    simp only [List.count_append, List.count_cons, List.count_nil]
    omega
  obtain ⟨written, lowNodup, notLow, rest⟩ := written_of_perm nodup perm
  simp only [List.nodup_cons, List.mem_cons, List.not_mem_nil, or_false, not_or, forall_eq_or_imp, forall_eq,
    List.nodup_nil, not_false_eq_true, and_true] at written notLow rest
  obtain ⟨⟨xc, xd⟩, cd⟩ := written
  obtain ⟨xLow, cLow, dLow⟩ := notLow
  have enough : init.length < T.fuel := by
    rw [List.length_append] at room
    omega
  have reached := tailBefore_spec left leftReal enough
  obtain ⟨toX, -, atX, -⟩ := leads_append.mp left
  have headR : T.head r = xr.headD null := right.start
  have loaded := loadLink_spec at_ toC pReal lowReal
  let T₁ : Btree σ K V := { T with pairNext := Function.update T.pairNext d (high.headD null) }
  let T₂ : Btree σ K V := { T₁ with pairNext := Function.update T₁.pairNext c (xr.headD null) }
  let T₃ : Btree σ K V := { T₂ with head := Function.update T₂.head r c }
  have toC₁ : Leads T₁.pairNext (T₁.head p) low c := toC.frame _ dLow
  have toC₂ : Leads T₂.pairNext (T₂.head p) low c := toC₁.frame _ cLow
  have toC₃ : Leads T₃.pairNext (T₃.head p) low c := by
    show Leads T₂.pairNext (Function.update T₂.head r c p) low c
    rw [Function.update_of_ne (Ne.symm notPR)]
    exact toC₂
  have loaded₁ := loadLink_spec at_ toC₁ pReal lowReal
  have loaded₂ := loadLink_spec at_ toC₂ pReal lowReal
  have atX₃ : T₃.pairNext x = d :=
    (Function.update_of_ne xc ..).trans ((Function.update_of_ne xd ..).trans atX)
  obtain ⟨head, pairNext, stored, toD, headKept, pairNextKept⟩ :=
    storeLink_spec at_ toC₃ pReal lowReal lowNodup d
  have run : T.borrowLeftPairs l r p = some { T₃ with head := head, pairNext := Function.update pairNext x null } := by
    simp only [borrowLeftPairs, load_real _ lReal, reached, separated, load_real _ xReal, atX, loaded,
      load_real _ cReal, behindC, setPairNext, store_real _ _ dReal, Option.map_some, Option.bind_eq_bind,
      Option.bind_some, load_real _ rReal, headR]
    change (T₁.loadLink link).bind _ = _
    rw [loaded₁, Option.bind_some, store_real _ _ cReal, Option.map_some, Option.bind_some]
    change (T₂.loadLink link).bind _ = _
    simp only [loaded₂, Option.bind_some, setHead, store_real _ _ rReal, Option.map_some]
    change (T₃.storeLink link (T₃.pairNext x)).bind _ = _
    rw [atX₃, stored, Option.bind_some, store_real _ _ xReal]
    rfl
  have apart : ∀ y, (¬y = x ∧ ¬y = c ∧ ¬y = d) ∧ y ∉ low → Function.update pairNext x null y = T.pairNext y := by
    rintro y ⟨⟨notX, notC, notD⟩, notLow⟩
    exact (Function.update_of_ne notX ..).trans ((pairNextKept y notLow).trans
      ((Function.update_of_ne notC ..).trans (Function.update_of_ne notD ..)))
  refine ⟨head, _, run, ⟨fun b notP notR => (headKept b notP).trans (Function.update_of_ne notR ..),
    fun y other => apart y ?_⟩, ?_, ?_, ?_⟩
  · simp only [List.mem_append, List.mem_cons, not_or] at other
    tauto
  · rw [leads_cons_append, Function.update_of_ne (Ne.symm xd), pairNextKept d dLow]
    have atD : T₃.pairNext d = high.headD null := (Function.update_of_ne (Ne.symm cd) ..).trans (Function.update_self ..)
    rw [atD]
    exact ⟨toD.frame _ xLow, rfl, fromC.congr fun y member => apart y (rest y (List.mem_append_left _ member))⟩
  · have headL : head l = T.head l := (headKept l notPL).trans (Function.update_of_ne notLR ..)
    rw [leads_snoc, headL]
    refine ⟨toX.congr fun y member => apart y (rest y ?_), Function.update_self ..⟩
    exact List.mem_append_right _ (List.mem_append_left _ member)
  · have headR₃ : head r = c := (headKept r notPR).trans (Function.update_self ..)
    rw [headR₃]
    refine ⟨rfl, ?_⟩
    rw [Function.update_of_ne (Ne.symm xc), pairNextKept c cLow]
    show Leads _ (Function.update T₁.pairNext c (xr.headD null) c) xr null
    rw [Function.update_self]
    rw [headR] at right
    exact right.congr fun y member => apart y (rest y (List.mem_append_right _ (List.mem_append_right _ member)))

/-- **The pairs of two nodes that become one.** -/
theorem joinPairs_spec (between : Between T p l r low c high (init ++ [x]) xr) :
    ∃ head pairNext, T.joinPairs l r p = some { T with head := head, pairNext := pairNext } ∧
      Relinked T p r (low ++ c :: high ++ (init ++ [x] ++ xr)) head pairNext ∧
      Leads pairNext (head p) (low ++ high) null ∧ Leads pairNext (head l) (init ++ [x] ++ c :: xr) null := by
  obtain ⟨toC, behindC, fromC⟩ := between.pair
  have lowReal := between.lowReal
  have cReal := between.pairReal
  have leftReal := between.leftReal
  obtain ⟨⟨link, separated, at_⟩, -, left, right, nodup, real, ⟨pReal, lReal, rReal, notPL, notPR, notLR⟩, room⟩ :=
    between
  have xReal : x ≠ null := leftReal x (by simp)
  have perm : (low ++ c :: high ++ (init ++ [x] ++ xr)).Perm ([x, c] ++ (low ++ (high ++ (init ++ xr)))) := by
    refine List.perm_iff_count.mpr fun b => ?_
    simp only [List.count_append, List.count_cons, List.count_nil]
    omega
  obtain ⟨written, lowNodup, notLow, rest⟩ := written_of_perm nodup perm
  simp only [List.nodup_cons, List.mem_cons, List.not_mem_nil, or_false, not_or, forall_eq_or_imp, forall_eq,
    List.nodup_nil, not_false_eq_true, and_true] at written notLow rest
  obtain ⟨xLow, cLow⟩ := notLow
  have enough : init.length < T.fuel := by
    rw [List.length_append, List.length_singleton] at room
    omega
  have reached := tail_spec left leftReal enough
  let T₁ : Btree σ K V := { T with pairNext := Function.update T.pairNext x c }
  have toC₁ : Leads T₁.pairNext (T₁.head p) low c := toC.frame c xLow
  have loaded := loadLink_spec at_ toC pReal lowReal
  have loaded₁ := loadLink_spec at_ toC₁ pReal lowReal
  obtain ⟨head, pairNext, stored, toHigh, headKept, pairNextKept⟩ :=
    storeLink_spec at_ toC₁ pReal lowReal lowNodup (high.headD null)
  have atX : pairNext x = c := (pairNextKept x xLow).trans (Function.update_self ..)
  have headR : head r = xr.headD null := (headKept r notPR).trans right.start
  have atC : T₁.pairNext c = high.headD null := (Function.update_of_ne (Ne.symm written) ..).trans behindC
  have run : T.joinPairs l r p = some
      { T₁ with head := head, pairNext := Function.update pairNext c (xr.headD null) } := by
    simp only [joinPairs, load_real _ lReal, reached, separated, loaded, setPairNext, store_real _ _ xReal,
      Option.map_some, Option.bind_eq_bind, Option.bind_some]
    change (T₁.loadLink link).bind _ = _
    rw [loaded₁, Option.bind_some]
    change (load T₁.pairNext c).bind _ = _
    rw [load_real _ cReal, Option.bind_some, atC]
    change (T₁.storeLink link _).bind _ = _
    rw [stored]
    simp only [Option.bind_some, load_real _ xReal, atX, load_real _ rReal, headR, store_real _ _ cReal,
      Option.map_some]
  have apart : ∀ y, (¬y = x ∧ ¬y = c) ∧ y ∉ low →
      Function.update pairNext c (xr.headD null) y = T.pairNext y := by
    rintro y ⟨⟨notX, notC⟩, notLow⟩
    exact (Function.update_of_ne notC ..).trans ((pairNextKept y notLow).trans (Function.update_of_ne notX ..))
  refine ⟨head, _, run, ⟨fun b notP _ => headKept b notP, fun y other => apart y ?_⟩, ?_, ?_⟩
  · simp only [List.mem_append, List.mem_cons, not_or] at other
    tauto
  · exact leads_append.mpr ⟨toHigh.frame _ cLow,
      fromC.congr fun y member => apart y (rest y (List.mem_append_left _ member))⟩
  · obtain ⟨toX, -⟩ := leads_snoc.mp left
    rw [List.append_assoc, List.singleton_append, leads_cons_append, headKept l notPL,
      Function.update_of_ne written, atX]
    refine ⟨toX.congr fun y member => apart y (rest y ?_), rfl, rfl, ?_⟩
    · exact List.mem_append_right _ (List.mem_append_left _ member)
    · rw [Function.update_self]
      rw [right.start] at right
      exact right.congr fun y member => apart y (rest y (List.mem_append_right _ (List.mem_append_right _ member)))

end Between

/-! ## The children of two neighbours -/

section Kids

variable {T : Btree σ K V} {l r x k : Ptr} {init kl kr : List Ptr}

/-- **The children of two nodes that become one**, if they have some. -/
theorem joinKids_spec (left : Leads T.next (T.child l) kl null) (right : Leads T.next (T.child r) kr null)
    (nodup : (kl ++ kr).Nodup) (real : ∀ b ∈ kl ++ kr, b ≠ null) (nodes : l ≠ null ∧ r ≠ null)
    (leaves : kl = [] → kr = []) (room : kl.length < T.fuel ∧ kr.length < T.fuel) :
    ∃ next, T.joinKids l r = some { T with next := next, parent := (adopted T l kr).parent } ∧
      Leads next (T.child l) (kl ++ kr) null ∧ ∀ b, b ∉ kl → next b = T.next b := by
  rcases List.eq_nil_or_concat kl with rfl | ⟨init, x, rfl⟩
  · obtain rfl := leaves rfl
    have none : T.child l = null := left
    refine ⟨T.next, ?_, left, fun _ _ => rfl⟩
    simp only [joinKids, load_real _ nodes.1, none, ne_eq, not_true_eq_false, if_false, Option.bind_eq_bind,
      Option.bind_some, adopted, List.not_mem_nil]
  · rw [List.concat_eq_append] at *
    have notLeaf : T.child l ≠ null := by
      rw [left.start]
      exact headD_ne_null fun b member => real b (List.mem_append_left _ member)
    have xReal : x ≠ null := real x (by simp)
    have enough : init.length < T.fuel := by
      have := room.1
      rw [List.length_append, List.length_singleton] at this
      omega
    have reached := tail_spec left (fun b member => real b (List.mem_append_left _ member)) enough
    obtain ⟨leftNodup, -, apart⟩ := List.nodup_append.mp nodup
    have notInit : x ∉ init := fun member => (List.nodup_append.mp leftNodup).2.2 x member x (by simp) rfl
    have notRight : x ∉ kr := fun member => apart x (by simp) x member rfl
    have first := right.start
    rw [first] at right
    let T₁ : Btree σ K V := { T with next := Function.update T.next x (kr.headD null) }
    have right₁ : Leads T₁.next (kr.headD null) kr null := right.frame _ notRight
    have adoptRun : adopt l T₁.fuel T₁ (kr.headD null) = some (adopted T₁ l kr) :=
      adopt_spec right₁ (fun b member => real b (List.mem_append_right _ member)) room.2
    have atX : T₁.next x = kr.headD null := Function.update_self ..
    refine ⟨T₁.next, ?_, leads_append.mpr ⟨left.relink _ notInit, right₁⟩, fun b other => Function.update_of_ne ?_ ..⟩
    · simp only [joinKids, load_real _ nodes.1, ne_eq, notLeaf, not_false_eq_true, if_true, reached, load_real _ nodes.2,
        first, setNext, store_real _ _ xReal, Option.map_some, Option.bind_eq_bind, Option.bind_some, load_real _ xReal]
      exact (congrArg (adopt l T₁.fuel T₁) atX).trans adoptRun
    · rintro rfl
      exact other (by simp)

/-- What a step has done to the children of two nodes, some of which have `moved` to the node
`dest`. -/
structure Rehung (T : Btree σ K V) (l r dest : Ptr) (kids moved kl' kr' : List Ptr) (child next parent : Ptr → Ptr) :
    Prop where
  left : Leads next (child l) kl' null
  right : Leads next (child r) kr' null
  child : ∀ b, b ≠ r → child b = T.child b
  next : ∀ b, b ∉ kids → next b = T.next b
  arrived : ∀ b ∈ moved, parent b = dest
  stayed : ∀ b, b ∉ moved → parent b = T.parent b

/-- **A child goes from the right node to the left**, if they have children. -/
theorem borrowRightKid_spec {moved : List Ptr} (left : Leads T.next (T.child l) kl null)
    (right : Leads T.next (T.child r) (moved ++ kr) null) (nodup : (kl ++ (moved ++ kr)).Nodup)
    (real : ∀ b ∈ kl ++ (moved ++ kr), b ≠ null) (nodes : l ≠ null ∧ r ≠ null ∧ l ≠ r)
    (leaves : kl = [] ∧ moved = [] ∧ kr = [] ∨ kl ≠ [] ∧ ∃ k, moved = [k]) (room : kl.length < T.fuel) :
    ∃ child next parent, T.borrowRightKid l r = some
        { T with child := child, next := next, parent := parent } ∧
      Rehung T l r l (kl ++ (moved ++ kr)) moved (kl ++ moved) kr child next parent := by
  rcases leaves with ⟨rfl, rfl, rfl⟩ | ⟨notEmpty, k, rfl⟩
  · have none : T.child l = null := left
    refine ⟨T.child, T.next, T.parent, ?_, left, right, fun _ _ => rfl, fun _ _ => rfl,
      fun b member => absurd member List.not_mem_nil, fun _ _ => rfl⟩
    simp only [borrowRightKid, load_real _ nodes.1, none, ne_eq, not_true_eq_false, if_false, Option.bind_eq_bind,
      Option.bind_some]
  · obtain ⟨init, x, rfl⟩ : ∃ init x, kl = init ++ [x] :=
      ⟨kl.dropLast, kl.getLast notEmpty, (List.dropLast_append_getLast _).symm⟩
    have notLeaf : T.child l ≠ null := by
      rw [left.start]
      exact headD_ne_null fun b member => real b (List.mem_append_left _ member)
    have xReal : x ≠ null := real x (by simp)
    have kReal : k ≠ null := real k (by simp)
    have enough : init.length < T.fuel := by
      rw [List.length_append, List.length_singleton] at room
      omega
    have reached := tail_spec left (fun b member => real b (List.mem_append_left _ member)) enough
    have perm : (init ++ [x] ++ ([k] ++ kr)).Perm ([x, k] ++ (init ++ kr)) := by
      refine List.perm_iff_count.mpr fun b => ?_
      simp only [List.count_append, List.count_cons, List.count_nil]
      omega
    obtain ⟨written, -, notInit, rest⟩ := written_of_perm nodup perm
    simp only [List.nodup_cons, List.mem_cons, List.not_mem_nil, or_false, not_or, forall_eq_or_imp, forall_eq,
      List.nodup_nil, not_false_eq_true, and_true] at written notInit rest
    obtain ⟨first, behind⟩ := right
    have atK : T.next k = kr.headD null := behind.start
    change Leads T.next (T.next k) kr null at behind
    rw [atK] at behind
    have apart : ∀ y, (¬y = x ∧ ¬y = k) →
        Function.update (Function.update T.next x k) k null y = T.next y := fun y ⟨notX, notK⟩ =>
      (Function.update_of_ne notK ..).trans (Function.update_of_ne notX ..)
    have atX : Function.update (Function.update T.next x k) k null x = k :=
      (Function.update_of_ne written ..).trans (Function.update_self ..)
    have childL : Function.update T.child r (kr.headD null) l = T.child l := Function.update_of_ne nodes.2.2 ..
    have childR : Function.update T.child r (kr.headD null) r = kr.headD null := Function.update_self ..
    refine ⟨Function.update T.child r (kr.headD null), Function.update (Function.update T.next x k) k null,
      Function.update T.parent k l, ?_, ?_, ?_, fun b other => Function.update_of_ne other .., fun y other => apart y ?_,
      fun b member => ?_, fun b other => Function.update_of_ne (by simpa using other) ..⟩
    · simp only [borrowRightKid, load_real _ nodes.1, ne_eq, notLeaf, not_false_eq_true, if_true, reached,
        load_real _ nodes.2.1, first, setNext, store_real _ _ xReal, Option.map_some, Option.bind_eq_bind,
        Option.bind_some, load_real _ kReal, Function.update_of_ne (Ne.symm written), atK, setChild,
        store_real _ _ nodes.2.1, load_real _ xReal, Function.update_self, store_real _ _ kReal, atX, setParent]
    · rw [childL]
      refine leads_snoc.mpr ⟨leads_snoc.mpr ⟨?_, atX⟩, Function.update_self ..⟩
      refine (leads_snoc.mp left).1.congr fun y member => apart y ⟨?_, ?_⟩ <;> rintro rfl
      · exact notInit.1 member
      · exact notInit.2 member
    · rw [childR]
      exact behind.congr fun y member => apart y (rest y member).1
    · simp only [List.mem_append, List.mem_cons, not_or] at other
      tauto
    · rw [List.mem_singleton.mp member]
      exact Function.update_self ..

/-- **A child goes from the left node to the right**, if they have children. -/
theorem borrowLeftKid_spec {moved : List Ptr} (left : Leads T.next (T.child l) (kl ++ moved) null)
    (right : Leads T.next (T.child r) kr null) (nodup : (kl ++ moved ++ kr).Nodup)
    (real : ∀ b ∈ kl ++ moved ++ kr, b ≠ null) (nodes : l ≠ null ∧ r ≠ null ∧ l ≠ r)
    (leaves : kl = [] ∧ moved = [] ∧ kr = [] ∨ kl ≠ [] ∧ ∃ k, moved = [k]) (room : kl.length < T.fuel) :
    ∃ child next parent, T.borrowLeftKid l r = some
        { T with child := child, next := next, parent := parent } ∧
      Rehung T l r r (kl ++ moved ++ kr) moved kl (moved ++ kr) child next parent := by
  rcases leaves with ⟨rfl, rfl, rfl⟩ | ⟨notEmpty, k, rfl⟩
  · have none : T.child l = null := left
    refine ⟨T.child, T.next, T.parent, ?_, left, right, fun _ _ => rfl, fun _ _ => rfl,
      fun b member => absurd member List.not_mem_nil, fun _ _ => rfl⟩
    simp only [borrowLeftKid, load_real _ nodes.1, none, ne_eq, not_true_eq_false, if_false, Option.bind_eq_bind,
      Option.bind_some]
  · obtain ⟨init, x, rfl⟩ : ∃ init x, kl = init ++ [x] :=
      ⟨kl.dropLast, kl.getLast notEmpty, (List.dropLast_append_getLast _).symm⟩
    have perm : (init ++ [x] ++ [k] ++ kr).Perm ([x, k] ++ (init ++ kr)) := by
      refine List.perm_iff_count.mpr fun b => ?_
      simp only [List.count_append, List.count_cons, List.count_nil]
      omega
    obtain ⟨written, -, notInit, rest⟩ := written_of_perm nodup perm
    simp only [List.nodup_cons, List.mem_cons, List.not_mem_nil, or_false, not_or, forall_eq_or_imp, forall_eq,
      List.nodup_nil, not_false_eq_true, and_true] at written notInit rest
    have xReal : x ≠ null := real x (by simp)
    have kReal : k ≠ null := real k (by simp)
    rw [List.append_assoc init, List.singleton_append] at left
    have leftReal : ∀ b ∈ init ++ [x, k], b ≠ null := fun b member => real b (by simp at member ⊢; tauto)
    have notLeaf : T.child l ≠ null := by
      rw [left.start]
      exact headD_ne_null leftReal
    have enough : init.length < T.fuel := by
      rw [List.length_append, List.length_singleton] at room
      omega
    have reached := tailBefore_spec left leftReal enough
    obtain ⟨toX, -, atX, -⟩ := leads_append.mp left
    have first := right.start
    rw [first] at right
    have apart : ∀ y, (¬y = x ∧ ¬y = k) →
        Function.update (Function.update T.next k (kr.headD null)) x null y = T.next y := fun y ⟨notX, notK⟩ =>
      (Function.update_of_ne notX ..).trans (Function.update_of_ne notK ..)
    have atK : Function.update (Function.update T.next k (kr.headD null)) x null k = kr.headD null :=
      (Function.update_of_ne (Ne.symm written) ..).trans (Function.update_self ..)
    have childL : Function.update T.child r k l = T.child l := Function.update_of_ne nodes.2.2 ..
    have childR : Function.update T.child r k r = k := Function.update_self ..
    refine ⟨Function.update T.child r k, Function.update (Function.update T.next k (kr.headD null)) x null,
      Function.update T.parent k r, ?_, ?_, ?_, fun b other => Function.update_of_ne other .., fun y other => apart y ?_,
      fun b member => ?_, fun b other => Function.update_of_ne (by simpa using other) ..⟩
    · simp only [borrowLeftKid, load_real _ nodes.1, ne_eq, notLeaf, not_false_eq_true, if_true, reached,
        load_real _ nodes.2.1, first, setNext, store_real _ _ xReal, Option.map_some, Option.bind_eq_bind,
        Option.bind_some, load_real _ xReal, atX, store_real _ _ kReal, Function.update_of_ne written, setChild,
        store_real _ _ nodes.2.1, Function.update_self, setParent]
    · rw [childL]
      refine leads_snoc.mpr ⟨toX.congr fun y member => apart y ⟨?_, ?_⟩, Function.update_self ..⟩ <;> rintro rfl
      · exact notInit.1 member
      · exact notInit.2 member
    · rw [childR]
      refine ⟨rfl, ?_⟩
      rw [atK]
      exact right.congr fun y member => apart y (rest y member).1
    · simp only [List.mem_append, List.mem_cons, not_or] at other
      tauto
    · rw [List.mem_singleton.mp member]
      exact Function.update_self ..

end Kids

/-! ## Two neighbours in the tree -/

section Exchange

variable {T T' : Btree σ K V} {h : Nat} {ctx : Ctx K V (h + 2)} {p l r : Ptr} {low high el er : List (Entry K V)}
  {e : Entry K V} {kl kr : List (Tree K V h)} {before after : List (Tree K V (h + 1))}

/-- The nodes around two neighbours are different. -/
theorem Focus.neighbours (focus : Focus T ctx (.node p (low ++ e :: high)
    (before ++ [.node l el kl, .node r er kr] ++ after))) :
    (p :: (before.map (Tree.ptr (h + 1)) ++ l :: r :: after.map (Tree.ptr (h + 1)) ++
      (kl ++ kr).map (Tree.ptr h))).Nodup ∧
    ((low ++ e :: high ++ (el ++ er)).map Entry.addr).Nodup := by
  have nodup := (List.nodup_append.mp focus.nodup).1
  have cellsNodup := (List.nodup_append.mp focus.cellsNodup).1
  rw [List.nodup_iff_count_le_one] at nodup cellsNodup
  rw [List.nodup_iff_count_le_one, List.nodup_iff_count_le_one]
  have ptrs : ∀ {n : Nat} (ks : List (Tree K V n)) (b : Ptr),
      (ks.map (Tree.ptr n)).count b ≤ (ks.flatMap (Tree.addrs n)).count b := by
    intro n ks b
    rw [(addrs_perm ks).count_eq, List.count_append]
    exact Nat.le_add_right ..
  refine ⟨fun b => ?_, fun c => ?_⟩
  · have most := nodup b
    have ofBefore := ptrs before b
    have ofAfter := ptrs after b
    have ofKids := ptrs (kl ++ kr) b
    simp only [Tree.addrs_node, List.flatMap_append, List.flatMap_cons, List.flatMap_nil, List.append_nil,
      List.count_append, List.count_cons, List.map_append] at most ofKids ⊢
    omega
  · have most := cellsNodup c
    simp only [Tree.cells_node, List.flatMap_append, List.flatMap_cons, List.flatMap_nil, List.append_nil,
      List.count_append, List.count_cons, List.map_append, List.map_cons] at most ⊢
    omega

/-- **Two neighbours and their parent have shared their pairs and children anew.** -/
theorem Focus.exchange {entries' : List (Entry K V)} {ms' : List (Tree K V (h + 1))} {lost : List Ptr}
    (focus : Focus T ctx (.node p (low ++ e :: high) (before ++ [.node l el kl, .node r er kr] ++ after)))
    (outside : Outside T T' [p, l, r] (l :: r :: (kl ++ kr).map (Tree.ptr h))
      ((low ++ e :: high ++ (el ++ er)).map Entry.addr))
    (root : T'.root = T.root) (key : T'.key = T.key) (value : T'.value = T.value)
    (chain : Leads T'.pairNext (T'.head p) (entries'.map Entry.addr) null)
    (size : T'.nodeSize p = entries'.length)
    (line : Leads T'.next (T'.child p) ((before ++ ms' ++ after).map (Tree.ptr (h + 1))) null)
    (new : ∀ m ∈ ms', T'.parent m.addr = p ∧ T'.nodeSize m.addr = m.entries.length ∧
      Leads T'.pairNext (T'.head m.addr) (m.entries.map Entry.addr) null ∧
      Leads T'.next (T'.child m.addr) (m.kids.map (Tree.ptr h)) null ∧
      ∀ k ∈ m.kids, T'.parent (Tree.ptr h k) = m.addr)
    (entries : (entries' ++ ms'.flatMap fun m => m.entries).Perm (low ++ e :: high ++ (el ++ er)))
    (kids : (kidsOf ms').Perm (kl ++ kr)) (ptrs : (lost ++ ms'.map (Tree.ptr (h + 1))).Perm [l, r]) :
    Focus T' ctx (.node p entries' (before ++ ms' ++ after)) := by
  obtain ⟨nodup, -⟩ := focus.neighbours
  have pMoved : p ∉ l :: r :: (kl ++ kr).map (Tree.ptr h) := by
    have apart := (List.nodup_cons.mp nodup).1
    simp only [List.mem_append, List.mem_cons, not_or] at apart ⊢
    tauto
  have both : ∀ m ∈ [Tree.node l el kl, Tree.node r er kr],
      m ∈ before ++ [Tree.node l el kl, Tree.node r er kr] ++ after := fun m member =>
    List.mem_append_left _ (List.mem_append_right _ member)
  have held : ∀ x ∈ low ++ e :: high ++ (el ++ er), T.key x.addr = x.pair.1 ∧ T.value x.addr = x.pair.2 := by
    intro x member
    rcases List.mem_append.mp member with inParent | inKids
    · exact focus.below.1.stored x inParent
    · rcases List.mem_append.mp inKids with inLeft | inRight
      · exact (focus.below.2 (.node l el kl) (both _ (List.mem_cons_self ..))).1.stored x inLeft
      · exact (focus.below.2 (.node r er kr) (both _ (List.mem_cons_of_mem _ (List.mem_cons_self ..)))).1.stored x inRight
  have stored : ∀ x ∈ entries' ++ ms'.flatMap fun m => m.entries,
      T'.key x.addr = x.pair.1 ∧ T'.value x.addr = x.pair.2 := by
    intro x member
    rw [key, value]
    exact held x (entries.mem_iff.mp member)
  have wide : Outside T T' (p :: ([] ++ [Tree.node l el kl, .node r er kr].map (Tree.ptr (h + 1))))
      ([] ++ [Tree.node l el kl, .node r er kr].map (Tree.ptr (h + 1)) ++
        (kidsOf [Tree.node l el kl, .node r er kr]).map (Tree.ptr h))
      ((low ++ e :: high).map Entry.addr ++ ownCells [Tree.node l el kl, .node r er kr]) := by
    have isKids : kidsOf [Tree.node l el kl, .node r er kr] = kl ++ kr := by
      show kl ++ (kr ++ []) = _
      rw [List.append_nil]
    have isCells : ownCells [Tree.node l el kl, .node r er kr] = (el ++ er).map Entry.addr := by
      show el.map Entry.addr ++ (er.map Entry.addr ++ []) = _
      rw [List.append_nil, List.map_append]
    rw [isKids, isCells, ← List.map_append]
    exact outside
  have addrsPerm : (lost ++ ms'.flatMap (Tree.addrs (h + 1))).Perm
      ([] ++ [Tree.node l el kl, .node r er kr].flatMap (Tree.addrs (h + 1))) := by
    have grown := addrs_perm ms'
    rw [under_kidsOf] at grown
    refine (grown.append_left lost).trans ?_
    rw [← List.append_assoc]
    refine (ptrs.append (kids.flatMap_right (Tree.addrs h))).trans (List.perm_iff_count.mpr fun b => ?_)
    simp only [List.nil_append, List.flatMap_cons, List.flatMap_nil, Tree.addrs_node, List.flatMap_append,
      List.count_append, List.count_cons, List.count_nil]
    omega
  have cellsPerm : ([] ++ (entries'.map Entry.addr ++ ms'.flatMap (Tree.cells (h + 1)))).Perm
      ((low ++ e :: high).map Entry.addr ++ [Tree.node l el kl, .node r er kr].flatMap (Tree.cells (h + 1))) := by
    have own : ownCells ms' = (ms'.flatMap fun m => m.entries).map Entry.addr := List.map_flatMap.symm
    refine ((cells_perm ms').append_left _).trans ?_
    rw [own, ← List.append_assoc, ← List.map_append]
    refine ((entries.map Entry.addr).append (kids.flatMap_right (Tree.cells h))).trans
      (List.perm_iff_count.mpr fun b => ?_)
    simp only [List.map_append, List.flatMap_cons, List.flatMap_nil, Tree.cells_node, List.flatMap_append,
      List.count_append, List.count_nil]
    omega
  refine focus.window wide root ⟨?_, size, chain, fun x member => stored x (List.mem_append_left _ member), line⟩
    (fun m member => ?_) addrsPerm List.nodup_nil (fun b member => absurd member List.not_mem_nil)
    (fun b member => absurd member List.not_mem_nil) cellsPerm
  · exact (outside.parent p pMoved).trans focus.below.1.parent
  · obtain ⟨parent, nodeSize, pairs, children, adopted⟩ := new m member
    refine ⟨⟨parent, nodeSize, pairs, fun x inNode => stored x ?_, children⟩, fun k inKids => ⟨?_, adopted k inKids⟩⟩
    · exact List.mem_append_right _ (List.mem_flatMap.mpr ⟨m, member, inNode⟩)
    · have inAll := kids.mem_iff.mp (mem_kidsOf.mpr ⟨m, member, inKids⟩)
      rcases List.mem_append.mp inAll with inLeft | inRight
      · exact mem_kidsOf.mpr ⟨_, List.mem_cons_self .., inLeft⟩
      · exact mem_kidsOf.mpr ⟨_, List.mem_cons_of_mem _ (List.mem_cons_self ..), inRight⟩

/-- What the memory holds of two neighbours and their parent. -/
theorem Focus.sides (focus : Focus T ctx (.node p (low ++ e :: high)
    (before ++ [.node l el kl, .node r er kr] ++ after))) :
    Laid T ctx.parent p (low ++ e :: high)
      (before.map (Tree.ptr (h + 1)) ++ l :: r :: after.map (Tree.ptr (h + 1))) ∧
    Laid T p l el (kl.map (Tree.ptr h)) ∧ Laid T p r er (kr.map (Tree.ptr h)) ∧
    (∀ k ∈ kl, T.parent (Tree.ptr h k) = l) ∧ (∀ k ∈ kr, T.parent (Tree.ptr h k) = r) ∧
    (∀ x ∈ (low ++ e :: high ++ (el ++ er)).map Entry.addr, x ≠ null) ∧
    ∀ b ∈ p :: (before.map (Tree.ptr (h + 1)) ++ l :: r :: after.map (Tree.ptr (h + 1)) ++
      (kl ++ kr).map (Tree.ptr h)), b ≠ null := by
  obtain ⟨laid, inKids⟩ := Tree.in_node.mp focus.below
  have leftIn := inKids (.node l el kl) (by simp)
  have rightIn := inKids (.node r er kr) (by simp)
  have parents : ∀ {q b : Ptr} {entries : List (Entry K V)} {ks : List (Tree K V h)},
      Tree.In T (h + 1) q (.node b entries ks) → ∀ k ∈ ks, T.parent (Tree.ptr h k) = b := by
    intro q b entries ks inNode k member
    cases h with
    | zero => exact Empty.elim k
    | succ h => exact (inNode.2 k member).1.parent
  refine ⟨?_, leftIn.1, rightIn.1, parents leftIn, parents rightIn, fun x member => focus.cellsReal x ?_,
    fun b member => focus.real b ?_⟩
  · simpa only [List.map_append, List.map_cons, List.map_nil, List.append_assoc, List.cons_append, List.nil_append,
      Tree.ptr_node] using laid
  · simp only [List.map_append, List.map_cons, List.mem_append, List.mem_cons] at member
    simp only [Tree.cells_node, List.flatMap_append, List.flatMap_cons, List.flatMap_nil, List.map_append,
      List.map_cons, List.mem_append, List.mem_cons]
    tauto
  · have ptrs : ∀ {n : Nat} (ks : List (Tree K V n)), b ∈ ks.map (Tree.ptr n) → b ∈ ks.flatMap (Tree.addrs n) := by
      intro n ks inPtrs
      rw [(addrs_perm ks).mem_iff]
      exact List.mem_append_left _ inPtrs
    simp only [List.map_append, List.mem_append, List.mem_cons] at member
    simp only [Tree.addrs_node, List.flatMap_append, List.flatMap_cons, List.flatMap_nil, List.mem_append,
      List.mem_cons]
    rcases member with rfl | (inBefore | rfl | rfl | inAfter) | inLeft | inRight
    · exact Or.inl (Or.inl rfl)
    · exact Or.inl (Or.inr (Or.inl (Or.inl (ptrs before inBefore))))
    · exact Or.inl (Or.inr (Or.inl (Or.inr (Or.inl (Or.inl rfl)))))
    · exact Or.inl (Or.inr (Or.inl (Or.inr (Or.inr (Or.inl (Or.inl rfl))))))
    · exact Or.inl (Or.inr (Or.inr (ptrs after inAfter)))
    · exact Or.inl (Or.inr (Or.inl (Or.inr (Or.inl (Or.inr (ptrs kl inLeft))))))
    · exact Or.inl (Or.inr (Or.inl (Or.inr (Or.inr (Or.inl (Or.inr (ptrs kr inRight)))))))

/-- The nodes around two neighbours are real, and different. -/
structure Around (p l r : Ptr) (kids aside : List Ptr) : Prop where
  lp : l ≠ p
  rp : r ≠ p
  lr : l ≠ r
  real : p ≠ null ∧ l ≠ null ∧ r ≠ null
  nodup : kids.Nodup
  ofKids : ∀ b ∈ kids, b ≠ null ∧ b ≠ p ∧ b ≠ l ∧ b ≠ r
  ofAside : ∀ b ∈ aside, b ≠ null ∧ b ≠ p ∧ b ≠ l ∧ b ≠ r ∧ b ∉ kids

theorem Focus.around (focus : Focus T ctx (.node p (low ++ e :: high)
    (before ++ [.node l el kl, .node r er kr] ++ after))) :
    Around p l r (kl.map (Tree.ptr h) ++ kr.map (Tree.ptr h))
      (before.map (Tree.ptr (h + 1)) ++ after.map (Tree.ptr (h + 1))) := by
  obtain ⟨nodup, -⟩ := focus.neighbours
  obtain ⟨-, -, -, -, -, -, real⟩ := focus.sides
  have perm : (p :: (before.map (Tree.ptr (h + 1)) ++ l :: r :: after.map (Tree.ptr (h + 1)) ++
      (kl ++ kr).map (Tree.ptr h))).Perm ([p, l, r] ++ ((kl.map (Tree.ptr h) ++ kr.map (Tree.ptr h)) ++
        (before.map (Tree.ptr (h + 1)) ++ after.map (Tree.ptr (h + 1))))) := by
    refine List.perm_iff_count.mpr fun b => ?_
    simp only [List.map_append, List.count_append, List.count_cons, List.count_nil]
    omega
  have all : ∀ b ∈ [p, l, r] ++ ((kl.map (Tree.ptr h) ++ kr.map (Tree.ptr h)) ++
      (before.map (Tree.ptr (h + 1)) ++ after.map (Tree.ptr (h + 1)))), b ≠ null := fun b member =>
    real b (perm.mem_iff.mpr member)
  obtain ⟨nodes, kidsNodup, notKids, aside⟩ := written_of_perm nodup perm
  simp only [List.nodup_cons, List.mem_cons, List.not_mem_nil, or_false, not_or, forall_eq_or_imp, forall_eq,
    List.nodup_nil, not_false_eq_true, and_true] at nodes notKids aside
  obtain ⟨⟨pl, pr⟩, lr⟩ := nodes
  refine ⟨Ne.symm pl, Ne.symm pr, lr, ⟨all p (by simp), all l (by simp), all r (by simp)⟩, kidsNodup,
    fun b member => ⟨all b (List.mem_append_right _ (List.mem_append_left _ member)), ?_, ?_, ?_⟩,
    fun b member => ⟨all b (List.mem_append_right _ (List.mem_append_right _ member)), ?_⟩⟩
  · rintro rfl
    exact notKids.1 member
  · rintro rfl
    exact notKids.2.1 member
  · rintro rfl
    exact notKids.2.2 member
  · obtain ⟨⟨notP, notL, notR⟩, notKid⟩ := aside b member
    exact ⟨notP, notL, notR, notKid⟩

/-- The pairs of two neighbours, when no list of pairs has been written yet. -/
theorem Focus.between (focus : Focus T ctx (.node p (low ++ e :: high)
    (before ++ [.node l el kl, .node r er kr] ++ after))) (same : before.length = low.length)
    (room : (low ++ e :: high ++ (el ++ er)).length < T.fuel)
    (unwritten : T'.head = T.head ∧ T'.pairNext = T.pairNext ∧ T'.child = T.child ∧ T'.size = T.size)
    {rest : List Ptr} {e' : Ptr} (line : Leads T'.next (T.child p) (before.map (Tree.ptr (h + 1)) ++ l :: rest) e') :
    Between T' p l r (low.map Entry.addr) e.addr (high.map Entry.addr) (el.map Entry.addr) (er.map Entry.addr) := by
  obtain ⟨-, cellsNodup⟩ := focus.neighbours
  obtain ⟨parent, left, right, -, -, cellsReal, -⟩ := focus.sides
  have around := focus.around
  obtain ⟨headSame, pairNextSame, childSame, sizeSame⟩ := unwritten
  have fuelSame : T'.fuel = T.fuel := by rw [Btree.fuel, Btree.fuel, sizeSame]
  have parentChain := parent.chain
  simp only [List.map_append, List.map_cons] at cellsNodup cellsReal parentChain
  simp only [List.length_append, List.length_cons] at room
  rw [← childSame] at line
  rw [← headSame, ← pairNextSame] at parentChain
  have separated := separator_spec parentChain line (by simpa using same) around.real.1
    (fun x member => cellsReal x (List.mem_append_left _ (List.mem_append_left _ member)))
    (fun b member => by
      obtain ⟨bReal, -, notL, -⟩ := around.ofAside b (List.mem_append_left _ member)
      exact ⟨bReal, notL⟩)
    (show (low.map Entry.addr).length < T'.fuel by rw [List.length_map, fuelSame]; omega)
  refine ⟨separated, parentChain, ?_, ?_, cellsNodup, cellsReal,
    ⟨around.real.1, around.real.2.1, around.real.2.2, around.lp, around.rp, around.lr⟩, ?_⟩
  · rw [headSame, pairNextSame]
    exact left.chain
  · rw [headSame, pairNextSame]
    exact right.chain
  · rw [List.length_map, fuelSame]
    omega

/-- **Two nodes become one.** -/
theorem Focus.join (focus : Focus T ctx (.node p (low ++ e :: high)
    (before ++ [.node l el kl, .node r er kr] ++ after))) (same : before.length = low.length)
    (sizes : el.length + er.length + 1 = 2 * T.order) (notEmpty : el ≠ []) (leaves : kl = [] → kr = [])
    (room : (low ++ e :: high ++ (el ++ er)).length < T.fuel) (kidsRoom : kl.length < T.fuel ∧ kr.length < T.fuel) :
    ∃ T', T.join l r p = some T' ∧ T'.order = T.order ∧ T'.size = T.size ∧ T'.arena = T.arena ∧
      Focus T' ctx (.node p (low ++ high) (before ++ [.node l (el ++ e :: er) (kl ++ kr)] ++ after)) := by
  obtain ⟨parent, left, right, leftParents, rightParents, -, -⟩ := focus.sides
  have around := focus.around
  obtain ⟨pReal, lReal, rReal⟩ := around.real
  -- the children
  obtain ⟨next, kidsRun, kidsLead, nextKept⟩ := joinKids_spec left.kids right.kids around.nodup
    (fun b member => (around.ofKids b member).1) ⟨lReal, rReal⟩
    (fun none => by rw [leaves (List.map_eq_nil_iff.mp none), List.map_nil])
    ⟨by rw [List.length_map]; exact kidsRoom.1, by rw [List.length_map]; exact kidsRoom.2⟩
  obtain ⟨toL, -, nextL, fromR⟩ := leads_append.mp parent.kids
  have nextR : T.next r = (after.map (Tree.ptr (h + 1))).headD null := fromR.start
  have notLeft : ∀ b ∈ kl.map (Tree.ptr h), b ≠ l ∧ b ≠ r := fun b member =>
    (around.ofKids b (List.mem_append_left _ member)).2.2
  have nextR₁ : next r = T.next r := nextKept r fun member => (notLeft r member).2 rfl
  let T₂ : Btree σ K V := { T with
    next := Function.update next l (T.next r), parent := (adopted T l (kr.map (Tree.ptr h))).parent }
  have nextAside : ∀ b ∈ before.map (Tree.ptr (h + 1)) ++ after.map (Tree.ptr (h + 1)), T₂.next b = T.next b := by
    intro b member
    obtain ⟨-, -, notL, -, notKid⟩ := around.ofAside b member
    exact (Function.update_of_ne notL ..).trans (nextKept b fun inLeft => notKid (List.mem_append_left _ inLeft))
  have nextL₂ : T₂.next l = T.next r := Function.update_self ..
  have line : Leads T₂.next (T.child p) (before.map (Tree.ptr (h + 1)) ++ l :: after.map (Tree.ptr (h + 1))) null := by
    refine leads_append.mpr ⟨toL.congr fun b member => nextAside b (List.mem_append_left _ member), rfl, ?_⟩
    rw [nextL₂]
    exact fromR.congr fun b member => nextAside b (List.mem_append_right _ member)
  have between : Between T₂ p l r (low.map Entry.addr) e.addr (high.map Entry.addr) (el.map Entry.addr)
    (er.map Entry.addr) := focus.between same room ⟨rfl, rfl, rfl, rfl⟩ line
  obtain ⟨init, x, rfl⟩ : ∃ init x, el = init ++ [x] :=
    ⟨el.dropLast, el.getLast notEmpty, (List.dropLast_append_getLast _).symm⟩
  rw [List.map_append, List.map_singleton] at between
  obtain ⟨head, pairNext, pairsRun, relinked, toHigh, joined⟩ := joinPairs_spec between
  let T' : Btree σ K V := { T₂ with
    head := head, pairNext := pairNext,
    nodeSize := Function.update (Function.update T.nodeSize l (2 * T.order)) p (T.nodeSize p - 1) }
  have run : T.join l r p = some T' := by
    have notPL : p ≠ l := Ne.symm around.lp
    simp only [Btree.join, kidsRun, Option.bind_eq_bind, Option.bind_some, load_real _ rReal, nextR₁, setNext,
      store_real _ _ lReal, Option.map_some]
    change (T₂.joinPairs l r p).bind _ = _
    rw [pairsRun]
    simp only [Option.bind_some, setNodeSize, store_real _ _ lReal, Option.map_some, load_real _ pReal,
      Function.update_of_ne notPL, store_real _ _ pReal]
    rfl
  have notLeftL : l ∉ kl.map (Tree.ptr h) ++ kr.map (Tree.ptr h) := fun member =>
    (around.ofKids l member).2.2.1 rfl
  have outside : Outside T T' [p, l, r] (l :: r :: (kl ++ kr).map (Tree.ptr h))
      ((low ++ e :: high ++ (init ++ [x] ++ er)).map Entry.addr) := by
    refine ⟨fun _ _ => rfl, fun b other => ?_, fun b other => ?_, fun b other => ?_, fun b other => ?_, fun _ _ => rfl,
      fun _ _ => rfl, fun c other => relinked.pairNext c ?_⟩
    all_goals simp only [List.map_append, List.map_cons, List.map_nil, List.mem_append, List.mem_cons, List.not_mem_nil, or_false, not_or] at other ⊢
    · exact relinked.head b other.1 other.2.2
    · exact (Function.update_of_ne other.1 ..).trans (Function.update_of_ne other.2.1 ..)
    · exact if_neg other.2.2.2
    · exact (Function.update_of_ne other.1 ..).trans (nextKept b other.2.2.1)
    · exact other
  have lost : ([r] ++ [Tree.node l (init ++ [x] ++ e :: er) (kl ++ kr)].map (Tree.ptr (h + 1))).Perm [l, r] :=
    List.Perm.swap ..
  refine ⟨T', run, rfl, rfl, rfl, focus.exchange outside rfl rfl rfl ?_ ?_ ?_ (fun m member => ?_) ?_ ?_ lost⟩
  · rw [List.map_append]
    exact toHigh
  · have size := parent.nodeSize
    simp only [List.length_append, List.length_cons] at size ⊢
    exact (Function.update_self ..).trans (by omega)
  · simpa only [List.map_append, List.map_cons, List.map_nil, List.append_assoc, List.cons_append, List.nil_append,
      Tree.ptr_node] using line
  · obtain rfl := List.mem_singleton.mp member
    have childLeads := kidsLead.frame (T.next r) notLeftL
    have pairs : Leads pairNext (head l) ((init ++ [x] ++ e :: er).map Entry.addr) null := by
      simpa only [List.map_append, List.map_cons, List.map_nil] using joined
    refine ⟨?_, ?_, pairs, ?_, fun k inKids => ?_⟩
    · exact (if_neg fun member => notLeftL (List.mem_append_right _ member)).trans left.parent
    · refine (Function.update_of_ne around.lp ..).trans ((Function.update_self ..).trans ?_)
      show 2 * T.order = (init ++ [x] ++ e :: er).length
      rw [List.length_append, List.length_cons]
      omega
    · show Leads T₂.next (T.child l) ((kl ++ kr).map (Tree.ptr h)) null
      rw [List.map_append]
      exact childLeads
    · rcases List.mem_append.mp inKids with inLeft | inRight
      · refine (if_neg fun inRight => ?_).trans (leftParents k inLeft)
        exact (List.nodup_append.mp around.nodup).2.2 _ (List.mem_map_of_mem inLeft) _ inRight rfl
      · exact if_pos (List.mem_map_of_mem inRight)
  · classical
    refine List.perm_iff_count.mpr fun b => ?_
    show (low ++ high ++ (init ++ [x] ++ e :: er ++ [])).count b = _
    simp only [List.count_append, List.count_cons, List.count_nil]
    omega
  · show ((kl ++ kr) ++ []).Perm _
    rw [List.append_nil]

/-- What a step has written that moves a pair and a child from one neighbour to the other. -/
theorem Rehung.outside {dest : Ptr} {cells kids moved kl' kr' : List Ptr}
    {child next parent head pairNext : Ptr → Ptr} {nodeSize : Ptr → Nat} (relinked : Relinked T p r cells head pairNext)
    (rehung : Rehung { T with head := head, pairNext := pairNext } l r dest kids moved kl' kr' child next parent)
    (movedIn : ∀ b ∈ moved, b ∈ kids) (sizes : ∀ b, b ≠ l → b ≠ r → nodeSize b = T.nodeSize b) :
    Outside T { T with
      head := head, pairNext := pairNext, child := child, next := next, parent := parent, nodeSize := nodeSize }
      [p, l, r] (l :: r :: kids) cells := by
  refine ⟨fun b other => ?_, fun b other => ?_, fun b other => ?_, fun b other => ?_, fun b other => ?_, fun _ _ => rfl,
    fun _ _ => rfl, relinked.pairNext⟩
  all_goals simp only [List.mem_cons, List.not_mem_nil, or_false, not_or] at other
  · exact rehung.child b other.2.2
  · exact relinked.head b other.1 other.2.2
  · exact sizes b other.2.1 other.2.2
  · exact rehung.stayed b fun member => other.2.2 (movedIn b member)
  · exact rehung.next b other.2.2

/-- The neighbours stand in the parent's list as before. -/
theorem Focus.line (focus : Focus T ctx (.node p (low ++ e :: high)
    (before ++ [.node l el kl, .node r er kr] ++ after))) (next : Ptr → Ptr)
    (kept : ∀ b, b ∉ kl.map (Tree.ptr h) ++ kr.map (Tree.ptr h) → next b = T.next b) :
    Leads next (T.child p) (before.map (Tree.ptr (h + 1)) ++ l :: r :: after.map (Tree.ptr (h + 1))) null := by
  obtain ⟨parent, -⟩ := focus.sides
  have around := focus.around
  refine parent.kids.congr fun b member => kept b fun inKids => ?_
  obtain ⟨-, -, notL, notR⟩ := around.ofKids b inKids
  rcases List.mem_append.mp member with inBefore | rest
  · exact (around.ofAside b (List.mem_append_left _ inBefore)).2.2.2.2 inKids
  · rcases List.mem_cons.mp rest with isL | rest
    · exact notL isL
    · rcases List.mem_cons.mp rest with isR | inAfter
      · exact notR isR
      · exact (around.ofAside b (List.mem_append_right _ inAfter)).2.2.2.2 inKids

/-- **A pair and a child go from the right node to the left.** -/
theorem Focus.borrowRight {d : Entry K V} {moved : List (Tree K V h)} (focus : Focus T ctx (.node p (low ++ e :: high)
    (before ++ [.node l el kl, .node r (d :: er) (moved ++ kr)] ++ after))) (same : before.length = low.length)
    (notEmpty : el ≠ []) (leaves : kl = [] ∧ moved = [] ∧ kr = [] ∨ kl ≠ [] ∧ ∃ k, moved = [k])
    (room : (low ++ e :: high ++ (el ++ d :: er)).length < T.fuel) (kidsRoom : kl.length < T.fuel) :
    ∃ T', T.borrowRight l r p = some T' ∧ T'.order = T.order ∧ T'.size = T.size ∧ T'.arena = T.arena ∧
      Focus T' ctx (.node p (low ++ d :: high)
        (before ++ [.node l (el ++ [e]) (kl ++ moved), .node r er kr] ++ after)) := by
  obtain ⟨parent, left, right, leftParents, rightParents, -, -⟩ := focus.sides
  have around := focus.around
  obtain ⟨pReal, lReal, rReal⟩ := around.real
  have between := focus.between same room ⟨rfl, rfl, rfl, rfl⟩ parent.kids
  obtain ⟨init, x, rfl⟩ : ∃ init x, el = init ++ [x] :=
    ⟨el.dropLast, el.getLast notEmpty, (List.dropLast_append_getLast _).symm⟩
  rw [List.map_append, List.map_singleton, List.map_cons] at between
  obtain ⟨head, pairNext, pairsRun, relinked, parentPairs, leftPairs, rightPairs⟩ := borrowRightPairs_spec between
  let T₁ : Btree σ K V := { T with head := head, pairNext := pairNext }
  have nodup := around.nodup
  have kidsReal : ∀ b ∈ kl.map (Tree.ptr h) ++ (moved ++ kr).map (Tree.ptr h), b ≠ null := fun b member =>
    (around.ofKids b member).1
  have rightKids := right.kids
  rw [List.map_append] at nodup kidsReal rightKids
  have leaves' : kl.map (Tree.ptr h) = [] ∧ moved.map (Tree.ptr h) = [] ∧ kr.map (Tree.ptr h) = [] ∨
      kl.map (Tree.ptr h) ≠ [] ∧ ∃ k, moved.map (Tree.ptr h) = [k] := by
    rcases leaves with ⟨rfl, rfl, rfl⟩ | ⟨some', k, rfl⟩
    · exact Or.inl ⟨rfl, rfl, rfl⟩
    · exact Or.inr ⟨fun none => some' (List.map_eq_nil_iff.mp none), _, rfl⟩
  obtain ⟨child, next, parents, kidsRun, rehung⟩ := borrowRightKid_spec (T := T₁) left.kids rightKids nodup kidsReal
    ⟨lReal, rReal, around.lr⟩ leaves' (show _ < T.fuel by rw [List.length_map]; exact kidsRoom)
  let T' : Btree σ K V := { T with
    head := head, pairNext := pairNext, child := child, next := next, parent := parents,
    nodeSize := Function.update (Function.update T.nodeSize l (T.nodeSize l + 1)) r (T.nodeSize r - 1) }
  have run : T.borrowRight l r p = some T' := by
    simp only [Btree.borrowRight, pairsRun, Option.bind_eq_bind, Option.bind_some]
    change (T₁.borrowRightKid l r).bind _ = _
    rw [kidsRun]
    simp only [Option.bind_some, setNodeSize, load_real _ lReal, store_real _ _ lReal, Option.map_some,
      load_real _ rReal, Function.update_of_ne (Ne.symm around.lr), store_real _ _ rReal]
    rfl
  have kidsApart : ∀ b, b = l ∨ b = r → b ∉ kl.map (Tree.ptr h) ++ (moved.map (Tree.ptr h) ++ kr.map (Tree.ptr h)) := by
    intro b isNode member
    rw [← List.map_append] at member
    obtain ⟨-, -, notL, notR⟩ := around.ofKids b member
    exact isNode.elim notL notR
  have notMoved : ∀ b, b = l ∨ b = r → b ∉ moved.map (Tree.ptr h) := fun b isNode member =>
    kidsApart b isNode (List.mem_append_right _ (List.mem_append_left _ member))
  have outside : Outside T T' [p, l, r] (l :: r :: (kl ++ (moved ++ kr)).map (Tree.ptr h))
      ((low ++ e :: high ++ (init ++ [x] ++ d :: er)).map Entry.addr) := by
    simp only [List.map_append, List.map_cons, List.map_nil]
    exact rehung.outside relinked (fun b member => List.mem_append_right _ (List.mem_append_left _ member))
      fun b notL notR => (Function.update_of_ne notR ..).trans (Function.update_of_ne notL ..)
  have line := focus.line next fun b other => rehung.next b (by rwa [List.map_append] at other)
  have lost : ([] ++ [Tree.node l (init ++ [x] ++ [e]) (kl ++ moved), .node r er kr].map (Tree.ptr (h + 1))).Perm
    [l, r] := .refl _
  have apart := List.nodup_append.mp nodup
  refine ⟨T', run, rfl, rfl, rfl, focus.exchange outside rfl rfl rfl ?_ ?_ ?_ (fun m member => ?_) ?_ ?_ lost⟩
  · rw [List.map_append]
    exact parentPairs
  · have size := parent.nodeSize
    simp only [List.length_append, List.length_cons] at size ⊢
    exact (Function.update_of_ne (Ne.symm around.rp) ..).trans ((Function.update_of_ne (Ne.symm around.lp) ..).trans size)
  · show Leads next (child p) _ null
    rw [rehung.child p (Ne.symm around.rp)]
    simpa only [List.map_append, List.map_cons, List.map_nil, List.append_assoc, List.cons_append, List.nil_append,
      Tree.ptr_node] using line
  · rcases List.mem_cons.mp member with rfl | member
    · refine ⟨(rehung.stayed l (notMoved l (Or.inl rfl))).trans left.parent, ?_, ?_, ?_, fun k inKids => ?_⟩
      · have size := left.nodeSize
        refine (Function.update_of_ne around.lr ..).trans ((Function.update_self ..).trans ?_)
        show T.nodeSize l + 1 = (init ++ [x] ++ [e]).length
        rw [size, show (init ++ [x] ++ [e]).length = (init ++ [x]).length + [e].length from List.length_append]
        rfl
      · show Leads pairNext (head l) ((init ++ [x] ++ [e]).map Entry.addr) null
        rw [List.map_append, List.map_append]
        exact leftPairs
      · show Leads next (child l) ((kl ++ moved).map (Tree.ptr h)) null
        rw [List.map_append]
        exact rehung.left
      · rcases List.mem_append.mp inKids with inLeft | inMoved
        · refine (rehung.stayed _ fun inMoved => ?_).trans (leftParents k inLeft)
          exact apart.2.2 _ (List.mem_map_of_mem inLeft) _ (List.mem_append_left _ inMoved) rfl
        · exact rehung.arrived _ (List.mem_map_of_mem inMoved)
    · obtain rfl := List.mem_singleton.mp member
      refine ⟨(rehung.stayed r (notMoved r (Or.inr rfl))).trans right.parent, ?_, rightPairs, rehung.right,
        fun k inKids => ?_⟩
      · have size := right.nodeSize
        refine (Function.update_self ..).trans ?_
        rw [size]
        rfl
      · refine (rehung.stayed _ fun inMoved => ?_).trans (rightParents k (List.mem_append_right _ inKids))
        exact (List.nodup_append.mp apart.2.1).2.2 _ inMoved _ (List.mem_map_of_mem inKids) rfl
  · classical
    refine List.perm_iff_count.mpr fun b => ?_
    show (low ++ d :: high ++ (init ++ [x] ++ [e] ++ (er ++ []))).count b = _
    simp only [List.count_append, List.count_cons, List.count_nil]
    omega
  · show (kl ++ moved ++ (kr ++ [])).Perm _
    rw [List.append_nil, List.append_assoc]

/-- **A pair and a child go from the left node to the right.** -/
theorem Focus.borrowLeft {d : Entry K V} {moved : List (Tree K V h)} (focus : Focus T ctx (.node p (low ++ e :: high)
    (before ++ [.node l (el ++ [d]) (kl ++ moved), .node r er kr] ++ after))) (same : before.length = low.length)
    (notEmpty : el ≠ []) (leaves : kl = [] ∧ moved = [] ∧ kr = [] ∨ kl ≠ [] ∧ ∃ k, moved = [k])
    (room : (low ++ e :: high ++ (el ++ [d] ++ er)).length < T.fuel) (kidsRoom : kl.length < T.fuel) :
    ∃ T', T.borrowLeft l r p = some T' ∧ T'.order = T.order ∧ T'.size = T.size ∧ T'.arena = T.arena ∧
      Focus T' ctx (.node p (low ++ d :: high)
        (before ++ [.node l el kl, .node r (e :: er) (moved ++ kr)] ++ after)) := by
  obtain ⟨parent, left, right, leftParents, rightParents, -, -⟩ := focus.sides
  have around := focus.around
  obtain ⟨pReal, lReal, rReal⟩ := around.real
  have between := focus.between same room ⟨rfl, rfl, rfl, rfl⟩ parent.kids
  obtain ⟨init, x, rfl⟩ : ∃ init x, el = init ++ [x] :=
    ⟨el.dropLast, el.getLast notEmpty, (List.dropLast_append_getLast _).symm⟩
  rw [List.append_assoc init, List.singleton_append, List.map_append, List.map_cons, List.map_singleton] at between
  obtain ⟨head, pairNext, pairsRun, relinked, parentPairs, leftPairs, rightPairs⟩ := borrowLeftPairs_spec between
  let T₁ : Btree σ K V := { T with head := head, pairNext := pairNext }
  have nodup := around.nodup
  have kidsReal : ∀ b ∈ (kl ++ moved).map (Tree.ptr h) ++ kr.map (Tree.ptr h), b ≠ null := fun b member =>
    (around.ofKids b member).1
  have leftKids := left.kids
  rw [List.map_append] at nodup kidsReal leftKids
  have leaves' : kl.map (Tree.ptr h) = [] ∧ moved.map (Tree.ptr h) = [] ∧ kr.map (Tree.ptr h) = [] ∨
      kl.map (Tree.ptr h) ≠ [] ∧ ∃ k, moved.map (Tree.ptr h) = [k] := by
    rcases leaves with ⟨rfl, rfl, rfl⟩ | ⟨some', k, rfl⟩
    · exact Or.inl ⟨rfl, rfl, rfl⟩
    · exact Or.inr ⟨fun none => some' (List.map_eq_nil_iff.mp none), _, rfl⟩
  obtain ⟨child, next, parents, kidsRun, rehung⟩ := borrowLeftKid_spec (T := T₁) leftKids right.kids nodup kidsReal
    ⟨lReal, rReal, around.lr⟩ leaves' (show _ < T.fuel by rw [List.length_map]; exact kidsRoom)
  let T' : Btree σ K V := { T with
    head := head, pairNext := pairNext, child := child, next := next, parent := parents,
    nodeSize := Function.update (Function.update T.nodeSize l (T.nodeSize l - 1)) r (T.nodeSize r + 1) }
  have run : T.borrowLeft l r p = some T' := by
    simp only [Btree.borrowLeft, pairsRun, Option.bind_eq_bind, Option.bind_some]
    change (T₁.borrowLeftKid l r).bind _ = _
    rw [kidsRun]
    simp only [Option.bind_some, setNodeSize, load_real _ lReal, store_real _ _ lReal, Option.map_some,
      load_real _ rReal, Function.update_of_ne (Ne.symm around.lr), store_real _ _ rReal]
    rfl
  have kidsApart : ∀ b, b = l ∨ b = r → b ∉ kl.map (Tree.ptr h) ++ moved.map (Tree.ptr h) ++ kr.map (Tree.ptr h) := by
    intro b isNode member
    rw [← List.map_append] at member
    obtain ⟨-, -, notL, notR⟩ := around.ofKids b member
    exact isNode.elim notL notR
  have notMoved : ∀ b, b = l ∨ b = r → b ∉ moved.map (Tree.ptr h) := fun b isNode member =>
    kidsApart b isNode (List.mem_append_left _ (List.mem_append_right _ member))
  have outside : Outside T T' [p, l, r] (l :: r :: (kl ++ moved ++ kr).map (Tree.ptr h))
      ((low ++ e :: high ++ (init ++ [x] ++ [d] ++ er)).map Entry.addr) := by
    rw [List.append_assoc init, List.singleton_append]
    simp only [List.map_append, List.map_cons, List.map_nil]
    exact rehung.outside relinked (fun b member => List.mem_append_left _ (List.mem_append_right _ member))
      fun b notL notR => (Function.update_of_ne notR ..).trans (Function.update_of_ne notL ..)
  have line := focus.line next fun b other => rehung.next b (by rwa [List.map_append] at other)
  have lost : ([] ++ [Tree.node l (init ++ [x]) kl, .node r (e :: er) (moved ++ kr)].map (Tree.ptr (h + 1))).Perm
    [l, r] := .refl _
  have apart := List.nodup_append.mp nodup
  refine ⟨T', run, rfl, rfl, rfl, focus.exchange outside rfl rfl rfl ?_ ?_ ?_ (fun m member => ?_) ?_ ?_ lost⟩
  · rw [List.map_append]
    exact parentPairs
  · have size := parent.nodeSize
    simp only [List.length_append, List.length_cons] at size ⊢
    exact (Function.update_of_ne (Ne.symm around.rp) ..).trans ((Function.update_of_ne (Ne.symm around.lp) ..).trans size)
  · show Leads next (child p) _ null
    rw [rehung.child p (Ne.symm around.rp)]
    simpa only [List.map_append, List.map_cons, List.map_nil, List.append_assoc, List.cons_append, List.nil_append,
      Tree.ptr_node] using line
  · rcases List.mem_cons.mp member with rfl | member
    · refine ⟨(rehung.stayed l (notMoved l (Or.inl rfl))).trans left.parent, ?_, ?_, rehung.left, fun k inKids => ?_⟩
      · have size := left.nodeSize
        refine (Function.update_of_ne around.lr ..).trans ((Function.update_self ..).trans ?_)
        show T.nodeSize l - 1 = (init ++ [x]).length
        rw [size, show (init ++ [x] ++ [d]).length = (init ++ [x]).length + [d].length from List.length_append]
        rfl
      · show Leads pairNext (head l) ((init ++ [x]).map Entry.addr) null
        rw [List.map_append]
        exact leftPairs
      · refine (rehung.stayed _ fun inMoved => ?_).trans (leftParents k (List.mem_append_left _ inKids))
        exact (List.nodup_append.mp apart.1).2.2 _ (List.mem_map_of_mem inKids) _ inMoved rfl
    · obtain rfl := List.mem_singleton.mp member
      refine ⟨(rehung.stayed r (notMoved r (Or.inr rfl))).trans right.parent, ?_, rightPairs, ?_, fun k inKids => ?_⟩
      · have size := right.nodeSize
        refine (Function.update_self ..).trans ?_
        rw [size]
        rfl
      · show Leads next (child r) ((moved ++ kr).map (Tree.ptr h)) null
        rw [List.map_append]
        exact rehung.right
      · rcases List.mem_append.mp inKids with inMoved | inRight
        · exact rehung.arrived _ (List.mem_map_of_mem inMoved)
        · refine (rehung.stayed _ fun inMoved => ?_).trans (rightParents k inRight)
          exact apart.2.2 _ (List.mem_append_right _ inMoved) _ (List.mem_map_of_mem inRight) rfl
  · classical
    refine List.perm_iff_count.mpr fun b => ?_
    show (low ++ d :: high ++ (init ++ [x] ++ (e :: er ++ []))).count b = _
    simp only [List.count_append, List.count_cons, List.count_nil]
    omega
  · show (kl ++ (moved ++ kr ++ [])).Perm _
    rw [List.append_nil, List.append_assoc]

end Exchange

end Btree

end KTableFS.Index
