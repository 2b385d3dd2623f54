/-
# Index.RbtreeInsert -- insertion into the red-black index

`rb_insert_fixup` moves one violation up the tree: the red node at the focus may have a red
parent (`Pushed`), and everything else is as it should be.

* A red uncle: the grandparent's color goes to its children, and the focus to the
  grandparent, two frames further up.
* A black uncle: after one or two rotations the parent is black, and the loop ends.

The number of frames above the focus falls with each turn, which is why the loop ends.
-/
import KTableFS.Index.RbtreeSearch

namespace KTableFS.Index

open KTableFS.Theory

set_option autoImplicit false

namespace Rbtree

variable {σ K V : Type}

/-- A red node in a context that it completes, but for the color of its parent. -/
structure Pushed (T : Rbtree σ K V) (ctx : Ctx K V) (t : Tree K V) (n : Nat) : Prop where
  focus : Focus T ctx t
  red : t.color = .red
  here : t.RedBlack n
  above : Ctx.RedBlack ctx n

/-- `T'` holds the tree of `T`, which is now `t'`, rearranged. -/
structure Becomes (T : Rbtree σ K V) (t : Tree K V) (T' : Rbtree σ K V) (t' : Tree K V) : Prop where
  alike : Alike t t'
  kept : Kept T T'

theorem Becomes.trans {T T' T'' : Rbtree σ K V} {t t' t'' : Tree K V} (first : Becomes T t T' t')
    (second : Becomes T' t' T'' t'') : Becomes T t T'' t'' :=
  ⟨first.alike.trans second.alike, first.kept.trans second.kept⟩

theorem Tree.ne_leaf_of_red {t : Tree K V} (red : t.color = .red) : t ≠ .leaf := by
  rintro rfl
  cases red

/-- Above a red node there is a black one. -/
theorem Ctx.RedBlack.under_red {f : Frame K V} {ctx : Ctx K V} {n : Nat}
    (above : Ctx.RedBlack (f :: ctx) n) (red : f.color = .red) :
    f.other.RedBlack n ∧ f.other.color = .black ∧ ∃ g up, ctx = g :: up ∧ g.color = .black ∧
      g.other.RedBlack n ∧ Ctx.RedBlack up (n + 1) := by
  cases above with
  | black other above => cases red
  | red other blackOther blackUp above =>
      refine ⟨other, blackOther, ?_⟩
      cases above with
      | top => cases blackUp
      | black other above => exact ⟨_, _, rfl, rfl, other, above⟩
      | red other' blackOther' blackUp' above' => cases blackUp

section Blacken

variable {T : Rbtree σ K V} {f : Frame K V} {ctx : Ctx K V} {t : Tree K V}

/-- A node becomes black. -/
theorem Focus.blacken (focus : Focus T ctx t) : ∃ T', T.setColor (t.ptr T.nil) .black = some T' ∧
    Focus T' ctx t.blacken ∧ Kept T T' := by
  cases t with
  | leaf =>
      -- the sentinel is black already
      have same : { T.heap T.nil with color := Color.black } = T.heap T.nil := by
        rw [← focus.black]
      refine ⟨T.write T.nil (T.heap T.nil), ?_, ?_, rfl, rfl, rfl, write_self _⟩
      · rw [Tree.ptr_leaf, Rbtree.setColor, assign_eq focus.sentinel, same]
      · refine focus.congr rfl rfl (fun a member => write_other _ (focus.real a member).2) ?_
        rw [write_self]
  | node a c l pair r =>
      have made : Focus T ctx (.make .left a c pair l r) := focus
      exact made.setColor .black

theorem Focus.blackenSibling (focus : Focus T (f :: ctx) t) :
    ∃ T', T.setColor (f.other.ptr T.nil) .black = some T' ∧
      Focus T' ({ f with other := f.other.blacken } :: ctx) t ∧ Kept T T' := by
  obtain ⟨T', written, focus', kept⟩ := (Focus.over.mp focus).blacken
  exact ⟨T', written, focus'.back, kept⟩

end Blacken

section Fixup

variable {T : Rbtree σ K V} {f g : Frame K V} {up : Ctx K V} {t : Tree K V}

/-- The uncle, as the loop finds it. -/
theorem Focus.uncle (focus : Focus T (f :: g :: up) t) :
    T.child g.side.flip g.addr = some (g.other.ptr T.nil) ∧
      T.color (g.other.ptr T.nil) = some g.other.color :=
  ⟨(Focus.up.mp focus).sibling, (Focus.over.mp (Focus.up.mp focus)).color_eq⟩

/-- **A red uncle.** -/
theorem insertFixupCase_red {n : Nat} (pushed : Pushed T (f :: g :: up) t n) (redParent : f.color = .red)
    (red : g.other.color = .red) : ∃ T' t',
      T.insertFixupCase g.side (t.ptr T.nil) = some (T', t'.ptr T'.nil) ∧ Pushed T' up t' (n + 1) ∧
      Becomes T (Ctx.plug (f :: g :: up) t) T' (Ctx.plug up t') := by
  obtain ⟨focus, redT, here, above⟩ := pushed
  have real := Tree.ne_leaf_of_red redT
  obtain ⟨inOther, -, g', up', shape, -, inUncle, aboveUp⟩ := above.under_red redParent
  cases shape
  obtain ⟨uncle, uncleColor⟩ := focus.uncle
  -- the parent
  obtain ⟨T₁, parentBlack, focus₁, kept₁⟩ := focus.setFrameColor .black
  have ptr₁ : t.ptr T.nil = t.ptr T₁.nil := by rw [kept₁.nil]
  -- the uncle
  obtain ⟨T₂, uncleBlack, above₂, kept₂⟩ := (Focus.up.mp focus₁).blackenSibling
  have focus₂ := Focus.up.mpr above₂
  have ptr₂ : t.ptr T.nil = t.ptr T₂.nil := by rw [ptr₁, kept₂.nil]
  -- the grandparent
  obtain ⟨T₃, grandRed, focus₃, kept₃⟩ := (Focus.up.mp focus₂).setFrameColor .red
  have ptr₃ : t.ptr T.nil = t.ptr T₃.nil := by rw [ptr₂, kept₃.nil]
  have parent : T.parent (t.ptr T.nil) = some f.addr := focus.parent_eq real
  have grand : T.parent f.addr = some g.addr := focus.frame_parent
  have parent₂ : T₂.parent (t.ptr T.nil) = some f.addr := by
    rw [ptr₂]
    exact focus₂.parent_eq real
  have grand₂ : T₂.parent f.addr = some g.addr := focus₂.frame_parent
  have parent₃ : T₃.parent (t.ptr T.nil) = some f.addr := by
    rw [ptr₃]
    exact (Focus.up.mpr focus₃).parent_eq real
  have grand₃ : T₃.parent f.addr = some g.addr := (Focus.up.mpr focus₃).frame_parent
  have uncleBlack' : T₁.setColor (g.other.ptr T.nil) .black = some T₂ := by
    rw [← kept₁.nil]
    exact uncleBlack
  rw [red] at uncleColor
  refine ⟨T₃, .make g.side g.addr .red g.pair (.make f.side f.addr .black f.pair t f.other)
    g.other.blacken, ?_, ⟨Focus.up.mp focus₃, Tree.color_make .., ?_, aboveUp⟩, ?_,
    (kept₁.trans kept₂).trans kept₃⟩
  · simp only [insertFixupCase, parent, grand, uncle, uncleColor, parentBlack, uncleBlack', parent₂,
      grand₂, grandRed, parent₃, grand₃, Option.bind_eq_bind, Option.bind_some, if_true, Tree.ptr_make]
  · have uncleBlackened := inUncle.blacken
    rw [if_pos red] at uncleBlackened
    exact Tree.redBlack_red.mpr ⟨Tree.redBlack_black.mpr ⟨n, rfl, here, inOther⟩, uncleBlackened,
      Tree.color_make .., Tree.color_blacken _⟩
  · exact Alike.plug up (.make _ _ _ _ _ (.make _ _ _ _ _ (.refl t) (.refl f.other)) (alike_blacken _))

/-- The last two steps of the loop's body under a black uncle. -/
def straighten (side : Side) (T : Rbtree σ K V) (z : Ptr) : Option (Rbtree σ K V × Ptr) := do
  let T ← T.setColor (← T.parent z) .black
  let T ← T.setColor (← T.parent (← T.parent z)) .red
  let T ← T.rotate side.flip (← T.parent (← T.parent z))
  some (T, z)

/-- The node is its parent's outer child: one rotation. -/
theorem straighten_spec (focus : Focus T (f :: g :: up) t) (real : t ≠ .leaf) (outer : f.side = g.side) :
    ∃ T', straighten g.side T (t.ptr T.nil) = some (T', t.ptr T'.nil) ∧
      Focus T' (⟨g.side, f.addr, .black, f.pair, .make g.side g.addr .red g.pair f.other g.other⟩ :: up) t ∧
      Becomes T (Ctx.plug (f :: g :: up) t) T'
        (Ctx.plug (⟨g.side, f.addr, .black, f.pair, .make g.side g.addr .red g.pair f.other g.other⟩ :: up) t) := by
  obtain ⟨T₁, parentBlack, focus₁, kept₁⟩ := focus.setFrameColor .black
  have ptr₁ : t.ptr T.nil = t.ptr T₁.nil := by rw [kept₁.nil]
  obtain ⟨T₂, grandRed, focus₂, kept₂⟩ := (Focus.up.mp focus₁).setFrameColor .red
  have ptr₂ : t.ptr T.nil = t.ptr T₂.nil := by rw [ptr₁, kept₂.nil]
  -- the rotation, with the node as the outer child of the inner node
  have shaped : Focus T₂ up (.make g.side.flip.flip g.addr .red g.pair
      (.make g.side.flip f.addr .black f.pair f.other t) g.other) := by
    rw [Side.flip_flip, Tree.make_flip]
    exact outer ▸ Focus.up.mp focus₂
  obtain ⟨T₃, rotated, focus₃, kept₃⟩ := shaped.rotate
  rw [Side.flip_flip, Tree.make_flip] at focus₃
  have ptr₃ : t.ptr T.nil = t.ptr T₃.nil := by rw [ptr₂, kept₃.nil]
  have parent : T.parent (t.ptr T.nil) = some f.addr := focus.parent_eq real
  have parent₁ : T₁.parent (t.ptr T.nil) = some f.addr := by
    rw [ptr₁]
    exact focus₁.parent_eq real
  have parent₂ : T₂.parent (t.ptr T.nil) = some f.addr := by
    rw [ptr₂]
    exact (Focus.up.mpr focus₂).parent_eq real
  have grand₁ : T₁.parent f.addr = some g.addr := focus₁.frame_parent
  have grand₂ : T₂.parent f.addr = some g.addr := (Focus.up.mpr focus₂).frame_parent
  refine ⟨T₃, ?_, Focus.up.mpr focus₃, ?_, (kept₁.trans kept₂).trans kept₃⟩
  · rw [← ptr₃]
    simp only [straighten, parent, parentBlack, parent₁, grand₁, grandRed, parent₂, grand₂, rotated,
      Option.bind_eq_bind, Option.bind_some]
  · refine Alike.plug up ?_
    have turned := alike_rotate g.side.flip g.addr f.addr g.color f.color .red .black g.pair f.pair f.other t
      g.other
    rw [Side.flip_flip, Tree.make_flip, Tree.make_flip] at turned
    simp only [Frame.plug, outer]
    exact turned

/-- **A black uncle.** -/
theorem insertFixupCase_black {n : Nat} (pushed : Pushed T (f :: g :: up) t n) (redParent : f.color = .red)
    (black : g.other.color = .black) : ∃ T' f' t',
      T.insertFixupCase g.side (t.ptr T.nil) = some (T', t'.ptr T'.nil) ∧ f'.color = .black ∧
      Pushed T' (f' :: up) t' n ∧ Becomes T (Ctx.plug (f :: g :: up) t) T' (Ctx.plug (f' :: up) t') := by
  obtain ⟨focus, redT, here, above⟩ := pushed
  have real := Tree.ne_leaf_of_red redT
  obtain ⟨inOther, blackOther, g', up', shape, -, inUncle, aboveUp⟩ := above.under_red redParent
  cases shape
  obtain ⟨uncle, uncleColor⟩ := focus.uncle
  rw [black] at uncleColor
  have parent : T.parent (t.ptr T.nil) = some f.addr := focus.parent_eq real
  have grand : T.parent f.addr = some g.addr := focus.frame_parent
  rcases f.side.eq_or_flip g.side with outer | inner
  · -- an outer child
    have differ : t.ptr T.nil ≠ f.other.ptr T.nil := focus.ptr_ne (Or.inl (focus.ptr_real real))
    have sibling : T.child g.side.flip f.addr = some (f.other.ptr T.nil) := outer ▸ focus.sibling
    obtain ⟨T', straight, focus', becomes⟩ := straighten_spec focus real outer
    refine ⟨T', _, t, ?_, rfl, ⟨focus', redT, here, .black ?_ aboveUp⟩, becomes⟩
    · rw [← straight]
      simp only [insertFixupCase, straighten, parent, grand, uncle, uncleColor, sibling, if_neg differ,
        reduceCtorEq, if_false, Option.bind_eq_bind, Option.bind_some]
    · exact Tree.redBlack_red.mpr ⟨inOther, inUncle, blackOther, black⟩
  · -- an inner child, which a rotation makes an outer one
    have child : T.child g.side.flip f.addr = some (t.ptr T.nil) := inner ▸ focus.frame_child
    obtain ⟨pair, near, far, shape, inNear, inFar, blackNear, blackFar⟩ := here.exists_red g.side T.nil redT
    have shaped : Focus T (g :: up) (.make g.side.flip f.addr .red f.pair
        (.make g.side (t.ptr T.nil) .red pair near far) f.other) := by
      rw [← shape, ← inner, ← redParent]
      exact Focus.up.mp focus
    obtain ⟨T₁, rotated, focus₁, kept₁⟩ := shaped.rotate
    let turned : Tree K V := .make g.side.flip f.addr .red f.pair near f.other
    let parent' : Frame K V := ⟨g.side, t.ptr T.nil, .red, pair, far⟩
    have focus₁' : Focus T₁ (parent' :: g :: up) turned := Focus.up.mpr focus₁
    have redTurned : turned.color = .red := Tree.color_make ..
    obtain ⟨T', straight, focus', becomes⟩ :=
      straighten_spec focus₁' (Tree.ne_leaf_of_red redTurned) rfl
    refine ⟨T', _, turned, ?_, rfl, ⟨focus', redTurned, ?_, .black ?_ aboveUp⟩, .trans ⟨?_, kept₁⟩ becomes⟩
    · rw [← straight, Tree.ptr_make]
      simp only [insertFixupCase, straighten, parent, grand, uncle, uncleColor, child, if_true, rotated,
        reduceCtorEq, if_false, Option.bind_eq_bind, Option.bind_some]
    · exact Tree.redBlack_red.mpr ⟨inNear, inOther, blackNear, blackOther⟩
    · exact Tree.redBlack_red.mpr ⟨inFar, inUncle, blackFar, black⟩
    · refine Alike.plug (g :: up) ?_
      have rotation := alike_rotate g.side f.addr (t.ptr T.nil) .red .red .red .red f.pair pair near far f.other
      rw [← shape] at rotation
      rw [Frame.plug, inner, redParent]
      exact rotation

end Fixup

/-- The memory holds a red-black tree with a black root, the tree `t` rearranged. -/
structure Mended (T : Rbtree σ K V) (t : Tree K V) (T' : Rbtree σ K V) (whole : Tree K V) : Prop where
  focus : Focus T' [] whole
  redBlack : ∃ m, whole.RedBlack m
  black : whole.color = .black
  becomes : Becomes T t T' whole

/-- The last statement of the fix-ups: the root becomes black. -/
theorem mend {T : Rbtree σ K V} {ctx : Ctx K V} {t : Tree K V} (focus : Focus T ctx t)
    (redBlack : ∃ m, (Ctx.plug ctx t).blacken.RedBlack m) :
    ∃ T' whole, T.setColor T.root .black = some T' ∧ Mended T (Ctx.plug ctx t) T' whole := by
  have top : Focus T [] (Ctx.plug ctx t) := Focus.whole.mp focus
  have root : T.root = (Ctx.plug ctx t).ptr T.nil := top.root
  obtain ⟨T', written, focus', kept⟩ := top.blacken
  refine ⟨T', _, ?_, focus', redBlack, Tree.color_blacken _, alike_blacken _, kept⟩
  rw [root]
  exact written

/-- **The loop of `rb_insert_fixup`.** -/
theorem insertFixup_spec : ∀ (fuel : Nat) {T : Rbtree σ K V} {ctx : Ctx K V} {t : Tree K V} {n : Nat},
    Pushed T ctx t n → ctx.length < fuel → ∃ T' whole, T.insertFixup fuel (t.ptr T.nil) = some T' ∧
      Mended T (Ctx.plug ctx t) T' whole
  | 0, _, _, _, _, _, spent => absurd spent (Nat.not_lt_zero _)
  | fuel + 1, T, [], t, n, pushed, _ => by
      have real := Tree.ne_leaf_of_red pushed.red
      have parent : T.parent (t.ptr T.nil) = some T.nil := pushed.focus.parent_eq real
      have color : T.color T.nil = some .black := by
        rw [color_eq pushed.focus.sentinel, pushed.focus.black]
      obtain ⟨T', whole, written, mended⟩ := mend pushed.focus ⟨_, pushed.here.blacken⟩
      refine ⟨T', whole, ?_, mended⟩
      simp only [insertFixup, parent, color, reduceCtorEq, if_false, Option.bind_eq_bind, Option.bind_some,
        written]
  | fuel + 1, T, f :: ctx, t, n, pushed, room => by
      have real := Tree.ne_leaf_of_red pushed.red
      have parent : T.parent (t.ptr T.nil) = some f.addr := pushed.focus.parent_eq real
      have color : T.color f.addr = some f.color := pushed.focus.frame_color
      cases isColor : f.color with
      | black =>
          rw [isColor] at color
          obtain ⟨redBlack, black⟩ := pushed.above.plug pushed.here (Or.inr (congrArg some isColor))
          have blackened : (Ctx.plug (f :: ctx) t).blacken = Ctx.plug (f :: ctx) t :=
            Tree.blacken_of_black black
          obtain ⟨T', whole, written, mended⟩ := mend pushed.focus (blackened.symm ▸ redBlack)
          refine ⟨T', whole, ?_, mended⟩
          simp only [insertFixup, parent, color, reduceCtorEq, if_false, Option.bind_eq_bind,
            Option.bind_some, written]
      | red =>
          rw [isColor] at color
          obtain ⟨-, -, g, up, shape, -⟩ := pushed.above.under_red isColor
          subst shape
          -- which of the mirrored cases it is
          have grand : T.parent f.addr = some g.addr := pushed.focus.frame_parent
          have atParent : Focus T (g :: up) (f.plug t) := Focus.up.mp pushed.focus
          have parentReal : (f.plug t).ptr T.nil ≠ T.nil := atParent.ptr_real (Tree.make_ne_leaf _ _ _ _ _ _)
          obtain ⟨first, left, sideIs⟩ := atParent.side_eq (Or.inl parentReal)
          rw [Frame.plug, Tree.ptr_make] at sideIs
          have turn : ∀ {T' : Rbtree σ K V} {ctx' : Ctx K V} {t' : Tree K V} {n' : Nat},
              T.insertFixupCase g.side (t.ptr T.nil) = some (T', t'.ptr T'.nil) →
              Pushed T' ctx' t' n' → ctx'.length < fuel →
              Becomes T (Ctx.plug (f :: g :: up) t) T' (Ctx.plug ctx' t') →
              ∃ T'' whole, T.insertFixup (fuel + 1) (t.ptr T.nil) = some T'' ∧
                Mended T (Ctx.plug (f :: g :: up) t) T'' whole := by
            intro T' ctx' t' n' taken pushed' room' becomes
            obtain ⟨T'', whole, rest, mended⟩ := insertFixup_spec fuel pushed' room'
            refine ⟨T'', whole, ?_, mended.focus, mended.redBlack, mended.black,
              becomes.trans mended.becomes⟩
            simp only [insertFixup, parent, color, grand, left, sideIs, taken, rest, if_true,
              Option.bind_eq_bind, Option.bind_some]
          simp only [List.length_cons] at room
          cases uncle : g.other.color with
          | red =>
              obtain ⟨T', t', taken, pushed', becomes⟩ := insertFixupCase_red pushed isColor uncle
              exact turn taken pushed' (by omega) becomes
          | black =>
              obtain ⟨T', f', t', taken, -, pushed', becomes⟩ := insertFixupCase_black pushed isColor uncle
              exact turn taken pushed' (by simp only [List.length_cons]; omega) becomes

/-! ## `rbtree_insert` -/

/-- The link from the node to insert under. -/
def attach (C : KeyCmp K) (T : Rbtree σ K V) (z y : Ptr) : Option (Rbtree σ K V) :=
  if y = T.nil then some (T.setRoot z)
  else do
    let key ← T.key z
    let here ← T.key y
    if C.keyLess key here then T.setLeft y z else T.setRight y z

/-- **The new node takes the place of the leaf where its key belongs.** -/
theorem attach_spec {C : KeyCmp K} {T : Rbtree σ K V} {ctx : Ctx K V} {z : Ptr} {key : K}
    (focus : Focus T ctx .leaf) (faces : Ctx.Faces C key ctx) (keyIs : T.key z = some key) :
    ∃ T', attach C T z (Ctx.parent T.nil ctx) = some T' ∧ T'.root = Ctx.root z ctx ∧
      Ctx.In T.nil T'.heap z ctx ∧ Kept T T' ∧ ∀ b, b ∉ Ctx.addrs ctx → T'.heap b = T.heap b := by
  cases ctx with
  | nil => exact ⟨T.setRoot z, if_pos rfl, rfl, trivial, ⟨rfl, rfl, rfl, rfl⟩, fun _ _ => rfl⟩
  | cons f up =>
      have made := Focus.up.mp focus
      obtain ⟨notNull, notNil⟩ := made.addr_real
      have cellIs : T.heap f.addr =
          cell f.side (Ctx.parent T.nil up) T.nil (f.other.ptr T.nil) f.pair f.color := made.cell
      have apart := made.apart
      let T' := T.write f.addr (cell f.side (Ctx.parent T.nil up) z (f.other.ptr T.nil) f.pair f.color)
      have elsewhere : ∀ b, b ≠ f.addr → T'.heap b = T.heap b := fun b other => write_other _ other
      refine ⟨T', ?_, focus.root, ⟨write_self _, ?_, ?_⟩, write_kept _ notNil, fun b other => elsewhere b ?_⟩
      · have sideIs := faces f rfl
        have linked : T.setChild f.side f.addr z = some T' := setChild_cell cellIs notNull z
        simp only [attach, Ctx.parent, if_neg notNil, keyIs, key_cell cellIs notNull, Option.bind_eq_bind,
          Option.bind_some]
        rw [← linked]
        split at sideIs
        · next less => rw [if_pos less, sideIs, setLeft]
        · next notLess => rw [if_neg notLess, sideIs, setRight]
      · refine focus.above.2.1.congr fun b member => elsewhere b ?_
        rintro rfl
        exact apart.notFar member
      · refine Ctx.In.congr focus.above.2.2 fun b member => elsewhere b ?_
        rintro rfl
        exact apart.notCtx member
      · rintro rfl
        exact other (List.mem_cons_self ..)

/-- The writes that make a node of the tree out of fresh memory. -/
def graft (C : KeyCmp K) (T : Rbtree σ K V) (z y : Ptr) : Option (Rbtree σ K V) := do
  let T ← T.setParent z y
  let T ← attach C T z y
  let T ← T.setLeft z T.nil
  let T ← T.setRight z T.nil
  T.setColor z .red

theorem graft_spec {C : KeyCmp K} {T : Rbtree σ K V} {ctx : Ctx K V} {z : Ptr} (pair : K × V)
    (focus : Focus T ctx .leaf) (faces : Ctx.Faces C pair.1 ctx) (keyIs : (T.heap z).key = pair.1)
    (valueIs : (T.heap z).value = pair.2) (notNull : z ≠ null) (notNil : z ≠ T.nil)
    (notCtx : z ∉ Ctx.addrs ctx) :
    ∃ T', graft C T z (Ctx.parent T.nil ctx) = some T' ∧
      Focus T' ctx (.node z .red .leaf pair .leaf) ∧ Kept T T' := by
  generalize isParent : Ctx.parent T.nil ctx = y
  let node := T.heap z
  have here : T.heap z = cell .left node.parent node.left node.right pair node.color := by
    rw [cell, ← keyIs, ← valueIs]
  -- the parent's link
  let T₁ := T.write z (cell .left y node.left node.right pair node.color)
  have write₁ : T.setParent z y = some T₁ := setParent_cell here notNull y
  have other₁ : ∀ b, b ≠ z → T₁.heap b = T.heap b := fun b other => write_other _ other
  have focus₁ : Focus T₁ ctx .leaf := by
    refine focus.congr rfl rfl (fun a member => other₁ a ?_)
      (congrArg RbtreeNode.color (other₁ _ (Ne.symm notNil)))
    rintro rfl
    exact notCtx member
  obtain ⟨T₂, attached, root₂, above₂, kept₂, other₂⟩ :=
    attach_spec focus₁ faces (key_cell (write_self _) notNull)
  rw [show Ctx.parent T₁.nil ctx = y from isParent] at attached
  -- the node's own fields
  have here₂ : T₂.heap z = cell .left y node.left node.right pair node.color :=
    (other₂ z notCtx).trans (write_self _)
  let T₃ := T₂.write z (cell .left y T.nil node.right pair node.color)
  let T₄ := T₃.write z (cell .right y T.nil T.nil pair node.color)
  let T₅ := T₄.write z (cell .left y T.nil T.nil pair .red)
  have write₃ : T₂.setLeft z T.nil = some T₃ := setChild_cell here₂ notNull T.nil
  have here₃ : T₃.heap z = cell .right y node.right T.nil pair node.color := write_self _
  have write₄ : T₃.setRight z T.nil = some T₄ := setChild_cell here₃ notNull T.nil
  have write₅ : T₄.setColor z .red = some T₅ := by
    rw [setColor, assign_eq notNull, write_self]
    rfl
  have nil₂ : T₂.nil = T.nil := kept₂.nil
  have nil₅ : T₅.nil = T.nil := nil₂
  have other₅ : ∀ b, b ≠ z → T₅.heap b = T₂.heap b := by
    intro b other
    rw [write_other _ other, write_other _ other, write_other _ other]
  have notNil₂ : z ≠ T₂.nil := nil₂.symm ▸ notNil
  have kept : Kept T T₅ := ((((write_kept _ notNil).trans kept₂).trans (write_kept _ notNil₂)).trans
    (write_kept _ notNil₂)).trans (write_kept _ notNil₂)
  have nodup := focus.nodup
  have real := focus.real
  rw [Tree.addrs, List.nil_append] at nodup real
  refine ⟨T₅, ?_, ⟨root₂, ?_, ⟨?_, trivial, trivial⟩, ?_, ?_, ?_, ?_⟩, kept⟩
  · have nil₃ : T₃.nil = T.nil := nil₂
    simp only [graft, write₁, attached, nil₂, write₃, nil₃, write₄, write₅, Option.bind_eq_bind,
      Option.bind_some]
  · rw [nil₅]
    refine Ctx.In.congr above₂ fun b member => other₅ b ?_
    rintro rfl
    exact notCtx member
  · rw [nil₅, isParent]
    exact write_self _
  · exact List.nodup_cons.mpr ⟨notCtx, nodup⟩
  · rw [nil₅]
    intro a member
    rcases List.mem_cons.mp member with rfl | inCtx
    · exact ⟨notNull, notNil⟩
    · exact real a inCtx
  · rw [nil₅]
    exact focus.sentinel
  · rw [nil₅, kept.sentinel]
    exact focus.black

theorem bind_ite {α β : Type} {p : Prop} [Decidable p] (a b : Option α) (f : α → Option β) :
    (if p then a else b).bind f = if p then a.bind f else b.bind f := by
  split <;> rfl

/-- `rbtree_insert` behind its descent. -/
theorem insert_placed {C : KeyCmp K} {A : Allocator σ} {T T₀ : Rbtree σ K V} {key : K} {value : V} {z y : Ptr}
    (new : T.nodeNew A key value = (z, T₀))
    (placed : T₀.place C z (T₀.size + 1) T₀.nil T₀.root = some (some y)) :
    T.insert C A key value = (graft C T₀ z y).bind fun T₁ =>
      (T₁.insertFixup (T₁.size + 1) z).bind fun T₂ => some ({ T₂ with size := T₂.size + 1 }, 0) := by
  simp only [Rbtree.insert, new, placed, graft, attach, Option.bind_eq_bind, bind_ite, Option.bind_assoc,
    Option.bind_some]

section Stands

variable {A : Allocator σ} {T : Rbtree σ K V} {whole : Tree K V}

/-- **`rb_node_new`**: the node is apart from the tree, which stays as it is. -/
theorem Stands.nodeNew (stands : Stands A T whole) (key : K) (value : V) :
    ∃ z T₀, T.nodeNew A key value = (z, T₀) ∧ Stands A T₀ whole ∧ T₀.nil = T.nil ∧ T₀.size = T.size ∧
      A.InUse T₀.nodeSlab z ∧ z ≠ null ∧ z ≠ T.nil ∧ z ∉ whole.addrs ∧
      (T₀.heap z).key = key ∧ (T₀.heap z).value = value := by
  have fresh := A.alloc_fresh T.nodeSlab
  have notNil : (A.alloc T.nodeSlab).1 ≠ T.nil := fun same => fresh (same ▸ stands.nilInUse)
  have notIn : (A.alloc T.nodeSlab).1 ∉ whole.addrs := fun member => fresh (stands.inUse _ member)
  have elsewhere : ∀ b, b ≠ (A.alloc T.nodeSlab).1 →
      (T.nodeNew A key value).2.heap b = T.heap b := fun b other => Function.update_of_ne other ..
  have made : (T.nodeNew A key value).2.heap (A.alloc T.nodeSlab).1 =
      { T.heap (A.alloc T.nodeSlab).1 with key := key, value := value } := Function.update_self ..
  refine ⟨_, _, rfl, ⟨?_, stands.redBlack, stands.black, stands.size,
    fun a member => A.alloc_keeps _ _ (stands.inUse a member), A.alloc_keeps _ _ stands.nilInUse⟩, rfl, rfl,
    A.alloc_inUse _, A.alloc_ne_null _, notNil, notIn, ?_, ?_⟩
  · refine stands.focus.congr rfl rfl (fun a member => elsewhere a ?_)
      (congrArg RbtreeNode.color (elsewhere _ (Ne.symm notNil)))
    rintro rfl
    rw [Ctx.addrs, List.append_nil] at member
    exact notIn member
  · exact congrArg RbtreeNode.key made
  · exact congrArg RbtreeNode.value made

variable (C : KeyCmp K) {m : OrderedMap K V C.order}

/-- **`rbtree_insert`** -/
theorem Stands.insert (stands : Stands A T whole) (holds : m.pairs = whole.pairs) (key : K) (value : V) :
    ∃ T' whole', T.insert C A key value = some (T', if m.contains key then -1 else 0) ∧
      Stands A T' whole' ∧ (if m.contains key then m else m.insert key value).pairs = whole'.pairs := by
  obtain ⟨z, T₀, new, stands₀, nil₀, size₀, zInUse, notNull, notNil, notIn, keyIs, valueIs⟩ :=
    stands.nodeNew key value
  have keyRead : T₀.key z = some key := by
    rw [Rbtree.key, deref, if_neg notNull, Option.map_some, keyIs]
  have placed := place_spec C key keyRead stands₀.focus stands₀.room
  have root : T₀.root = whole.ptr T₀.nil := stands₀.focus.root
  rw [← root] at placed
  rcases descend_spec C holds key with ⟨ctx, walk, cut, faces, plugged, pairs⟩ |
    ⟨ctx, a, c, l, pair, r, walk, found, plugged, pairs⟩
  · rw [OrderedMap.contains_of_cut cut pairs]
    rw [walk] at placed
    have atLeaf : Focus T₀ ctx .leaf := Focus.whole.mpr (plugged ▸ stands₀.focus)
    have inCtx : ∀ b, b ∈ whole.addrs ↔ b ∈ Ctx.addrs ctx := fun b => by
      rw [← plugged, Ctx.mem_addrs_plug]
      simp [Tree.addrs]
    obtain ⟨T₁, grafted, focus₁, kept₁⟩ := graft_spec (key, value) atLeaf faces keyIs valueIs
      notNull (nil₀.symm ▸ notNil) fun member => notIn ((inCtx z).mpr member)
    -- the fix-up
    obtain ⟨n, redBlack⟩ := stands₀.redBlack
    have black := stands₀.black
    rw [← plugged] at redBlack black
    obtain ⟨n', atHole, above, -⟩ := redBlack_plug redBlack black
    cases atHole
    have pushed : Pushed T₁ ctx (.node z .red .leaf (key, value) .leaf) 0 :=
      ⟨focus₁, rfl, .red .leaf .leaf rfl rfl, above⟩
    have high : ctx.length < T₁.size + 1 := by
      have shorter := Ctx.length_le_plug ctx (.leaf : Tree K V)
      rw [plugged, ← stands₀.size, ← kept₁.size] at shorter
      omega
    obtain ⟨T₂, whole', fixed, mended⟩ := insertFixup_spec (T₁.size + 1) pushed high
    obtain ⟨alike, kept₂⟩ := mended.becomes
    have kept := kept₁.trans kept₂
    have pairs' : whole'.pairs = Ctx.low ctx ++ (key, value) :: Ctx.high ctx := by
      rw [alike.pairs, Ctx.pairs_plug]
      rfl
    refine ⟨{ T₂ with size := T₂.size + 1 }, whole', ?_, ⟨?_, mended.redBlack, mended.black, ?_, ?_, ?_⟩, ?_⟩
    · rw [insert_placed new placed, grafted, Option.bind_some,
        show T₁.insertFixup (T₁.size + 1) z = some T₂ from fixed, Option.bind_some]
      rfl
    · exact mended.focus.congr rfl rfl (fun _ _ => rfl) rfl
    · show T₂.size + 1 = _
      rw [pairs', kept.size, stands₀.size, ← holds, pairs]
      simp only [List.length_append, List.length_cons]
      omega
    · intro b member
      show A.InUse T₂.nodeSlab b
      rw [kept.nodeSlab]
      rcases Ctx.mem_addrs_plug.mp (alike.addrs.mem_iff.mp member) with isNew | old
      · rw [show b = z by simpa [Tree.addrs] using isNew]
        exact zInUse
      · exact stands₀.inUse b ((inCtx b).mpr old)
    · show A.InUse T₂.nodeSlab T₂.nil
      rw [kept.nodeSlab, kept.nil]
      exact stands₀.nilInUse
    · rw [if_neg Bool.false_ne_true, OrderedMap.insert_of_cut cut pairs, pairs']
  · rw [OrderedMap.contains_of_found pairs found]
    rw [walk] at placed
    have equal : T₀.place C z (T₀.size + 1) T₀.nil T₀.root = some none := placed
    refine ⟨T₀.nodeFree A z, whole, ?_, ⟨?_, stands.redBlack, stands.black, stands₀.size, ?_, ?_⟩, ?_⟩
    · simp only [Rbtree.insert, new, equal, Option.bind_eq_bind, Option.bind_some]
      rfl
    · exact stands₀.focus.congr rfl rfl (fun _ _ => rfl) rfl
    · intro b member
      refine A.free_keeps _ _ _ (stands₀.inUse b member) ?_
      rintro rfl
      exact notIn member
    · exact A.free_keeps _ _ _ stands₀.nilInUse (nil₀.symm ▸ Ne.symm notNil)
    · rw [if_pos rfl, holds]

end Stands

end Rbtree

end KTableFS.Index
