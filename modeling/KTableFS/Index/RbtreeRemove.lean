/-
# Index.RbtreeRemove -- removal from the red-black index

Taking a node out leaves a tree that may be short of one black node.  `rb_delete_fixup` moves
that lack up the tree (`Short`), or ends it:

* A red sibling is rotated above the parent, so that the sibling is black.
* A sibling with two black children becomes red, and the lack is the parent's.
* Otherwise the sibling's outer child is made red, and one rotation ends the lack.

The tree that lacks may be no tree at all.  Then its parent is what `transplant` has stored in
the sentinel (`Held`); no step of the loop writes there.
-/
import KTableFS.Index.RbtreeInsert

namespace KTableFS.Index

open KTableFS.Theory

set_option autoImplicit false

namespace Rbtree

variable {σ K V : Type}

/-- The pointer to the parent is right, also that of the sentinel. -/
def Held (T : Rbtree σ K V) (ctx : Ctx K V) (t : Tree K V) : Prop :=
  T.parent (t.ptr T.nil) = some (Ctx.parent T.nil ctx)

/-- A tree that is short of one black node for its context. -/
structure Short (T : Rbtree σ K V) (ctx : Ctx K V) (t : Tree K V) (n : Nat) : Prop where
  focus : Focus T ctx t
  held : Held T ctx t
  black : t.color = .black → t.RedBlack n
  red : t.color = .red → t.blacken.RedBlack (n + 1)
  above : Ctx.RedBlack ctx (n + 1)

section Fixup

variable {T : Rbtree σ K V} {f : Frame K V} {up ctx : Ctx K V} {t : Tree K V}

theorem Focus.held_of_kept {T' : Rbtree σ K V} {ctx' : Ctx K V} (focus : Focus T' ctx' t) (held : Held T ctx t)
    (kept : Kept T T') (parent : Ctx.parent T.nil ctx' = Ctx.parent T.nil ctx) : Held T' ctx' t := by
  cases t with
  | leaf =>
      have null : T.nil ≠ Index.null := kept.nil ▸ focus.sentinel
      unfold Held at held ⊢
      rw [Tree.ptr_leaf, Rbtree.parent_eq null] at held
      rw [Tree.ptr_leaf, kept.nil, Rbtree.parent_eq null, kept.sentinel, held, parent]
  | node addr c l pair r => exact focus.parent_eq nofun

/-- The root is not in a subtree. -/
theorem Focus.ptr_ne_root (focus : Focus T (f :: up) t) : t.ptr T.nil ≠ T.root := by
  have atRoot : ∀ (ctx : Ctx K V) (hole : Ptr), Ctx.root hole ctx = hole ∨ Ctx.root hole ctx ∈ Ctx.addrs ctx := by
    intro ctx
    induction ctx with
    | nil => exact fun _ => Or.inl rfl
    | cons g outer ih =>
        intro hole
        rcases ih g.addr with same | member
        · exact Or.inr (same ▸ List.mem_cons_self ..)
        · exact Or.inr (List.mem_cons_of_mem _ (List.mem_append_right _ member))
  have member : T.root ∈ Ctx.addrs (f :: up) := by
    rw [focus.root]
    rcases atRoot up f.addr with same | member
    · exact List.mem_cons.mpr (Or.inl same)
    · exact List.mem_cons_of_mem _ (List.mem_append_right _ member)
  intro same
  by_cases isNil : t.ptr T.nil = T.nil
  · exact (focus.real _ (List.mem_append_right _ member)).2 (same.symm.trans isNil)
  · exact (List.nodup_append.mp focus.nodup).2.2 _ (Tree.ptr_mem isNil) _ member same

end Fixup

/-! ## The cases of the loop -/

/-- The first half of the loop's body: the sibling, which is black in the end. -/
def blackSibling (side : Side) (T : Rbtree σ K V) (x : Ptr) : Option (Rbtree σ K V × Ptr) := do
  let w ← T.child side.flip (← T.parent x)
  let color ← T.color w
  if color = .red then do
    let T ← T.setColor w .black
    let T ← T.setColor (← T.parent x) .red
    let T ← T.rotate side (← T.parent x)
    let w ← T.child side.flip (← T.parent x)
    some (T, w)
  else some (T, w)

/-- The sibling's outer child, which is red in the end. -/
def redOuter (side : Side) (T : Rbtree σ K V) (x w : Ptr) : Option (Rbtree σ K V × Ptr) := do
  let outer ← T.color (← T.child side.flip w)
  if outer = .black then do
    let T ← T.setColor (← T.child side w) .black
    let T ← T.setColor w .red
    let T ← T.rotate side.flip w
    let w ← T.child side.flip (← T.parent x)
    some (T, w)
  else some (T, w)

/-- The rotation that ends the loop. -/
def settle (side : Side) (T : Rbtree σ K V) (x w : Ptr) : Option (Rbtree σ K V × Ptr) := do
  let T ← T.setColor w (← T.color (← T.parent x))
  let T ← T.setColor (← T.parent x) .black
  let T ← T.setColor (← T.child side.flip w) .black
  let T ← T.rotate side (← T.parent x)
  some (T, T.root)

/-- The second half of the body, for a black sibling. -/
def rebalance (side : Side) (T : Rbtree σ K V) (x w : Ptr) : Option (Rbtree σ K V × Ptr) := do
  let first ← T.color (← T.left w)
  let second ← T.color (← T.right w)
  if first = .black ∧ second = .black then do
    let T ← T.setColor w .red
    let x ← T.parent x
    some (T, x)
  else do
    let (T, w) ← redOuter side T x w
    settle side T x w

/-- The second half, with what ends the loop. -/
theorem rebalance_eq (side : Side) (T : Rbtree σ K V) (x w : Ptr) : rebalance side T x w = (do
    let first ← T.color (← T.left w)
    let second ← T.color (← T.right w)
    if first = .black ∧ second = .black then do
      let T ← T.setColor w .red
      let x ← T.parent x
      some (T, x)
    else do
      let outer ← T.color (← T.child side.flip w)
      let (T, w) ← if outer = .black then do
          let T ← T.setColor (← T.child side w) .black
          let T ← T.setColor w .red
          let T ← T.rotate side.flip w
          let w ← T.child side.flip (← T.parent x)
          some (T, w)
        else some (T, w)
      settle side T x w) := by
  unfold rebalance redOuter
  cases T.left w with
  | none => rfl
  | some l =>
      dsimp only [Option.bind_eq_bind, Option.bind_some]
      cases T.color l with
      | none => rfl
      | some first =>
          dsimp only [Option.bind_eq_bind, Option.bind_some]
          cases T.right w with
          | none => rfl
          | some r =>
              dsimp only [Option.bind_eq_bind, Option.bind_some]
              cases T.color r with
              | none => rfl
              | some second =>
                  dsimp only [Option.bind_eq_bind, Option.bind_some]
                  congr 1
                  simp only [Option.bind_assoc, bind_ite, Option.bind_some]

theorem deleteFixupCase_eq (side : Side) (T : Rbtree σ K V) (x : Ptr) :
    T.deleteFixupCase side x = (blackSibling side T x).bind fun out => rebalance side out.1 x out.2 := by
  unfold deleteFixupCase blackSibling
  cases T.parent x with
  | none => rfl
  | some p =>
      dsimp only [Option.bind_eq_bind, Option.bind_some]
      cases T.child side.flip p with
      | none => rfl
      | some w =>
          dsimp only [Option.bind_eq_bind, Option.bind_some]
          cases T.color w with
          | none => rfl
          | some color =>
              dsimp only [Option.bind_eq_bind, Option.bind_some]
              by_cases red : color = .red
              · rw [if_pos red, if_pos red]
                have chain : ∀ body : Rbtree σ K V × Ptr → Option (Rbtree σ K V × Ptr), ((do
                    let T ← T.setColor w .black
                    let T ← T.setColor (← T.parent x) .red
                    let T ← T.rotate side (← T.parent x)
                    let w ← T.child side.flip (← T.parent x)
                    some (T, w)) : Option (Rbtree σ K V × Ptr)).bind body = (do
                    let T ← T.setColor w .black
                    let T ← T.setColor (← T.parent x) .red
                    let T ← T.rotate side (← T.parent x)
                    let w ← T.child side.flip (← T.parent x)
                    body (T, w)) := by
                  intro body
                  simp only [Option.bind_eq_bind, Option.bind_assoc, Option.bind_some]
                have same : (fun out : Rbtree σ K V × Ptr => rebalance side out.1 x out.2) = _ :=
                  funext fun out => rebalance_eq side out.1 x out.2
                rw [same]
                refine Eq.trans ?_ (chain _).symm
                rfl
              · rw [if_neg red, if_neg red, Option.bind_some, rebalance_eq]
                rfl

/-! ## What each step does -/

/-- A sibling that is red has a black parent, and black children. -/
theorem Ctx.RedBlack.over_red {f : Frame K V} {up : Ctx K V} {n : Nat} (above : Ctx.RedBlack (f :: up) n)
    (red : f.other.color = .red) : f.color = .black ∧ f.other.RedBlack n ∧ Ctx.RedBlack up (n + 1) := by
  cases above with
  | black other above => exact ⟨rfl, other, above⟩
  | red other blackOther blackUp above =>
      rw [show _ = Color.black from blackOther] at red
      cases red

theorem Tree.RedBlack.exists_black (side : Side) {t : Tree K V} {n : Nat} (nil : Ptr)
    (redBlack : t.RedBlack (n + 1)) (black : t.color = .black) : ∃ pair near far,
      t = make side (t.ptr nil) .black pair near far ∧ near.RedBlack n ∧ far.RedBlack n := by
  have real : t ≠ .leaf := by
    rintro rfl
    cases redBlack
  obtain ⟨pair, near, far, shape⟩ := exists_make side nil real
  rw [black] at shape
  rw [shape, redBlack_black] at redBlack
  obtain ⟨m, same, inNear, inFar⟩ := redBlack
  cases same
  exact ⟨pair, near, far, shape, inNear, inFar⟩

section Steps

variable {T : Rbtree σ K V} {up : Ctx K V} {t : Tree K V} {n : Nat}

/-- **The sibling is black in the end.**  Where it was red, the parent is red now. -/
theorem blackSibling_spec {f : Frame K V} (short : Short T (f :: up) t n) :
    ∃ T' f' up', blackSibling f.side T (t.ptr T.nil) = some (T', f'.other.ptr T'.nil) ∧ f'.side = f.side ∧
      f'.other.color = .black ∧ (f'.color = .black → up'.length ≤ up.length) ∧ Short T' (f' :: up') t n ∧
      Becomes T (Ctx.plug (f :: up) t) T' (Ctx.plug (f' :: up') t) := by
  have parent : T.parent (t.ptr T.nil) = some f.addr := short.held
  have sibling := short.focus.sibling
  have color := (Focus.over.mp short.focus).color_eq
  cases isColor : f.other.color with
  | black =>
      rw [isColor] at color
      refine ⟨T, f, up, ?_, rfl, isColor, fun _ => Nat.le_refl _, short, .refl _, .refl T⟩
      simp only [blackSibling, parent, sibling, color, reduceCtorEq, if_false, Option.bind_eq_bind,
        Option.bind_some]
  | red =>
      rw [isColor] at color
      obtain ⟨blackParent, inSibling, above⟩ := short.above.over_red isColor
      obtain ⟨pair, near, far, shape, inNear, inFar, blackNear, blackFar⟩ :=
        inSibling.exists_red f.side T.nil isColor
      -- the colors
      obtain ⟨T₁, siblingBlack, focus₁, kept₁⟩ := short.focus.blackenSibling
      obtain ⟨T₂, parentRed, focus₂, kept₂⟩ := focus₁.setFrameColor .red
      -- the rotation
      have shaped : Focus T₂ up (.make f.side.flip f.addr .red f.pair
          (.make f.side (f.other.ptr T.nil) .black pair near far) t) := by
        rw [Tree.make_flip, ← Tree.blacken_make (c := .red), ← shape]
        exact Focus.up.mp focus₂
      obtain ⟨T₃, rotated, focus₃, kept₃⟩ := shaped.rotate
      rw [Tree.make_flip] at focus₃
      let f' : Frame K V := ⟨f.side, f.addr, .red, f.pair, near⟩
      let g' : Frame K V := ⟨f.side, f.other.ptr T.nil, .black, pair, far⟩
      have focus' : Focus T₃ (f' :: g' :: up) t := Focus.up.mpr (Focus.up.mpr focus₃)
      have kept₁₂ := kept₁.trans kept₂
      have kept := kept₁₂.trans kept₃
      have ptr₁ : t.ptr T.nil = t.ptr T₁.nil := by rw [kept₁.nil]
      have ptr₂ : t.ptr T.nil = t.ptr T₂.nil := by rw [kept₁₂.nil]
      have ptr₃ : t.ptr T.nil = t.ptr T₃.nil := by rw [kept.nil]
      have held' : Held T₃ (f' :: g' :: up) t := focus'.held_of_kept short.held kept rfl
      have parent₁ : T₁.parent (t.ptr T.nil) = some f.addr := by
        rw [ptr₁]
        exact focus₁.held_of_kept short.held kept₁ rfl
      have parent₂ : T₂.parent (t.ptr T.nil) = some f.addr := by
        rw [ptr₂]
        exact focus₂.held_of_kept short.held kept₁₂ rfl
      have parent₃ : T₃.parent (t.ptr T.nil) = some f.addr := by
        rw [ptr₃]
        exact held'
      have sibling₃ : T₃.child f.side.flip f.addr = some (near.ptr T₃.nil) := focus'.sibling
      refine ⟨T₃, f', g' :: up, ?_, rfl, blackNear, nofun, ⟨focus', held', short.black, short.red, ?_⟩,
        ?_, kept⟩
      · simp only [blackSibling, parent, sibling, color, siblingBlack, parent₁, parentRed, parent₂, rotated,
          parent₃, sibling₃, if_true, Option.bind_eq_bind, Option.bind_some]
        rfl
      · exact .red inNear blackNear rfl (.black inFar above)
      · refine Alike.plug up ?_
        have rotation := alike_rotate f.side f.addr (f.other.ptr T.nil) f.color .red .red .black f.pair pair
          near far t
        rw [← shape, Tree.make_flip, Tree.make_flip] at rotation
        exact rotation

/-- How the body finds out whether both children are black. -/
theorem Focus.child_colors {side : Side} {a : Ptr} {c : Color} {pair : K × V} {near far : Tree K V}
    (focus : Focus T up (.make side a c pair near far)) : ∃ l r first second,
      T.left a = some l ∧ T.color l = some first ∧ T.right a = some r ∧ T.color r = some second ∧
        (first = .black ∧ second = .black ↔ near.color = .black ∧ far.color = .black) := by
  have nearIs := child_near focus.cell focus.addr_real.1
  have farIs := child_far focus.cell focus.addr_real.1
  have atNear : Focus T (⟨side, a, c, pair, far⟩ :: up) near := Focus.up.mpr focus
  have nearColor := atNear.color_eq
  have farColor := (Focus.over.mp atNear).color_eq
  cases side with
  | left => exact ⟨_, _, _, _, nearIs, nearColor, farIs, farColor, Iff.rfl⟩
  | right => exact ⟨_, _, _, _, farIs, farColor, nearIs, nearColor, and_comm⟩

variable {side : Side} {p w : Ptr} {pc : Color} {pp wp : K × V} {inner outer : Tree K V}

/-- **The outer child is red in the end.**  Where the inner one was, it is above the sibling now. -/
theorem redOuter_spec
    (focus : Focus T (⟨side, p, pc, pp, .make side w .black wp inner outer⟩ :: up) t)
    (held : Held T (⟨side, p, pc, pp, .make side w .black wp inner outer⟩ :: up) t)
    (inInner : inner.RedBlack n) (inOuter : outer.RedBlack n)
    (some_red : ¬(inner.color = .black ∧ outer.color = .black)) :
    ∃ T' w' wp' inner' outer', redOuter side T (t.ptr T.nil) w = some (T', w') ∧
      Focus T' (⟨side, p, pc, pp, .make side w' .black wp' inner' outer'⟩ :: up) t ∧
      outer'.color = .red ∧ inner'.RedBlack n ∧ outer'.RedBlack n ∧ Kept T T' ∧
      Alike (.make side w .black wp inner outer) (.make side w' .black wp' inner' outer') := by
  have atSibling := Focus.over.mp focus
  have atInner : Focus T (⟨side, w, .black, wp, outer⟩ ::
      ⟨side.flip, p, pc, pp, t⟩ :: up) inner := Focus.up.mpr atSibling
  have outerIs : T.child side.flip w = some (outer.ptr T.nil) := atInner.sibling
  have outerColor : T.color (outer.ptr T.nil) = some outer.color := (Focus.over.mp atInner).color_eq
  cases isColor : outer.color with
  | red =>
      rw [isColor] at outerColor
      refine ⟨T, w, wp, inner, outer, ?_, focus, isColor, inInner, inOuter, .refl T, .refl _⟩
      simp only [redOuter, outerIs, outerColor, reduceCtorEq, if_false, Option.bind_eq_bind,
        Option.bind_some]
  | black =>
      rw [isColor] at outerColor
      have redInner : inner.color = .red := by
        cases isInner : inner.color with
        | red => rfl
        | black => exact absurd ⟨isInner, isColor⟩ some_red
      have innerIs : T.child side w = some (inner.ptr T.nil) := atInner.frame_child
      obtain ⟨yp, far, near, shape, inFar, inNear, blackFar, blackNear⟩ :=
        inInner.exists_red side.flip T.nil redInner
      -- the colors
      obtain ⟨T₁, innerBlack, focus₁, kept₁⟩ := atInner.blacken
      obtain ⟨T₂, siblingRed, focus₂, kept₂⟩ := focus₁.setFrameColor .red
      -- the rotation
      have shaped : Focus T₂ (⟨side.flip, p, pc, pp, t⟩ :: up) (.make side.flip.flip w .red wp
          (.make side.flip (inner.ptr T.nil) .black yp far near) outer) := by
        rw [Side.flip_flip, ← Tree.blacken_make (c := .red), ← shape]
        exact Focus.up.mp focus₂
      obtain ⟨T₃, rotated, focus₃, kept₃⟩ := shaped.rotate
      rw [Side.flip_flip, Tree.make_flip] at focus₃
      have back := focus₃.back
      have kept := (kept₁.trans kept₂).trans kept₃
      have ptr₃ : t.ptr T.nil = t.ptr T₃.nil := by rw [kept.nil]
      have parent₃ : T₃.parent (t.ptr T.nil) = some p := by
        rw [ptr₃]
        exact back.held_of_kept held kept rfl
      have sibling₃ : T₃.child side.flip p = some (inner.ptr T.nil) := by
        rw [back.sibling, Tree.ptr_make]
      refine ⟨T₃, inner.ptr T.nil, yp, near, .make side w .red wp far outer, ?_, back, Tree.color_make ..,
        inNear, Tree.redBlack_red.mpr ⟨inFar, inOuter, blackFar, isColor⟩, kept, ?_⟩
      · simp only [redOuter, outerIs, outerColor, innerIs, innerBlack, siblingRed, rotated, parent₃, sibling₃,
          if_true, Option.bind_eq_bind, Option.bind_some]
      · have rotation := alike_rotate side.flip w (inner.ptr T.nil) .black .red .red .black wp yp far near outer
        rw [← shape, Side.flip_flip, Tree.make_flip] at rotation
        exact rotation

/-- **The rotation that ends the loop.** -/
theorem settle_spec
    (focus : Focus T (⟨side, p, pc, pp, .make side w .black wp inner outer⟩ :: up) t)
    (held : Held T (⟨side, p, pc, pp, .make side w .black wp inner outer⟩ :: up) t) :
    ∃ T', settle side T (t.ptr T.nil) w = some (T', T'.root) ∧
      Focus T' up (.make side w pc wp (.make side p .black pp t inner) outer.blacken) ∧ Kept T T' ∧
      Alike (.make side p pc pp t (.make side w .black wp inner outer))
        (.make side w pc wp (.make side p .black pp t inner) outer.blacken) := by
  have parent : T.parent (t.ptr T.nil) = some p := held
  have color : T.color p = some pc := focus.frame_color
  -- the sibling's color
  obtain ⟨T₁, siblingColor, focus₁, kept₁⟩ := (Focus.over.mp focus).setColor pc
  have back₁ := focus₁.back
  have ptr₁ : t.ptr T.nil = t.ptr T₁.nil := by rw [kept₁.nil]
  have parent₁ : T₁.parent (t.ptr T.nil) = some p := by
    rw [ptr₁]
    exact back₁.held_of_kept held kept₁ rfl
  -- the parent's
  obtain ⟨T₂, parentBlack, focus₂, kept₂⟩ := back₁.setFrameColor .black
  have kept₁₂ := kept₁.trans kept₂
  have atInner : Focus T₂ (⟨side, w, pc, wp, outer⟩ :: ⟨side.flip, p, .black, pp, t⟩ :: up) inner :=
    Focus.up.mpr (Focus.over.mp focus₂)
  have outerIs : T₂.child side.flip w = some (outer.ptr T₂.nil) := atInner.sibling
  -- the outer child's
  obtain ⟨T₃, outerBlack, focus₃, kept₃⟩ := atInner.blackenSibling
  have back₃ : Focus T₃ (⟨side, p, .black, pp, .make side w pc wp inner outer.blacken⟩ :: up) t :=
    (Focus.up.mp focus₃).back
  have kept₁₃ := kept₁₂.trans kept₃
  have ptr₃ : t.ptr T.nil = t.ptr T₃.nil := by rw [kept₁₃.nil]
  have parent₃ : T₃.parent (t.ptr T.nil) = some p := by
    rw [ptr₃]
    exact back₃.held_of_kept held kept₁₃ rfl
  -- the rotation
  have shaped : Focus T₃ up (.make side.flip p .black pp (.make side w pc wp inner outer.blacken) t) := by
    rw [Tree.make_flip]
    exact Focus.up.mp back₃
  obtain ⟨T₄, rotated, focus₄, kept₄⟩ := shaped.rotate
  rw [Tree.make_flip] at focus₄
  refine ⟨T₄, ?_, focus₄, kept₁₃.trans kept₄, ?_⟩
  · simp only [settle, parent, color, siblingColor, parent₁, parentBlack, outerIs, outerBlack, parent₃,
      rotated, Option.bind_eq_bind, Option.bind_some]
  · have rotation := alike_rotate side p w pc .black .black pc pp wp inner outer t
    rw [Tree.make_flip, Tree.make_flip] at rotation
    exact rotation.trans (.make _ _ _ _ _ (.refl _) (alike_blacken outer))

/-- **Under a black sibling** the lack becomes the parent's, or it ends. -/
theorem rebalance_spec {f : Frame K V} (short : Short T (f :: up) t n) (blackT : t.color = .black)
    (black : f.other.color = .black) : ∃ T' ctx' t' n',
      rebalance f.side T (t.ptr T.nil) (f.other.ptr T.nil) = some (T', t'.ptr T'.nil) ∧ Short T' ctx' t' n' ∧
      (ctx' = up ∧ t'.color = f.color ∨ ctx' = []) ∧
      Becomes T (Ctx.plug (f :: up) t) T' (Ctx.plug ctx' t') := by
  obtain ⟨side, p, pc, pp, other⟩ := f
  obtain ⟨focus, held, heightT, -, above⟩ := short
  have inT := heightT blackT
  have inOther : other.RedBlack (n + 1) := by
    cases above with
    | black other above => exact other
    | red other blackOther blackUp above => exact other
  obtain ⟨wp, inner, outer, shape, inInner, inOuter⟩ := inOther.exists_black side T.nil black
  generalize other.ptr T.nil = w at shape
  subst shape
  have atSibling := Focus.over.mp focus
  obtain ⟨l, r, first, second, leftIs, leftColor, rightIs, rightColor, bothBlack⟩ := atSibling.child_colors
  by_cases both : inner.color = .black ∧ outer.color = .black
  · -- the sibling becomes red
    obtain ⟨T₁, siblingRed, focus₁, kept₁⟩ := atSibling.setColor .red
    have back₁ := focus₁.back
    have ptr₁ : t.ptr T.nil = t.ptr T₁.nil := by rw [kept₁.nil]
    have parent₁ : T₁.parent (t.ptr T.nil) = some p := by
      rw [ptr₁]
      exact back₁.held_of_kept held kept₁ rfl
    have atParent := Focus.up.mp back₁
    have redOther : (Tree.make side w .red wp inner outer).RedBlack n :=
      Tree.redBlack_red.mpr ⟨inInner, inOuter, both.1, both.2⟩
    have balanced : (Tree.make side p .black pp t (.make side w .red wp inner outer)).RedBlack (n + 1) :=
      Tree.redBlack_black.mpr ⟨n, rfl, inT, redOther⟩
    have taken : rebalance side T (t.ptr T.nil) w = some (T₁, p) := by
      simp only [rebalance, leftIs, leftColor, rightIs, rightColor, if_pos (bothBlack.mpr both), siblingRed,
        parent₁, Option.bind_eq_bind, Option.bind_some]
    have becomes : Becomes T (Ctx.plug up (.make side p pc pp t (.make side w .black wp inner outer))) T₁
        (Ctx.plug up (.make side p pc pp t (.make side w .red wp inner outer))) :=
      ⟨Alike.plug up (.make _ _ _ _ _ (.refl t) (.make _ _ _ _ _ (.refl inner) (.refl outer))), kept₁⟩
    have heldParent : Held T₁ up (.make side p pc pp t (.make side w .red wp inner outer)) :=
      atParent.parent_eq (Tree.make_ne_leaf _ _ _ _ _ _)
    have ptrParent : (Tree.make side p pc pp t (.make side w .red wp inner outer)).ptr T₁.nil = p :=
      Tree.ptr_make ..
    cases pc with
    | black =>
        refine ⟨T₁, up, _, n + 1, ptrParent.symm ▸ taken, ⟨atParent, heldParent, fun _ => balanced, ?_, ?_⟩,
          Or.inl ⟨rfl, Tree.color_make ..⟩, becomes⟩
        · intro isRed
          rw [Frame.plug, Tree.color_make] at isRed
          cases isRed
        · cases above with
          | black other above => exact above
    | red =>
        refine ⟨T₁, up, _, n, ptrParent.symm ▸ taken, ⟨atParent, heldParent, ?_, fun _ => ?_, ?_⟩,
          Or.inl ⟨rfl, Tree.color_make ..⟩, becomes⟩
        · intro isBlack
          rw [Frame.plug, Tree.color_make] at isBlack
          cases isBlack
        · rw [Frame.plug, Tree.blacken_make]
          exact balanced
        · cases above with
          | red other blackOther blackUp above => exact above
  · -- a rotation ends it
    obtain ⟨T₁, w', wp', inner', outer', outerRed, focus₁, redOuter', inInner', inOuter', kept₁, alike₁⟩ :=
      redOuter_spec focus held inInner inOuter both
    have held₁ := focus₁.held_of_kept held kept₁ rfl
    obtain ⟨T₂, settled, focus₂, kept₂, alike₂⟩ := settle_spec focus₁ held₁
    have ptr₁ : t.ptr T.nil = t.ptr T₁.nil := by rw [kept₁.nil]
    rw [← ptr₁] at settled
    have blackened := inOuter'.blacken
    rw [if_pos redOuter'] at blackened
    have nearBalanced : (Tree.make side p .black pp t inner').RedBlack (n + 1) :=
      Tree.redBlack_black.mpr ⟨n, rfl, inT, inInner'⟩
    obtain ⟨⟨m, redBlack⟩, blackRoot⟩ : (∃ m, (Ctx.plug up (.make side w' pc wp'
        (.make side p .black pp t inner') outer'.blacken)).RedBlack m) ∧
        (Ctx.plug up (.make side w' pc wp' (.make side p .black pp t inner') outer'.blacken)).color = .black := by
      cases above with
      | black other above =>
          exact above.plug (Tree.redBlack_black.mpr ⟨n + 1, rfl, nearBalanced, blackened⟩)
            (Or.inl (Tree.color_make ..))
      | red other blackOther blackUp above =>
          exact above.plug (Tree.redBlack_red.mpr ⟨nearBalanced, blackened, Tree.color_make ..,
            Tree.color_blacken _⟩) (Or.inr blackUp)
    have whole := Focus.whole.mp focus₂
    have root : T₂.root = _ := whole.root
    refine ⟨T₂, [], _, m, ?_, ⟨whole, whole.parent_eq ?_, fun _ => redBlack, ?_, .top⟩, Or.inr rfl, ?_,
      kept₁.trans kept₂⟩
    · have notBoth := mt bothBlack.mp both
      simp only [rebalance, leftIs, leftColor, rightIs, rightColor, if_neg notBoth, outerRed, settled,
        Option.bind_eq_bind, Option.bind_some]
      rw [root]
      rfl
    · exact Ctx.plug_ne_leaf up (Tree.make_ne_leaf _ _ _ _ _ _)
    · intro isRed
      rw [blackRoot] at isRed
      cases isRed
    · exact Alike.plug up ((Alike.make _ _ _ _ _ (.refl t) alike₁).trans alike₂)

end Steps

/-- **The loop of `rb_delete_fixup`.** -/
theorem deleteFixup_spec : ∀ (fuel : Nat) {T : Rbtree σ K V} {ctx : Ctx K V} {t : Tree K V} {n : Nat},
    Short T ctx t n → 0 < fuel → (t.color = .black → ctx.length < fuel) →
    ∃ T' whole, T.deleteFixup fuel (t.ptr T.nil) = some T' ∧ Mended T (Ctx.plug ctx t) T' whole
  | 0, _, _, _, _, _, spent, _ => absurd spent (Nat.lt_irrefl 0)
  | fuel + 1, T, ctx, t, n, short, _, room => by
      have color := short.focus.color_eq
      -- where the loop ends
      have stops : ¬(t.ptr T.nil ≠ T.root ∧ t.color = .black) →
          (∃ m, (Ctx.plug ctx t.blacken).RedBlack m) ∧ (Ctx.plug ctx t.blacken).color = .black →
          ∃ T' whole, T.deleteFixup (fuel + 1) (t.ptr T.nil) = some T' ∧
            Mended T (Ctx.plug ctx t) T' whole := by
        intro ends balanced
        obtain ⟨T', written, focus', kept⟩ := short.focus.blacken
        refine ⟨T', _, ?_, Focus.whole.mp focus', balanced.1, balanced.2,
          Alike.plug ctx (alike_blacken t), kept⟩
        simp only [deleteFixup, color, if_neg ends, written, Option.bind_eq_bind, Option.bind_some]
      cases isColor : t.color with
      | red =>
          refine stops (fun goesOn => ?_) (short.above.plug (short.red isColor) (Or.inl (Tree.color_blacken t)))
          rw [isColor] at goesOn
          cases goesOn.2
      | black =>
          have balanced := short.black isColor
          cases ctx with
          | nil =>
              have root : T.root = t.ptr T.nil := short.focus.root
              refine stops (fun goesOn => goesOn.1 root.symm) ?_
              rw [Tree.blacken_of_black isColor]
              exact ⟨⟨n, balanced⟩, isColor⟩
          | cons f up =>
              -- the body of the loop
              have notRoot := short.focus.ptr_ne_root
              have parent : T.parent (t.ptr T.nil) = some f.addr := short.held
              have siblingReal : f.other.ptr T.nil ≠ T.nil := by
                refine (Focus.over.mp short.focus).ptr_real ?_
                intro isLeaf
                have above := short.above
                obtain ⟨side, p, pc, pp, other⟩ := f
                subst isLeaf
                cases above with
                | black other above => cases other
                | red other blackOther blackUp above => cases other
              obtain ⟨first, left, sideIs⟩ := short.focus.side_eq (Or.inr siblingReal)
              obtain ⟨T₁, f₁, up₁, sibling, sameSide, blackOther, lower, short₁, becomes₁⟩ :=
                blackSibling_spec short
              have ptr₁ : t.ptr T.nil = t.ptr T₁.nil := by rw [becomes₁.kept.nil]
              obtain ⟨T₂, ctx₂, t₂, n₂, balancedOut, short₂, ends, becomes₂⟩ :=
                rebalance_spec short₁ isColor blackOther
              rw [← ptr₁, sameSide] at balancedOut
              have shorter := room isColor
              rw [List.length_cons] at shorter
              have room₂ : t₂.color = .black → ctx₂.length < fuel := by
                intro black₂
                rcases ends with ⟨rfl, sameColor⟩ | rfl
                · have := lower (sameColor.symm.trans black₂)
                  omega
                · exact Nat.zero_lt_of_lt (Nat.lt_of_succ_lt_succ shorter)
              obtain ⟨T', whole, rest, mended⟩ := deleteFixup_spec fuel short₂ (by omega) room₂
              refine ⟨T', whole, ?_, mended.focus, mended.redBlack, mended.black,
                (becomes₁.trans becomes₂).trans mended.becomes⟩
              rw [isColor] at color
              simp only [deleteFixup, color, notRoot, ne_eq, not_false_eq_true, and_self, if_true, parent, left,
                sideIs, deleteFixupCase_eq, sibling, balancedOut, rest, Option.bind_eq_bind, Option.bind_some]

end Rbtree

end KTableFS.Index
