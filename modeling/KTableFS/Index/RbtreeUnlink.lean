/-
# Index.RbtreeUnlink -- a node is taken out of the red-black index

`delete_node` puts the other child in the place of a node with one child.  A node with two
children is followed by the first node of its right subtree: that one is taken out of its own
place (`detach`), where it has at most one child, and put in the place of the node
(`succeed`).  Either way one place is spared, and what is missing there is one node of a known
color (`Spares`), which is what the fix-up is called for.
-/
import KTableFS.Index.RbtreeRemove

namespace KTableFS.Index

open KTableFS.Theory

set_option autoImplicit false

namespace Rbtree

variable {σ K V : Type}

/-- The fields of the index besides its root. -/
structure Same (T T' : Rbtree σ K V) : Prop where
  nil : T'.nil = T.nil
  size : T'.size = T.size
  nodeSlab : T'.nodeSlab = T.nodeSlab

theorem Same.trans {T T' T'' : Rbtree σ K V} (first : Same T T') (second : Same T' T'') : Same T T'' :=
  ⟨second.nil.trans first.nil, second.size.trans first.size, second.nodeSlab.trans first.nodeSlab⟩

theorem Kept.same {T T' : Rbtree σ K V} (kept : Kept T T') : Same T T' := ⟨kept.nil, kept.size, kept.nodeSlab⟩

section Transplant

variable {T : Rbtree σ K V} {ctx : Ctx K V}

theorem Focus.ptr_ne_null {t : Tree K V} (focus : Focus T ctx t) : t.ptr T.nil ≠ null := by
  by_cases isNil : t.ptr T.nil = T.nil
  · rw [isNil]
    exact focus.sentinel
  · exact (focus.real _ (List.mem_append_left _ (Tree.ptr_mem isNil))).1

theorem Focus.ptr_notCtx {t : Tree K V} (focus : Focus T ctx t) : t.ptr T.nil ∉ Ctx.addrs ctx := by
  intro member
  by_cases isNil : t.ptr T.nil = T.nil
  · exact (focus.real _ (List.mem_append_right _ member)).2 isNil
  · exact (List.nodup_append.mp focus.nodup).2.2 _ (Tree.ptr_mem isNil) _ member rfl

theorem color_adopted (a b p : Ptr) :
    ((T.write a { T.heap a with parent := p }).heap b).color = (T.heap b).color := by
  by_cases same : b = a
  · rw [same, write_self]
  · rw [write_other _ same]

/-- **`transplant`** of the only child to the place of a node. -/
theorem Focus.transplant {side : Side} {u : Ptr} {c : Color} {pair : K × V} {v : Tree K V}
    (focus : Focus T ctx (.make side u c pair .leaf v)) :
    ∃ T', T.transplant u (v.ptr T.nil) = some T' ∧ Focus T' ctx v ∧ Held T' ctx v ∧ Same T T' ∧
      ∀ b, b ∉ Ctx.addrs ctx → b ≠ v.ptr T.nil → T'.heap b = T.heap b := by
  obtain ⟨uNull, uNil⟩ := focus.addr_real
  have apart := focus.apart
  have cellU := focus.cell
  have atV : Focus T (⟨side, u, c, pair, v⟩ :: ctx) .leaf := Focus.up.mpr focus
  have vNull : v.ptr T.nil ≠ null := (Focus.over.mp atV).ptr_ne_null
  have inV := (Focus.over.mp atV).below
  have vCtx : v.ptr T.nil ∉ Ctx.addrs ctx := fun member =>
    (Focus.over.mp atV).ptr_notCtx (List.mem_cons_of_mem _ (List.mem_append_right _ member))
  -- the link to the node
  have root : T.root = Ctx.root u ctx := by rw [focus.root, Tree.ptr_make]
  have above := focus.above
  rw [Tree.ptr_make] at above
  have upIs : (T.heap u).parent = Ctx.parent T.nil ctx := by
    rw [cellU]
    cases side <;> rfl
  obtain ⟨T₁, relinked, root₁, above₁, kept₁, other₁⟩ := relink_spec (v.ptr T.nil) root above upIs uNull uNil
    apart.notCtx apart.nodupCtx fun b member => focus.real b (List.mem_append_right _ member)
  have parent₁ : T₁.parent u = some (Ctx.parent T.nil ctx) :=
    parent_cell ((other₁ u apart.notCtx).trans cellU) uNull
  -- the link to its parent
  let T₂ := T₁.write (v.ptr T.nil) { T₁.heap (v.ptr T.nil) with parent := Ctx.parent T.nil ctx }
  have write₂ : T₁.setParent (v.ptr T.nil) (Ctx.parent T.nil ctx) = some T₂ := assign_eq vNull _
  have other₂ : ∀ b, b ≠ v.ptr T.nil → T₂.heap b = T₁.heap b := fun b other => write_other _ other
  have nil₂ : T₂.nil = T.nil := kept₁.nil
  have same₁ : ∀ b ∈ v.addrs, T₁.heap b = T.heap b := fun b member => other₁ b (apart.farCtx b member)
  refine ⟨T₂, ?_, ⟨?_, ?_, ?_, ?_, ?_, ?_, ?_⟩, ?_, ⟨nil₂, kept₁.size, kept₁.nodeSlab⟩, fun b notCtx other => ?_⟩
  · simp only [Rbtree.transplant, relinked, if_neg vNull, parent₁, write₂, Option.bind_eq_bind,
      Option.bind_some]
  · rw [nil₂]
    exact root₁
  · rw [nil₂]
    refine Ctx.In.congr above₁ fun b member => other₂ b ?_
    rintro rfl
    exact vCtx member
  · rw [nil₂]
    refine (inV.congr same₁).adopt apart.nodupFar (fun b _ same => ?_) fun b _ other => other₂ b other
    rw [same]
    exact write_self _
  · exact List.nodup_append.mpr ⟨apart.nodupFar, apart.nodupCtx, fun b inFar c inCtx same =>
      apart.farCtx b inFar (same ▸ inCtx)⟩
  · rw [nil₂]
    intro b member
    rcases List.mem_append.mp member with inFar | inCtx
    · exact focus.real b (List.mem_append_left _ ((Tree.mem_addrs_make ..).mpr (Or.inr (Or.inr inFar))))
    · exact focus.real b (List.mem_append_right _ inCtx)
  · rw [nil₂]
    exact focus.sentinel
  · rw [nil₂]
    exact (color_adopted ..).trans ((congrArg RbtreeNode.color kept₁.sentinel).trans focus.black)
  · unfold Held
    rw [nil₂, Rbtree.parent_eq vNull]
    exact congrArg some (congrArg RbtreeNode.parent (write_self _))
  · rw [other₂ b other, other₁ b notCtx]

end Transplant

/-! ## A node with two children -/

/-- The successor `y` is taken out of its place. -/
def detach (T : Rbtree σ K V) (z y x : Ptr) : Option (Rbtree σ K V) := do
  let up ← T.parent y
  if up = z then T.setParent x y
  else do
    let T ← T.transplant y (← T.right y)
    let T ← T.setRight y (← T.right z)
    T.setParent (← T.right y) y

/-- The successor takes the place of `z`. -/
def succeed (T : Rbtree σ K V) (z y : Ptr) : Option (Rbtree σ K V) := do
  let T ← T.transplant z y
  let T ← T.setLeft y (← T.left z)
  let T ← T.setParent (← T.left y) y
  T.setColor y (← T.color z)

/-- `y` is off the tree, with the tree that is to be its right subtree. -/
structure Detached (T : Rbtree σ K V) (ctx : Ctx K V) (z y : Ptr) (c : Color) (pair : K × V)
    (l r : Tree K V) : Prop where
  root : T.root = Ctx.root z ctx
  above : Ctx.In T.nil T.heap z ctx
  parentZ : (T.heap z).parent = Ctx.parent T.nil ctx
  leftZ : (T.heap z).left = l.ptr T.nil
  colorZ : (T.heap z).color = c
  inLeft : l.In T.nil T.heap z
  inRight : r.In T.nil T.heap y
  rightY : (T.heap y).right = r.ptr T.nil
  keyY : (T.heap y).key = pair.1
  valueY : (T.heap y).value = pair.2
  nodup : (z :: y :: (l.addrs ++ r.addrs) ++ Ctx.addrs ctx).Nodup
  real : ∀ a ∈ z :: y :: (l.addrs ++ r.addrs) ++ Ctx.addrs ctx, a ≠ null ∧ a ≠ T.nil
  sentinel : T.nil ≠ null
  black : (T.heap T.nil).color = .black

section Successor

variable {T : Rbtree σ K V} {ctx : Ctx K V} {z y : Ptr} {c cy : Color} {pair py : K × V} {l r yr : Tree K V}

/-- **The successor in the place of the node.** -/
theorem succeed_spec (detached : Detached T ctx z y c py l r) (real : l ≠ .leaf) :
    ∃ T', succeed T z y = some T' ∧ Focus T' ctx (.node y c l py r) ∧ Kept T T' := by
  obtain ⟨root, above, parentZ, leftZ, colorZ, inLeft, inRight, rightY, keyY, valueY, nodup, reals, sentinel,
    black⟩ := detached
  -- what the addresses say
  have apartZ : Apart z [y] (l.addrs ++ r.addrs) (Ctx.addrs ctx) := apart_iff.mp nodup
  have apartY : Apart y l.addrs r.addrs (Ctx.addrs ctx) := apart_iff.mp (List.nodup_cons.mp nodup).2
  obtain ⟨zNull, zNil⟩ := reals z (List.mem_cons_self ..)
  have realY : ∀ a ∈ y :: (l.addrs ++ r.addrs) ++ Ctx.addrs ctx, a ≠ null ∧ a ≠ T.nil := fun a member =>
    reals a (List.mem_cons_of_mem _ member)
  obtain ⟨yNull, yNil⟩ := realY y (List.mem_cons_self ..)
  have zy : z ≠ y := fun same => apartZ.notNear (same ▸ List.mem_cons_self ..)
  have leftIn : l.ptr T.nil ∈ l.addrs := by
    cases l with
    | leaf => exact absurd rfl real
    | node a cl ll lp lr => exact List.mem_cons_self ..
  obtain ⟨lNull, lNil⟩ := realY (l.ptr T.nil) (by simp [leftIn])
  have ly : l.ptr T.nil ≠ y := fun same => apartY.notNear (same ▸ leftIn)
  have lz : l.ptr T.nil ≠ z := fun same => apartZ.notFar (same ▸ List.mem_append_left _ leftIn)
  -- the link to `y`
  generalize isParent : Ctx.parent T.nil ctx = up at parentZ
  let node := T.heap y
  obtain ⟨T₁, relinked, root₁, above₁, kept₁, other₁⟩ := relink_spec y root above (parentZ.trans isParent.symm)
    zNull zNil apartZ.notCtx apartZ.nodupCtx fun b member => realY b (List.mem_append_right _ member)
  have here₁ : T₁.heap y = cell .left node.parent node.left (r.ptr T.nil) py node.color := by
    rw [other₁ y apartY.notCtx, cell, ← rightY, ← keyY, ← valueY]
  have parent₁ : T₁.parent z = some up := by
    rw [Rbtree.parent_eq zNull, other₁ z apartZ.notCtx, parentZ]
  let T₂ := T₁.write y (cell .left up node.left (r.ptr T.nil) py node.color)
  have write₂ : T₁.setParent y up = some T₂ := setParent_cell here₁ yNull up
  -- the left subtree
  have sameZ₂ : T₂.heap z = T.heap z := (write_other _ zy).trans (other₁ z apartZ.notCtx)
  have left₂ : T₂.left z = some (l.ptr T.nil) := by rw [left_eq zNull, sameZ₂, leftZ]
  let T₃ := T₂.write y (cell .left up (l.ptr T.nil) (r.ptr T.nil) py node.color)
  have write₃ : T₂.setLeft y (l.ptr T.nil) = some T₃ := setChild_cell (write_self _) yNull _
  have left₃ : T₃.left y = some (l.ptr T.nil) := child_near (write_self _) yNull
  let T₄ := T₃.write (l.ptr T.nil) { T₃.heap (l.ptr T.nil) with parent := y }
  have write₄ : T₃.setParent (l.ptr T.nil) y = some T₄ := assign_eq lNull _
  -- the color
  have sameZ₄ : T₄.heap z = T.heap z :=
    (write_other _ (Ne.symm lz)).trans ((write_other _ zy).trans sameZ₂)
  have color₄ : T₄.color z = some c := by rw [Rbtree.color_eq zNull, sameZ₄, colorZ]
  let T₅ := T₄.write y (cell .left up (l.ptr T.nil) (r.ptr T.nil) py c)
  have write₅ : T₄.setColor y c = some T₅ := by
    rw [Rbtree.setColor, assign_eq yNull, write_other _ (Ne.symm ly), write_self]
    rfl
  have nil₅ : T₅.nil = T.nil := kept₁.nil
  have other₅ : ∀ b, b ≠ y → b ≠ l.ptr T.nil → T₅.heap b = T₁.heap b := by
    intro b notY notL
    rw [write_other _ notY, write_other _ notL, write_other _ notY, write_other _ notY]
  have kept₅ : Kept T T₅ := by
    have yNil₁ : y ≠ T₁.nil := kept₁.nil.symm ▸ yNil
    have lNil₁ : l.ptr T.nil ≠ T₁.nil := kept₁.nil.symm ▸ lNil
    exact (((kept₁.trans (write_kept _ yNil₁)).trans (write_kept _ yNil₁)).trans (write_kept _ lNil₁)).trans
      (write_kept _ yNil₁)
  refine ⟨T₅, ?_, ⟨?_, ?_, ⟨?_, ?_, ?_⟩, (List.nodup_cons.mp nodup).2, ?_, ?_, ?_⟩, kept₅⟩
  · simp only [succeed, Rbtree.transplant, relinked, if_neg yNull, parent₁, write₂, left₂, write₃, left₃,
      write₄, color₄, write₅, Option.bind_eq_bind, Option.bind_some]
  · exact root₁
  · rw [nil₅]
    refine Ctx.In.congr above₁ fun b member => other₅ b ?_ ?_
    · rintro rfl
      exact apartY.notCtx member
    · rintro rfl
      exact apartY.nearCtx _ leftIn member
  · rw [nil₅, isParent]
    exact write_self _
  · rw [nil₅]
    refine inLeft.adopt apartY.nodupNear (fun b member same => ?_) fun b member other => ?_
    · have untouched : T₃.heap b = T.heap b := by
        have notY : b ≠ y := same ▸ ly
        rw [write_other _ notY, write_other _ notY, other₁ b (apartY.nearCtx b member)]
      rw [write_other _ (same ▸ ly), same, write_self, ← same, untouched]
    · have notY : b ≠ y := fun isY => apartY.notNear (isY ▸ member)
      rw [other₅ b notY other, other₁ b (apartY.nearCtx b member)]
  · rw [nil₅]
    refine inRight.congr fun b member => ?_
    have notY : b ≠ y := fun isY => apartY.notFar (isY ▸ member)
    have notL : b ≠ l.ptr T.nil := fun isL => apartY.nearFar _ leftIn (isL ▸ member)
    rw [other₅ b notY notL, other₁ b (apartY.farCtx b member)]
  · rw [nil₅]
    exact realY
  · rw [nil₅]
    exact sentinel
  · rw [nil₅, kept₅.sentinel]
    exact black

/-- The successor is the right child of the node. -/
theorem detach_near (focus : Focus T (⟨.right, z, c, pair, l⟩ :: ctx) (.node y cy .leaf py yr)) :
    ∃ T', detach T z y (yr.ptr T.nil) = some T' ∧ Detached T' ctx z y c py l yr ∧
      Held T' (⟨.right, y, c, py, l⟩ :: ctx) yr ∧ Same T T' := by
  have atX : Focus T (⟨.right, y, cy, py, .leaf⟩ :: ⟨.right, z, c, pair, l⟩ :: ctx) yr := Focus.up.mpr focus
  have atZ : Focus T ctx (.make .right z c pair (.node y cy .leaf py yr) l) := Focus.up.mp focus
  have xNull := atX.ptr_ne_null
  have xNot : ∀ b ∈ z :: y :: l.addrs ++ Ctx.addrs ctx, b ≠ yr.ptr T.nil := by
    rintro b member rfl
    refine atX.ptr_notCtx ?_
    simp only [List.cons_append, List.mem_cons, List.mem_append, Ctx.addrs, Tree.addrs] at member ⊢
    tauto
  let T' := T.write (yr.ptr T.nil) { T.heap (yr.ptr T.nil) with parent := y }
  have written : T.setParent (yr.ptr T.nil) y = some T' := assign_eq xNull _
  have elsewhere : ∀ b ∈ z :: y :: l.addrs ++ Ctx.addrs ctx, T'.heap b = T.heap b := fun b member =>
    write_other _ (xNot b member)
  have sameZ : T'.heap z = T.heap z := elsewhere z (by simp)
  have sameY : T'.heap y = T.heap y := elsewhere y (by simp)
  have cellY := focus.below.1
  have perm : (z :: y :: (l.addrs ++ yr.addrs) ++ Ctx.addrs ctx).Perm
      (yr.addrs ++ Ctx.addrs (⟨.right, y, cy, py, .leaf⟩ :: ⟨.right, z, c, pair, l⟩ :: ctx)) := by
    refine List.perm_iff_count.mpr fun b => ?_
    simp only [List.count_cons, List.count_append, Ctx.addrs, Tree.addrs, List.count_nil]
    omega
  refine ⟨T', ?_, ⟨?_, ?_, ?_, ?_, ?_, ?_, ?_, ?_, ?_, ?_, perm.nodup_iff.mpr atX.nodup,
    fun a member => atX.real a (perm.mem_iff.mp member), focus.sentinel, ?_⟩, ?_, rfl, rfl, rfl⟩
  · have up : T.parent y = some z := focus.parent_eq (by simp)
    simp only [detach, up, if_true, written, Option.bind_eq_bind, Option.bind_some]
  · exact focus.root
  · have above := atZ.above
    rw [Tree.ptr_make] at above
    exact Ctx.In.congr above fun b member => elsewhere b (by simp [member])
  · rw [sameZ, atZ.cell]
    rfl
  · rw [sameZ, atZ.cell]
    rfl
  · rw [sameZ, atZ.cell]
    rfl
  · exact focus.above.2.1.congr fun b member => elsewhere b (by simp [member])
  · refine atX.below.adopt (List.nodup_append.mp atX.nodup).1 (fun b _ same => ?_) fun b _ other =>
      write_other _ other
    rw [same]
    exact write_self _
  · rw [sameY, cellY]
    rfl
  · rw [sameY, cellY]
    rfl
  · rw [sameY, cellY]
    rfl
  · exact (color_adopted ..).trans focus.black
  · unfold Held
    rw [Rbtree.parent_eq (show yr.ptr T'.nil ≠ null from xNull)]
    exact congrArg some (congrArg RbtreeNode.parent (write_self _))

/-- The successor is further down. -/
theorem detach_far {f : Frame K V} {inner : Ctx K V}
    (focus : Focus T (f :: (inner ++ ⟨.right, z, c, pair, l⟩ :: ctx)) (.node y cy .leaf py yr)) :
    ∃ T₀ T', detach T z y (yr.ptr T.nil) = some T' ∧ Detached T' ctx z y c py l (Ctx.plug (f :: inner) yr) ∧
      Held T₀ (f :: (inner ++ ⟨.right, y, c, py, l⟩ :: ctx)) yr ∧ Kept T₀ T' ∧ Same T T₀ := by
  have made : Focus T (f :: (inner ++ ⟨.right, z, c, pair, l⟩ :: ctx)) (.make .left y cy py .leaf yr) := focus
  obtain ⟨yNull, yNil⟩ := made.addr_real
  have rightIs : T.right y = some (yr.ptr T.nil) := child_far made.cell yNull
  have up : T.parent y = some f.addr := focus.parent_eq nofun
  have notZ : f.addr ≠ z := by
    have nodup := (List.nodup_append.mp focus.nodup).2.1
    rw [Ctx.addrs, List.nodup_cons, Ctx.addrs_append] at nodup
    rintro rfl
    exact nodup.1 (by simp [Ctx.addrs])
  -- the successor leaves its place
  obtain ⟨T₀, moved, focus₀, held₀, same₀, other₀⟩ := made.transplant
  have below₀ : Focus T₀ (⟨.right, z, c, pair, l⟩ :: ctx) (Ctx.plug (f :: inner) yr) := by
    rw [← Focus.plug]
    exact focus₀
  have atZ : Focus T₀ ctx (.make .right z c pair (Ctx.plug (f :: inner) yr) l) := Focus.up.mp below₀
  have real : Ctx.plug (f :: inner) yr ≠ .leaf :=
    Ctx.plug_ne_leaf inner (Tree.make_ne_leaf _ _ _ _ _ _)
  generalize isRight : Ctx.plug (f :: inner) yr = r at below₀ atZ real
  have perm : (z :: y :: (l.addrs ++ r.addrs) ++ Ctx.addrs ctx).Perm
      ((Tree.node y cy .leaf py yr).addrs ++ Ctx.addrs (f :: (inner ++ ⟨.right, z, c, pair, l⟩ :: ctx))) := by
    refine List.perm_iff_count.mpr fun b => ?_
    rw [← isRight]
    simp only [List.count_cons, List.count_append, Ctx.addrs, Ctx.addrs_append, Tree.addrs, List.count_nil,
      (Ctx.addrs_plug_perm ..).count_eq]
    omega
  have nodup := perm.nodup_iff.mpr focus.nodup
  have apartZ : Apart z [y] (l.addrs ++ r.addrs) (Ctx.addrs ctx) := apart_iff.mp nodup
  have apartY : Apart y l.addrs r.addrs (Ctx.addrs ctx) := apart_iff.mp (List.nodup_cons.mp nodup).2
  have zy : z ≠ y := fun same => apartZ.notNear (same ▸ List.mem_cons_self ..)
  have rightReal := below₀.ptr_real real
  have rightNull := below₀.ptr_ne_null
  have rightIn : r.ptr T₀.nil ∈ r.addrs := Tree.ptr_mem rightReal
  have zr : z ≠ r.ptr T₀.nil := fun same => apartZ.notFar (List.mem_append_right _ (same ▸ rightIn))
  have yr' : y ≠ r.ptr T₀.nil := fun same => apartY.notFar (same ▸ rightIn)
  have rightZ : T₀.right z = some (r.ptr T₀.nil) := child_near atZ.cell atZ.addr_real.1
  -- it gets the right subtree of the node
  let T₁ := T₀.write y { T₀.heap y with right := r.ptr T₀.nil }
  have write₁ : T₀.setRight y (r.ptr T₀.nil) = some T₁ := by
    rw [setRight, setChild, assign_eq yNull]
  have right₁ : T₁.right y = some (r.ptr T₀.nil) := by rw [right_eq yNull, write_self]
  let T' := T₁.write (r.ptr T₀.nil) { T₁.heap (r.ptr T₀.nil) with parent := y }
  have write₂ : T₁.setParent (r.ptr T₀.nil) y = some T' := assign_eq rightNull _
  have elsewhere : ∀ b, b ≠ y → b ≠ r.ptr T₀.nil → T'.heap b = T₀.heap b := fun b notY notR =>
    (write_other _ notR).trans (write_other _ notY)
  have yNil₀ : y ≠ T₀.nil := same₀.nil.symm ▸ yNil
  have kept : Kept T₀ T' := (write_kept _ yNil₀).trans (write_kept _ rightReal)
  have sameY : T₀.heap y = T.heap y := by
    have notIn : y ∉ Ctx.addrs (f :: (inner ++ ⟨.right, z, c, pair, l⟩ :: ctx)) ∧ y ∉ yr.addrs :=
      ⟨made.apart.notCtx, made.apart.notFar⟩
    refine other₀ y notIn.1 fun same => ?_
    have isReal : yr.ptr T.nil ≠ T.nil := same ▸ yNil
    exact notIn.2 (same ▸ Tree.ptr_mem isReal)
  have cellY : T'.heap y = { T.heap y with right := r.ptr T₀.nil } := by
    rw [write_other _ yr', write_self, sameY]
  have sameZ : T'.heap z = T₀.heap z := elsewhere z zy zr
  have nil' : T'.nil = T.nil := same₀.nil
  refine ⟨T₀, T', ?_, ⟨?_, ?_, ?_, ?_, ?_, ?_, ?_, ?_, ?_, ?_, nodup, ?_, ?_, ?_⟩, ?_, kept, same₀⟩
  · simp only [detach, up, if_neg notZ, rightIs, moved, rightZ, write₁, right₁, write₂, Option.bind_eq_bind,
      Option.bind_some]
  · exact atZ.root.trans (congrArg (fun p => Ctx.root p ctx) (Tree.ptr_make ..))
  · have above := atZ.above
    rw [Tree.ptr_make] at above
    refine Ctx.In.congr above fun b member => elsewhere b ?_ ?_
    · rintro rfl
      exact apartY.notCtx member
    · rintro rfl
      exact apartY.farCtx _ rightIn member
  · rw [sameZ, atZ.cell]
    rfl
  · rw [sameZ, atZ.cell]
    rfl
  · rw [sameZ, atZ.cell]
    rfl
  · refine below₀.above.2.1.congr fun b member => elsewhere b ?_ ?_
    · rintro rfl
      exact apartY.notNear member
    · rintro rfl
      exact apartY.nearFar _ member rightIn
  · have notY : ∀ b ∈ r.addrs, b ≠ y := fun b member isY => apartY.notFar (isY ▸ member)
    refine below₀.below.adopt apartY.nodupFar (fun b member same => ?_) fun b member other =>
      elsewhere b (notY b member) other
    rw [same, write_self, write_other _ (Ne.symm yr')]
  · rw [cellY]
    rfl
  · rw [cellY, made.cell]
    rfl
  · rw [cellY, made.cell]
    rfl
  · rw [nil']
    exact fun a member => focus.real a (perm.mem_iff.mp member)
  · rw [nil']
    exact focus.sentinel
  · rw [kept.nil, kept.sentinel]
    exact focus₀.black
  · exact held₀

end Successor

/-- **`find_min_node`** -/
theorem findMin_spec {T : Rbtree σ K V} {t : Tree K V} : ∀ {fuel : Nat} {ctx : Ctx K V}, Focus T ctx t →
    t ≠ .leaf → t.pairs.length ≤ fuel → ∃ inner y cy py yr, T.findMinNode fuel (t.ptr T.nil) = some y ∧
      t = Ctx.plug inner (.node y cy .leaf py yr) ∧ t.pairs = py :: (Ctx.plug inner yr).pairs := by
  induction t with
  | leaf => exact fun _ real => absurd rfl real
  | node a c l pair r ihL ihR =>
      intro fuel ctx focus _ room
      rw [Tree.pairs, List.length_append, List.length_cons] at room
      obtain ⟨fuel, rfl⟩ := Nat.exists_eq_succ_of_ne_zero (show fuel ≠ 0 by omega)
      obtain ⟨-, -, -, leftIs, -⟩ := focus.reads
      have atL : Focus T (⟨.left, a, c, pair, r⟩ :: ctx) l := Focus.up.mpr focus
      by_cases isLeaf : l = .leaf
      · subst isLeaf
        refine ⟨[], a, c, pair, r, ?_, rfl, rfl⟩
        simp only [Tree.ptr_node, findMinNode, leftIs, Tree.ptr_leaf, if_true, Option.bind_eq_bind,
          Option.bind_some]
      · have roomL : l.pairs.length ≤ fuel := by omega
        obtain ⟨inner, y, cy, py, yr, found, shape, pairs⟩ := ihL atL isLeaf roomL
        refine ⟨inner ++ [⟨.left, a, c, pair, r⟩], y, cy, py, yr, ?_, ?_, ?_⟩
        · simp only [Tree.ptr_node, findMinNode, leftIs, if_neg (atL.ptr_real isLeaf), found,
            Option.bind_eq_bind, Option.bind_some]
        · rw [Ctx.plug_append, ← shape]
          rfl
        · rw [Ctx.plug_append, Tree.pairs, pairs]
          rfl

/-! ## What is missing in the spared place -/

/-- Another node in the place of one of the same color. -/
theorem Ctx.RedBlack.renamed {inner ctx : Ctx K V} {side : Side} {z y : Ptr} {c : Color} {pair py : K × V}
    {l : Tree K V} : ∀ {n : Nat}, Ctx.RedBlack (inner ++ ⟨side, z, c, pair, l⟩ :: ctx) n →
      Ctx.RedBlack (inner ++ ⟨side, y, c, py, l⟩ :: ctx) n := by
  induction inner with
  | nil =>
      intro n above
      cases above with
      | black other above => exact .black other above
      | red other blackOther blackUp above => exact .red other blackOther blackUp above
  | cons f inner ih =>
      intro n above
      have sameColor : Ctx.color (inner ++ ⟨side, y, c, py, l⟩ :: ctx) =
          Ctx.color (inner ++ ⟨side, z, c, pair, l⟩ :: ctx) := by
        cases inner <;> rfl
      cases above with
      | black other above => exact .black other (ih above)
      | red other blackOther blackUp above =>
          exact .red other blackOther (sameColor.trans blackUp) (ih above)

theorem Ctx.Takes.renamed {inner ctx : Ctx K V} {side : Side} {z y : Ptr} {c color : Color} {pair py : K × V}
    {l : Tree K V} (takes : Ctx.Takes (inner ++ ⟨side, z, c, pair, l⟩ :: ctx) color) :
    Ctx.Takes (inner ++ ⟨side, y, c, py, l⟩ :: ctx) color := by
  cases inner <;> exact takes

/-- What a node of this color has left behind: a balanced tree, or one that is short of a node. -/
structure Spares (ctx : Ctx K V) (t : Tree K V) (color : Color) : Prop where
  red : color = .red → (∃ m, (Ctx.plug ctx t).RedBlack m) ∧ (Ctx.plug ctx t).color = .black
  black : color = .black → ∃ n, (t.color = .black → t.RedBlack n) ∧
    (t.color = .red → t.blacken.RedBlack (n + 1)) ∧ Ctx.RedBlack ctx (n + 1)

/-- A node with one child is spared. -/
theorem spares {ctx : Ctx K V} {side : Side} {a : Ptr} {color : Color} {pair : K × V} {t : Tree K V} {n : Nat}
    (here : (Tree.make side a color pair .leaf t).RedBlack n) (above : Ctx.RedBlack ctx n) :
    Spares ctx t color := by
  constructor
  · rintro rfl
    obtain ⟨-, inT, -, blackT⟩ := Tree.redBlack_red.mp here
    exact above.plug inT (Or.inl blackT)
  · rintro rfl
    obtain ⟨m, rfl, -, inT⟩ := Tree.redBlack_black.mp here
    refine ⟨m, fun _ => inT, fun isRed => ?_, above⟩
    have blackened := inT.blacken
    rwa [if_pos isRed] at blackened

/-! ## `delete_node` -/

theorem unlink_successor {T : Rbtree σ K V} {z y x lp rp : Ptr} {c cy : Color} (color : T.color z = some c)
    (left : T.left z = some lp) (right : T.right z = some rp) (leftReal : lp ≠ T.nil) (rightReal : rp ≠ T.nil)
    (found : T.findMinNode T.size rp = some y) (colorY : T.color y = some cy) (rightY : T.right y = some x) :
    T.unlink z = (detach T z y x).bind fun T₁ => (succeed T₁ z y).bind fun T₂ => some (T₂, x, cy) := by
  simp only [unlink, detach, succeed, color, left, right, if_neg leftReal, if_neg rightReal, found, colorY,
    rightY, Option.bind_eq_bind, bind_ite, Option.bind_assoc, Option.bind_some]

/-- `T'` is `T` without the node `z`: the tree `t` has moved up, and the place of a node of this
color is spared. -/
structure Unlinked (T : Rbtree σ K V) (z : Ptr) (whole : Tree K V) (pairs : List (K × V)) (T' : Rbtree σ K V)
    (ctx : Ctx K V) (t : Tree K V) (color : Color) : Prop where
  focus : Focus T' ctx t
  held : Held T' ctx t
  same : Same T T'
  spares : Spares ctx t color
  pairs : (Ctx.plug ctx t).pairs = pairs
  addrs : (z :: (Ctx.plug ctx t).addrs).Perm whole.addrs

section Unlink

variable {T : Rbtree σ K V} {ctx : Ctx K V} {z : Ptr} {c : Color} {pair : K × V} {l r : Tree K V}

/-- A node with one child. -/
theorem unlink_single {side : Side} {t : Tree K V}
    (focus : Focus T ctx (.make side z c pair .leaf t)) {m : Nat}
    (redBlack : (Ctx.plug ctx (.make side z c pair .leaf t)).RedBlack m)
    (black : (Ctx.plug ctx (.make side z c pair .leaf t)).color = .black) :
    ∃ T', T.unlink z = some (T', t.ptr T'.nil, c) ∧ Unlinked T z (Ctx.plug ctx (.make side z c pair .leaf t))
      (Ctx.low ctx ++ t.pairs ++ Ctx.high ctx) T' ctx t c := by
  obtain ⟨T', moved, focus', held, same, -⟩ := focus.transplant
  obtain ⟨n, here, above, -⟩ := redBlack_plug redBlack black
  have color : T.color z = some c := color_cell focus.cell focus.addr_real.1
  have nearIs := child_near focus.cell focus.addr_real.1
  have farIs := child_far focus.cell focus.addr_real.1
  refine ⟨T', ?_, focus', held, same, spares here above, ?_, ?_⟩
  · rw [same.nil]
    cases side with
    | left =>
        have left : T.left z = some T.nil := nearIs
        have right : T.right z = some (t.ptr T.nil) := farIs
        simp only [unlink, color, left, right, if_true, moved, Option.bind_eq_bind, Option.bind_some]
    | right =>
        have left : T.left z = some (t.ptr T.nil) := farIs
        have right : T.right z = some T.nil := nearIs
        by_cases isNil : t.ptr T.nil = T.nil
        · rw [isNil] at left moved
          simp only [unlink, color, left, right, if_true, moved, isNil, Option.bind_eq_bind, Option.bind_some]
        · simp only [unlink, color, left, right, if_neg isNil, if_true, moved, Option.bind_eq_bind,
            Option.bind_some]
  · rw [Ctx.pairs_plug, List.append_assoc]
  · refine List.perm_iff_count.mpr fun b => ?_
    simp only [List.count_cons, List.count_append, (Ctx.addrs_plug_perm ..).count_eq,
      (Tree.addrs_make_perm ..).count_eq, Tree.addrs, List.count_nil]
    omega

/-- A node with two children. -/
theorem unlink_double (focus : Focus T ctx (.node z c l pair r)) (leftReal : l ≠ .leaf) (rightReal : r ≠ .leaf)
    (room : r.pairs.length ≤ T.size) {m : Nat} (redBlack : (Ctx.plug ctx (.node z c l pair r)).RedBlack m)
    (black : (Ctx.plug ctx (.node z c l pair r)).color = .black) :
    ∃ T' ctx' t color, T.unlink z = some (T', t.ptr T'.nil, color) ∧
      Unlinked T z (Ctx.plug ctx (.node z c l pair r))
        (Ctx.low ctx ++ (l.pairs ++ r.pairs) ++ Ctx.high ctx) T' ctx' t color := by
  have atR : Focus T (⟨.right, z, c, pair, l⟩ :: ctx) r := Focus.up.mpr focus
  have atL : Focus T (⟨.left, z, c, pair, r⟩ :: ctx) l := Focus.up.mpr focus
  obtain ⟨inner, y, cy, py, yr, found, shape, pairs⟩ := findMin_spec atR rightReal room
  have atY : Focus T (inner ++ ⟨.right, z, c, pair, l⟩ :: ctx) (.node y cy .leaf py yr) := by
    rw [Focus.plug, ← shape]
    exact atR
  have plugged : Ctx.plug (inner ++ ⟨.right, z, c, pair, l⟩ :: ctx) (.node y cy .leaf py yr) =
      Ctx.plug ctx (.node z c l pair r) := by
    rw [Ctx.plug_append, ← shape]
    rfl
  rw [← plugged] at redBlack black
  obtain ⟨n, here, above, -⟩ := redBlack_plug redBlack black
  -- the two steps
  obtain ⟨-, -, -, -, rightY⟩ := atY.reads
  obtain ⟨T₀, T₁, detached, off, held, kept, same⟩ : ∃ T₀ T₁, detach T z y (yr.ptr T.nil) = some T₁ ∧
      Detached T₁ ctx z y c py l (Ctx.plug inner yr) ∧
      Held T₀ (inner ++ ⟨.right, y, c, py, l⟩ :: ctx) yr ∧ Kept T₀ T₁ ∧ Same T T₀ := by
    cases inner with
    | nil =>
        obtain ⟨T₁, detached, off, held, same⟩ := detach_near atY
        exact ⟨T₁, T₁, detached, off, held, .refl T₁, same⟩
    | cons f inner => exact detach_far atY
  obtain ⟨T', succeeded, focus', kept'⟩ := succeed_spec off leftReal
  have below : Focus T' (inner ++ ⟨.right, y, c, py, l⟩ :: ctx) yr := Focus.plug.mpr (Focus.up.mpr focus')
  have keptAll := kept.trans kept'
  have sameAll := same.trans keptAll.same
  have colorY : T.color y = some cy := atY.color_eq
  refine ⟨T', _, yr, cy, ?_, below, below.held_of_kept held keptAll rfl, sameAll,
    ?_, ?_, ?_⟩
  · obtain ⟨-, -, -, leftIs, rightIs⟩ := focus.reads
    have colorZ : T.color z = some c := focus.color_eq
    rw [unlink_successor colorZ leftIs rightIs (atL.ptr_real leftReal) (atR.ptr_real rightReal) found
      colorY rightY, detached, Option.bind_some, succeeded, Option.bind_some, sameAll.nil]
  · have made : (Tree.make .left y cy py .leaf yr).RedBlack n := here
    exact spares made above.renamed
  · rw [Ctx.plug_append, pairs]
    have whole := Ctx.pairs_plug ctx (.node y c l py (Ctx.plug inner yr))
    simp only [Tree.pairs] at whole
    rw [List.append_assoc]
    exact whole
  · rw [← plugged]
    refine List.perm_iff_count.mpr fun b => ?_
    simp only [List.count_cons, List.count_append, (Ctx.addrs_plug_perm ..).count_eq, Ctx.addrs_append,
      Ctx.addrs, Tree.addrs, List.count_nil]
    omega

/-- **`z` is taken out**, whatever children it has. -/
theorem unlink_spec (focus : Focus T ctx (.node z c l pair r)) (room : r.pairs.length ≤ T.size) {m : Nat}
    (redBlack : (Ctx.plug ctx (.node z c l pair r)).RedBlack m)
    (black : (Ctx.plug ctx (.node z c l pair r)).color = .black) :
    ∃ T' ctx' t color, T.unlink z = some (T', t.ptr T'.nil, color) ∧
      Unlinked T z (Ctx.plug ctx (.node z c l pair r))
        (Ctx.low ctx ++ (l.pairs ++ r.pairs) ++ Ctx.high ctx) T' ctx' t color := by
  by_cases leftLeaf : l = .leaf
  · subst leftLeaf
    have made : Focus T ctx (.make .left z c pair .leaf r) := focus
    obtain ⟨T', unlinked⟩ := unlink_single made redBlack black
    exact ⟨T', ctx, r, c, unlinked⟩
  · by_cases rightLeaf : r = .leaf
    · subst rightLeaf
      have made : Focus T ctx (.make .right z c pair .leaf l) := focus
      obtain ⟨T', unlinked⟩ := unlink_single made redBlack black
      refine ⟨T', ctx, l, c, ?_⟩
      rw [Tree.pairs, List.append_nil]
      exact unlinked
    · exact unlink_double focus leftLeaf rightLeaf room redBlack black

end Unlink

section Stands

variable {A : Allocator σ} {T : Rbtree σ K V} {whole : Tree K V}

/-- **The lack in the spared place is mended.** -/
theorem Unlinked.mended {z : Ptr} {pairs : List (K × V)} {T' : Rbtree σ K V} {ctx : Ctx K V} {t : Tree K V}
    {color : Color} (unlinked : Unlinked T z whole pairs T' ctx t color) (room : pairs.length ≤ T.size) :
    ∃ T'' whole', (if color = .black then T'.deleteFixup (T'.size + 1) (t.ptr T'.nil) else some T') = some T'' ∧
      Mended T' (Ctx.plug ctx t) T'' whole' := by
  cases color with
  | red =>
      obtain ⟨redBlack, black⟩ := unlinked.spares.red rfl
      exact ⟨T', _, if_neg nofun, Focus.whole.mp unlinked.focus, redBlack, black, .refl _, .refl T'⟩
  | black =>
      obtain ⟨n, balanced, pushed, above⟩ := unlinked.spares.black rfl
      have short : Short T' ctx t n := ⟨unlinked.focus, unlinked.held, balanced, pushed, above⟩
      have longer := Ctx.length_le_plug ctx t
      rw [unlinked.pairs] at longer
      have fits : ctx.length < T'.size + 1 := by
        rw [unlinked.same.size]
        omega
      obtain ⟨T'', whole', fixed, mended⟩ := deleteFixup_spec _ short (Nat.succ_pos _) fun _ => fits
      exact ⟨T'', whole', (if_pos rfl).trans fixed, mended⟩

/-- **`delete_node`** -/
theorem Stands.deleteNode (stands : Stands A T whole) {ctx : Ctx K V} {z : Ptr} {c : Color} {pair : K × V}
    {l r : Tree K V} (plugged : Ctx.plug ctx (.node z c l pair r) = whole) :
    ∃ T' whole', T.deleteNode A z = some T' ∧ Stands A T' whole' ∧
      whole'.pairs = Ctx.low ctx ++ (l.pairs ++ r.pairs) ++ Ctx.high ctx := by
  have pairs := Ctx.pairs_plug ctx (.node z c l pair r)
  have size := stands.size
  have lengths : whole.pairs.length = (Ctx.low ctx ++ (l.pairs ++ r.pairs) ++ Ctx.high ctx).length + 1 := by
    rw [← plugged, pairs]
    simp only [Tree.pairs, List.length_append, List.length_cons]
    omega
  have room : (Ctx.low ctx ++ (l.pairs ++ r.pairs) ++ Ctx.high ctx).length ≤ T.size := by omega
  have roomR : r.pairs.length ≤ T.size := by
    simp only [List.length_append] at room
    omega
  have focus : Focus T ctx (.node z c l pair r) := Focus.whole.mpr (plugged ▸ stands.focus)
  obtain ⟨m, redBlack⟩ := stands.redBlack
  have black := stands.black
  rw [← plugged] at redBlack black
  obtain ⟨T₁, ctx₁, t, color, taken, unlinked⟩ := unlink_spec focus roomR redBlack black
  obtain ⟨T₂, whole', fixed, mended⟩ := unlinked.mended room
  obtain ⟨alike, kept⟩ := mended.becomes
  have same := unlinked.same.trans kept.same
  have pairs' := alike.pairs.trans unlinked.pairs
  -- the node is not in the tree any more
  have nodup : (z :: (Ctx.plug ctx₁ t).addrs).Nodup := by
    have whole := stands.focus.nodup
    rw [Ctx.addrs, List.append_nil, ← plugged] at whole
    exact unlinked.addrs.nodup_iff.mpr whole
  have inOld : ∀ a ∈ whole'.addrs, a ∈ whole.addrs ∧ a ≠ z := by
    intro a member
    have before := alike.addrs.mem_iff.mp member
    refine ⟨plugged ▸ unlinked.addrs.mem_iff.mp (List.mem_cons_of_mem _ before), ?_⟩
    rintro rfl
    exact (List.nodup_cons.mp nodup).1 before
  refine ⟨{ T₂.nodeFree A z with size := T₂.size - 1 }, whole', ?_, ⟨?_, mended.redBlack, mended.black, ?_,
    fun a member => ?_, ?_⟩, pairs'⟩
  · have deleted : T.deleteNode A z = (if color = .black then T₁.deleteFixup (T₁.size + 1) (t.ptr T₁.nil)
        else some T₁).bind fun T => some { T.nodeFree A z with size := T.size - 1 } := by
      simp only [Rbtree.deleteNode, taken, Option.bind_eq_bind, bind_ite, Option.bind_some]
    rw [deleted, fixed, Option.bind_some]
  · exact mended.focus.congr rfl rfl (fun _ _ => rfl) rfl
  · show T₂.size - 1 = _
    rw [same.size, pairs', size, lengths]
    rfl
  · obtain ⟨old, other⟩ := inOld a member
    show A.InUse (A.free T₂.nodeSlab z) a
    rw [same.nodeSlab]
    exact A.free_keeps _ _ _ (stands.inUse a old) other
  · show A.InUse (A.free T₂.nodeSlab z) T₂.nil
    rw [same.nodeSlab, same.nil]
    exact A.free_keeps _ _ _ stands.nilInUse (Ne.symm focus.reads.1)

/-- **`rbtree_remove`** -/
theorem Stands.remove (stands : Stands A T whole) (C : KeyCmp K) {m : OrderedMap K V C.order}
    (holds : m.pairs = whole.pairs) (key : K) :
    ∃ T' whole', T.remove C A key = some (T', if m.contains key then 0 else -1) ∧ Stands A T' whole' ∧
      (if m.contains key then m.erase key else m).pairs = whole'.pairs := by
  have root : T.root = whole.ptr T.nil := stands.focus.root
  have searched := search_spec C key stands.focus stands.room
  rw [← root] at searched
  rcases descend_spec C holds key with ⟨ctx, walk, cut, -, -, pairs⟩ |
    ⟨ctx, a, c, l, pair, r, walk, found, plugged, pairs⟩
  · rw [walk] at searched
    rw [OrderedMap.contains_of_cut cut pairs]
    refine ⟨T, whole, ?_, stands, holds⟩
    simp only [Rbtree.remove, searched, Tree.found, Option.bind_eq_bind, Option.bind_some]
    rfl
  · rw [walk] at searched
    rw [OrderedMap.contains_of_found pairs found]
    obtain ⟨T', whole', deleted, stands', pairs'⟩ := stands.deleteNode plugged
    refine ⟨T', whole', ?_, stands', ?_⟩
    · simp only [Rbtree.remove, searched, Tree.found, deleted, Option.bind_eq_bind, Option.bind_some]
      rfl
    · rw [if_pos rfl, OrderedMap.erase_of_found pairs found, pairs']
      simp only [List.append_assoc]

end Stands

end Rbtree

end KTableFS.Index
