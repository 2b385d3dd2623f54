/-
# Index.RbtreeBalance -- the colors of a red-black tree

`Tree.RedBlack t n` says that no red node of `t` has a red child and that every path from
the root to a leaf passes `n` black nodes; `Ctx.RedBlack` says of a context that a tree of
this black height completes it, if the colors fit at the hole (`Ctx.Takes`).  A tree is
completed so exactly where it is cut out of a red-black tree (`redBlack_plug`).

`Alike` trees have the same pairs in the same order and the same addresses: rotations and
colors change nothing else.
-/
import KTableFS.Index.RbtreeShape

namespace KTableFS.Index

open KTableFS.Theory

set_option autoImplicit false

namespace Rbtree

variable {σ K V : Type}

/-- No red node has a red child, and every path to a leaf has as many black nodes. -/
inductive Tree.RedBlack : Tree K V → Nat → Prop where
  | leaf : RedBlack .leaf 0
  | black {n : Nat} {addr : Ptr} {l r : Tree K V} {pair : K × V} (left : RedBlack l n)
      (right : RedBlack r n) : RedBlack (.node addr .black l pair r) (n + 1)
  | red {n : Nat} {addr : Ptr} {l r : Tree K V} {pair : K × V} (left : RedBlack l n)
      (right : RedBlack r n) (blackLeft : l.color = .black) (blackRight : r.color = .black) :
      RedBlack (.node addr .red l pair r) n

/-- The color of the hole's parent. -/
def Ctx.color (ctx : Ctx K V) : Option Color := ctx.head?.map Frame.color

/-- A tree of black height `n` completes the context, if the colors fit. -/
inductive Ctx.RedBlack : Ctx K V → Nat → Prop where
  | top {n : Nat} : RedBlack [] n
  | black {n : Nat} {side : Side} {addr : Ptr} {pair : K × V} {other : Tree K V} {up : Ctx K V}
      (other' : other.RedBlack n) (above : RedBlack up (n + 1)) :
      RedBlack (⟨side, addr, .black, pair, other⟩ :: up) n
  | red {n : Nat} {side : Side} {addr : Ptr} {pair : K × V} {other : Tree K V} {up : Ctx K V}
      (other' : other.RedBlack n) (blackOther : other.color = .black)
      (blackUp : Ctx.color up = some .black) (above : RedBlack up n) :
      RedBlack (⟨side, addr, .red, pair, other⟩ :: up) n

/-- The colors fit at the hole: no two red nodes meet, and the root is black. -/
def Ctx.Takes (ctx : Ctx K V) (color : Color) : Prop :=
  color = .black ∨ Ctx.color ctx = some .black

namespace Tree

section Make

variable {side : Side} {a : Ptr} {pair : K × V} {near far : Tree K V} {n : Nat}

theorem redBlack_black : (make side a .black pair near far).RedBlack n ↔
    ∃ m, n = m + 1 ∧ near.RedBlack m ∧ far.RedBlack m := by
  constructor
  · intro redBlack
    cases side with
    | left =>
        cases redBlack with
        | black l r => exact ⟨_, rfl, l, r⟩
    | right =>
        cases redBlack with
        | black l r => exact ⟨_, rfl, r, l⟩
  · rintro ⟨m, rfl, inNear, inFar⟩
    cases side with
    | left => exact .black inNear inFar
    | right => exact .black inFar inNear

theorem redBlack_red : (make side a .red pair near far).RedBlack n ↔
    near.RedBlack n ∧ far.RedBlack n ∧ near.color = .black ∧ far.color = .black := by
  constructor
  · intro redBlack
    cases side with
    | left =>
        cases redBlack with
        | red l r blackL blackR => exact ⟨l, r, blackL, blackR⟩
    | right =>
        cases redBlack with
        | red l r blackL blackR => exact ⟨r, l, blackR, blackL⟩
  · rintro ⟨inNear, inFar, blackNear, blackFar⟩
    cases side with
    | left => exact .red inNear inFar blackNear blackFar
    | right => exact .red inFar inNear blackFar blackNear

end Make

theorem RedBlack.exists_red (side : Side) {t : Tree K V} {n : Nat} (nil : Ptr) (redBlack : t.RedBlack n)
    (red : t.color = .red) : ∃ pair near far, t = make side (t.ptr nil) .red pair near far ∧
      near.RedBlack n ∧ far.RedBlack n ∧ near.color = .black ∧ far.color = .black := by
  have real : t ≠ .leaf := by
    rintro rfl
    cases red
  obtain ⟨pair, near, far, shape⟩ := exists_make side nil real
  rw [red] at shape
  rw [shape, redBlack_red] at redBlack
  exact ⟨pair, near, far, shape, redBlack⟩

/-- A black root makes a red-black tree of either. -/
theorem RedBlack.blacken {t : Tree K V} {n : Nat} (redBlack : t.RedBlack n) :
    t.blacken.RedBlack (if t.color = .red then n + 1 else n) := by
  cases redBlack with
  | leaf => exact .leaf
  | black l r => exact .black l r
  | red l r blackL blackR => exact .black l r

theorem blacken_of_black {t : Tree K V} (black : t.color = .black) : t.blacken = t := by
  cases t with
  | leaf => rfl
  | node addr c l pair r =>
      cases black
      rfl

theorem color_blacken (t : Tree K V) : t.blacken.color = .black := by
  cases t <;> rfl

end Tree

/-! ## Completing a context -/

/-- **What is completed is a red-black tree with a black root.** -/
theorem Ctx.RedBlack.plug {ctx : Ctx K V} {n : Nat} (redBlack : Ctx.RedBlack ctx n) :
    ∀ {t : Tree K V}, t.RedBlack n → Ctx.Takes ctx t.color →
      (∃ m, (Ctx.plug ctx t).RedBlack m) ∧ (Ctx.plug ctx t).color = .black := by
  induction redBlack with
  | top =>
      intro t inT takes
      rcases takes with black | black
      · exact ⟨⟨_, inT⟩, black⟩
      · cases black
  | @black n side addr pair other up inOther above ih =>
      intro t inT takes
      refine ih (Tree.redBlack_black.mpr ⟨n, rfl, inT, inOther⟩) (Or.inl ?_)
      exact Tree.color_make ..
  | @red n side addr pair other up inOther blackOther blackUp above ih =>
      intro t inT takes
      rcases takes with black | black
      · exact ih (Tree.redBlack_red.mpr ⟨inT, inOther, black, blackOther⟩) (Or.inr blackUp)
      · cases black

/-- Where a tree is cut out of a red-black tree with a black root. -/
theorem redBlack_plug : ∀ {ctx : Ctx K V} {t : Tree K V} {m : Nat}, (Ctx.plug ctx t).RedBlack m →
    (Ctx.plug ctx t).color = .black → ∃ n, t.RedBlack n ∧ Ctx.RedBlack ctx n ∧ Ctx.Takes ctx t.color
  | [], t, m, whole, black => ⟨m, whole, .top, Or.inl black⟩
  | ⟨side, addr, .black, pair, other⟩ :: up, t, m, whole, black => by
      obtain ⟨n, here, above, -⟩ := redBlack_plug (show (Ctx.plug up _).RedBlack m from whole) black
      obtain ⟨n', rfl, inT, inOther⟩ := Tree.redBlack_black.mp here
      exact ⟨n', inT, .black inOther above, Or.inr rfl⟩
  | ⟨side, addr, .red, pair, other⟩ :: up, t, m, whole, black => by
      obtain ⟨n, here, above, takes⟩ := redBlack_plug (show (Ctx.plug up _).RedBlack m from whole) black
      obtain ⟨inT, inOther, blackT, blackOther⟩ := Tree.redBlack_red.mp here
      refine ⟨n, inT, .red inOther blackOther ?_ above, Or.inl blackT⟩
      rcases takes with isBlack | isBlack
      · rw [Frame.plug, Tree.color_make] at isBlack
        cases isBlack
      · exact isBlack

/-! ## Rearrangements -/

/-- The same pairs in the same order, at the same addresses. -/
structure Alike (t t' : Tree K V) : Prop where
  pairs : t'.pairs = t.pairs
  addrs : t'.addrs.Perm t.addrs

theorem Alike.refl (t : Tree K V) : Alike t t := ⟨rfl, .refl _⟩

theorem Alike.trans {t t' t'' : Tree K V} (first : Alike t t') (second : Alike t' t'') : Alike t t'' :=
  ⟨second.pairs.trans first.pairs, second.addrs.trans first.addrs⟩

theorem Alike.make {near near' far far' : Tree K V} (side : Side) (a : Ptr) (c c' : Color) (pair : K × V)
    (alikeNear : Alike near near') (alikeFar : Alike far far') :
    Alike (.make side a c pair near far) (.make side a c' pair near' far') := by
  refine ⟨?_, (Tree.addrs_make_perm ..).trans (List.Perm.trans ?_ (Tree.addrs_make_perm ..).symm)⟩
  · cases side <;> simp only [Tree.make, Tree.pairs, alikeNear.pairs, alikeFar.pairs]
  · exact (alikeNear.addrs.append alikeFar.addrs).cons a

theorem Alike.plug : ∀ (ctx : Ctx K V) {t t' : Tree K V}, Alike t t' →
    Alike (Ctx.plug ctx t) (Ctx.plug ctx t')
  | [], _, _, alike => alike
  | f :: up, t, t', alike => by
      have made : Alike (f.plug t) (f.plug t') := Alike.make _ _ _ _ _ alike (.refl f.other)
      exact Alike.plug up made

theorem alike_blacken (t : Tree K V) : Alike t t.blacken := by
  cases t with
  | leaf => exact .refl _
  | node addr c l pair r => exact ⟨rfl, .refl _⟩

/-- A rotation. -/
theorem alike_rotate (side : Side) (x y : Ptr) (cx cy cx' cy' : Color) (px py : K × V)
    (inner outer rest : Tree K V) :
    Alike (.make side.flip x cx px (.make side y cy py inner outer) rest)
      (.make side y cy' py (.make side.flip x cx' px inner rest) outer) := by
  constructor
  · cases side <;> simp [Tree.make, Tree.pairs, Side.flip]
  · refine List.perm_iff_count.mpr fun b => ?_
    simp only [(Tree.addrs_make_perm ..).count_eq, List.count_cons, List.count_append]
    omega

end Rbtree

end KTableFS.Index
