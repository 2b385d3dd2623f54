/-
# Kvengine.SlabAlloc -- which slabs exist, and which of them are free

`AllocSound slabs files` is the invariant of the slab allocator while fewer than
`2 ^ 16` slab files have been started (a `slab_t` stores 16 bits of the file
number): every class hands out slabs of its own files only, its free list holds
slabs it has issued, each once, and no two classes share a file.  `AllocOk` adds that
a file has at most `2 ^ 16 + 1` slabs, as the worker configures it.

* `createIn_sound`, `createIn_spec` -- `Create` returns a slab that was free or had
  never been issued, large enough for the item, and takes exactly that one off the
  free lists;
* `freeIn_sound`, `freeIn_spec` -- `Delete` puts exactly its slab on a free list;
* `Issued.off_eq`, `Issued.in_page`, `issued_apart` -- an issued slab's offset is
  computed without wrapping, lies in one page, and two issued slabs of one file do
  not overlap.
-/
import KTableFS.Kvengine.FileSlab
import Mathlib.Data.List.Pairwise
import Mathlib.Tactic.Ring

namespace KTableFS.Kvengine

open KTableFS.Theory

set_option autoImplicit false

/-- The slabs a class has handed out so far, whether or not they were freed since. -/
structure SingleFileSlab.Issued (c : SingleFileSlab) (s : SlabT) : Prop where
  size : s.size = c.slabSize
  file : s.file ∈ c.files
  index : s.index ≤ c.slabPerFile
  current : s.file = c.curFile → s.index ≤ c.curSlab

structure SingleFileSlab.Ok (c : SingleFileSlab) (files : Nat) : Prop where
  divides : c.slabSize ∣ pageSize
  room : 8 ≤ c.slabSize
  small : c.slabSize ≤ 1024
  perFile : c.slabPerFile < 2 ^ 32
  bump : c.curSlab ≤ c.slabPerFile
  current : c.curSlab = c.slabPerFile ∨ c.curFile ∈ c.files
  range : ∀ f ∈ c.files, 1 ≤ f ∧ f ≤ files
  nodup : c.freeSlab.Nodup
  free : ∀ s ∈ c.freeSlab, c.Issued s

/-- Two classes of different sizes that share no file. -/
def SingleFileSlab.Apart (c c' : SingleFileSlab) : Prop :=
  c.slabSize ≠ c'.slabSize ∧ ∀ f ∈ c.files, f ∉ c'.files

instance : Std.Symm SingleFileSlab.Apart where
  symm _ _ apart := ⟨apart.1.symm, fun f inC' inC => apart.2 f inC inC'⟩

structure AllocSound (slabs : List SingleFileSlab) (files : Nat) : Prop where
  each : ∀ c ∈ slabs, c.Ok files
  apart : slabs.Pairwise SingleFileSlab.Apart
  narrow : files < 2 ^ 16

/-- With files as short as the worker makes them. -/
structure AllocOk (slabs : List SingleFileSlab) (files : Nat) : Prop extends AllocSound slabs files where
  perFile : ∀ c ∈ slabs, c.slabPerFile ≤ 2 ^ 16

def Issued (slabs : List SingleFileSlab) (s : SlabT) : Prop := ∃ c ∈ slabs, c.Issued s

def Free (slabs : List SingleFileSlab) (s : SlabT) : Prop := ∃ c ∈ slabs, s ∈ c.freeSlab

/-- The slab sizes of a worker. -/
abbrev slabSizes : List Nat := [64, 128, 256, 512, 1024]

/-- No slab has been handed out yet. -/
theorem new_sound {slabPerFile : Nat} (narrow : slabPerFile < 2 ^ 32) :
    AllocSound (slabSizes.map (SingleFileSlab.new slabPerFile)) 0 where
  each c member := by
    obtain ⟨size, inSizes, rfl⟩ := List.mem_map.mp member
    have sizes : ∀ n ∈ slabSizes, n ∣ pageSize ∧ 8 ≤ n ∧ n ≤ 1024 := by decide
    obtain ⟨divides, room, small⟩ := sizes size inSizes
    exact ⟨divides, room, small, narrow, le_rfl, Or.inl rfl, by simp [SingleFileSlab.new],
      List.nodup_nil, by simp [SingleFileSlab.new]⟩
  apart := by
    have differ : slabSizes.Pairwise (· ≠ ·) := by decide
    exact differ.map _ fun a b apart => ⟨apart, fun f inC => by cases inC⟩
  narrow := Nat.two_pow_pos 16

theorem new_allocOk : AllocOk (slabSizes.map (SingleFileSlab.new (2 ^ 16))) 0 where
  toAllocSound := new_sound (by decide)
  perFile c member := by
    obtain ⟨size, -, rfl⟩ := List.mem_map.mp member
    exact le_rfl

/-! ## Where an issued slab lies -/

/-- A page number is far below what `PageHash_` reserves for it. -/
theorem SlabT.page_lt (s : SlabT) : s.off / pageSize < 2 ^ 40 := by
  have : s.off < 2 ^ 32 := Nat.mod_lt _ (by decide)
  simp only [pageSize]
  omega

/-- Slabs whose size divides the page size do not straddle pages. -/
theorem product_in_page {size : Nat} (index : Nat) (divides : size ∣ pageSize) :
    size * index % pageSize + size ≤ pageSize := by
  obtain ⟨perPage, split⟩ := divides
  have inside : index % perPage < perPage := by
    apply Nat.mod_lt
    rcases Nat.eq_zero_or_pos perPage with zero | pos
    · rw [zero] at split
      simp [pageSize] at split
    · exact pos
  rw [split, Nat.mul_mod_mul_left]
  calc size * (index % perPage) + size = size * (index % perPage + 1) := by ring
    _ ≤ size * perPage := Nat.mul_le_mul_left _ inside

theorem SlabT.in_page {s : SlabT} (divides : s.size ∣ pageSize) :
    s.off % pageSize + s.size ≤ pageSize := by
  have unwrapped : s.off % pageSize = s.size * s.index % pageSize :=
    Nat.mod_mod_of_dvd _ (by decide)
  rw [unwrapped]
  exact product_in_page s.index divides

/-- Slabs of one file belong to one class. -/
theorem AllocSound.class_of_file {slabs : List SingleFileSlab} {files : Nat} (ok : AllocSound slabs files)
    {c c' : SingleFileSlab} (member : c ∈ slabs) (member' : c' ∈ slabs) {f : Nat} (inC : f ∈ c.files)
    (inC' : f ∈ c'.files) : c = c' := by
  by_contra differ
  exact (ok.apart.forall member member' differ).2 f inC inC'

/-- Distinct issued slabs of one file do not overlap. -/
theorem AllocSound.issued_apart {slabs : List SingleFileSlab} {files : Nat} (ok : AllocSound slabs files)
    {s s' : SlabT} (issued : Issued slabs s) (issued' : Issued slabs s') (differ : s ≠ s')
    (sameFile : s.file = s'.file) :
    s.size * s.index + s.size ≤ s'.size * s'.index ∨ s'.size * s'.index + s'.size ≤ s.size * s.index := by
  obtain ⟨c, member, own⟩ := issued
  obtain ⟨c', member', own'⟩ := issued'
  have sameClass := ok.class_of_file member member' own.file (sameFile ▸ own'.file)
  subst sameClass
  have sameSize : s.size = s'.size := own.size.trans own'.size.symm
  have differIndex : s.index ≠ s'.index := by
    intro sameIndex
    apply differ
    cases s
    cases s'
    simp_all
  rw [← sameSize]
  rcases Nat.lt_or_gt_of_ne differIndex with lt | gt
  · left
    calc s.size * s.index + s.size = s.size * (s.index + 1) := by ring
      _ ≤ s.size * s'.index := Nat.mul_le_mul_left _ lt
  · right
    calc s.size * s'.index + s.size = s.size * (s'.index + 1) := by ring
      _ ≤ s.size * s.index := Nat.mul_le_mul_left _ gt

section Geometry

variable {slabs : List SingleFileSlab} {files : Nat} (ok : AllocOk slabs files)

include ok

theorem Issued.off_eq {s : SlabT} (issued : Issued slabs s) : s.off = s.size * s.index := by
  obtain ⟨c, member, own⟩ := issued
  have size : s.size ≤ 1024 := by rw [own.size]; exact (ok.each c member).small
  have index : s.index ≤ 2 ^ 16 := own.index.trans (ok.perFile c member)
  have product : s.size * s.index ≤ 1024 * 2 ^ 16 := Nat.mul_le_mul size index
  exact Nat.mod_eq_of_lt (by omega)

theorem Issued.bounds {s : SlabT} (issued : Issued slabs s) :
    8 ≤ s.size ∧ s.size ≤ 1024 ∧ 1 ≤ s.file ∧ s.file ≤ files := by
  obtain ⟨c, member, own⟩ := issued
  have class' := ok.each c member
  rw [own.size]
  exact ⟨class'.room, class'.small, class'.range s.file own.file⟩

/-- A slab lies in a single page. -/
theorem Issued.in_page {s : SlabT} (issued : Issued slabs s) :
    s.off % pageSize + s.size ≤ pageSize := by
  obtain ⟨c, member, own⟩ := issued
  apply SlabT.in_page
  rw [own.size]
  exact (ok.each c member).divides

/-- Distinct issued slabs of one file do not overlap. -/
theorem issued_apart {s s' : SlabT} (issued : Issued slabs s) (issued' : Issued slabs s')
    (differ : s ≠ s') (sameFile : s.file = s'.file) :
    s.off + s.size ≤ s'.off ∨ s'.off + s'.size ≤ s.off := by
  rw [issued.off_eq ok, issued'.off_eq ok]
  exact ok.toAllocSound.issued_apart issued issued' differ sameFile

end Geometry

/-! ## Changing one class -/

/-- A class may be replaced by one of the same size whose new files no class has. -/
theorem AllocSound.replace {before after : List SingleFileSlab} {c c' : SingleFileSlab}
    {files files' : Nat} (ok : AllocSound (before ++ c :: after) files) (size : c'.slabSize = c.slabSize)
    (more : files ≤ files') (narrow : files' < 2 ^ 16)
    (newFiles : ∀ f ∈ c'.files, f ∈ c.files ∨ files < f) (okClass : c'.Ok files') :
    AllocSound (before ++ c' :: after) files' where
  narrow := narrow
  each := by
    intro d member
    have weaken : d ∈ before ++ c :: after → d.Ok files' := by
      intro old
      have class' := ok.each d old
      exact { class' with range := fun f inF => ⟨(class'.range f inF).1, (class'.range f inF).2.trans more⟩ }
    rcases List.mem_append.mp member with inBefore | inAfter
    · exact weaken (List.mem_append_left _ inBefore)
    · rcases List.mem_cons.mp inAfter with rfl | inAfter
      · exact okClass
      · exact weaken (List.mem_append_right _ (List.mem_cons_of_mem _ inAfter))
  apart := by
    have apart := ok.apart
    rw [List.pairwise_append, List.pairwise_cons] at apart ⊢
    obtain ⟨apartBefore, ⟨apartHead, apartAfter⟩, across⟩ := apart
    have old : ∀ d ∈ before ++ c :: after, ∀ f ∈ c'.files, f ∉ c.files → f ∉ d.files := by
      intro d member f inNew notOld inD
      rcases newFiles f inNew with inC | fresh
      · exact notOld inC
      · exact absurd ((ok.each d member).range f inD).2 (by omega)
    refine ⟨apartBefore, ⟨?_, apartAfter⟩, ?_⟩
    · intro d member
      obtain ⟨sizes, disjoint⟩ := apartHead d member
      refine ⟨by rw [size]; exact sizes, fun f inNew inD => ?_⟩
      by_cases inC : f ∈ c.files
      · exact disjoint f inC inD
      · exact old d (List.mem_append_right _ (List.mem_cons_of_mem _ member)) f inNew inC inD
    · intro d inBefore e member
      rcases List.mem_cons.mp member with rfl | inAfter
      · obtain ⟨sizes, disjoint⟩ := across d inBefore c (List.mem_cons_self ..)
        refine ⟨by rw [size]; exact sizes, fun f inD inNew => ?_⟩
        by_cases inC : f ∈ c.files
        · exact disjoint f inD inC
        · exact old d (List.mem_append_left _ inBefore) f inNew inC inD
      · exact across d inBefore e (List.mem_cons_of_mem _ inAfter)

theorem exists_mem_replace {P : SingleFileSlab → Prop} {before after : List SingleFileSlab}
    {c : SingleFileSlab} :
    (∃ d ∈ before ++ c :: after, P d) ↔ P c ∨ ∃ d ∈ before ++ after, P d := by
  constructor
  · rintro ⟨d, member, holds⟩
    rcases List.mem_append.mp member with inBefore | inAfter
    · exact Or.inr ⟨d, List.mem_append_left _ inBefore, holds⟩
    · rcases List.mem_cons.mp inAfter with rfl | inAfter
      · exact Or.inl holds
      · exact Or.inr ⟨d, List.mem_append_right _ inAfter, holds⟩
  · rintro (holds | ⟨d, member, holds⟩)
    · exact ⟨c, by simp, holds⟩
    · rcases List.mem_append.mp member with inBefore | inAfter
      · exact ⟨d, List.mem_append_left _ inBefore, holds⟩
      · exact ⟨d, List.mem_append_right _ (List.mem_cons_of_mem _ inAfter), holds⟩

/-! ## Create -/

/-- An item that fits some class gets a slab. -/
theorem createIn_isSome {size large : Nat} (fits : size ≤ large) (fs : LocalFileSet) :
    ∀ {slabs : List SingleFileSlab}, large ∈ slabs.map SingleFileSlab.slabSize →
      ∃ out, FileSlab.createIn size slabs fs = some out
  | [], member => by simp at member
  | c :: rest, member => by
      unfold FileSlab.createIn
      by_cases here : size ≤ c.slabSize
      · rw [if_pos here]
        split <;> exact ⟨_, rfl⟩
      · rw [if_neg here]
        rcases List.mem_cons.mp member with same | later
        · omega
        · obtain ⟨out, created⟩ := createIn_isSome fits fs later
          exact ⟨_, by rw [created]; rfl⟩

/-- `Create` serves an item from one class: its free list, or its bump index. -/
theorem createIn_split {size : Nat} : ∀ {slabs : List SingleFileSlab} {fs : LocalFileSet}
    {s : SlabT} {slabs' : List SingleFileSlab} {fs' : LocalFileSet},
    FileSlab.createIn size slabs fs = some (s, slabs', fs') →
      ∃ before c after c', slabs = before ++ c :: after ∧ slabs' = before ++ c' :: after ∧
        size ≤ c.slabSize ∧
        ((∃ free, c.freeSlab = s :: free ∧ c' = { c with freeSlab := free } ∧ fs' = fs) ∨
          (c.freeSlab = [] ∧ c' = (c.bump fs).1 ∧ fs' = (c.bump fs).2 ∧ s = c'.current))
  | [], _, _, _, _, created => by simp [FileSlab.createIn] at created
  | c :: rest, fs, s, slabs', fs', created => by
      unfold FileSlab.createIn at created
      split at created
      · rename_i fits
        split at created
        · rename_i res free shape
          simp only [Option.some.injEq, Prod.mk.injEq] at created
          obtain ⟨rfl, rfl, rfl⟩ := created
          exact ⟨[], c, rest, _, rfl, rfl, fits, Or.inl ⟨free, shape, rfl, rfl⟩⟩
        · rename_i shape
          simp only [Option.some.injEq, Prod.mk.injEq] at created
          obtain ⟨rfl, rfl, rfl⟩ := created
          exact ⟨[], c, rest, _, rfl, rfl, fits, Or.inr ⟨shape, rfl, rfl, rfl⟩⟩
      · simp only [Option.map_eq_some_iff, Prod.mk.injEq] at created
        obtain ⟨⟨s', slabs'', fs''⟩, later, rfl, rfl, rfl⟩ := created
        obtain ⟨before, d, after, d', rfl, shape, fits, served⟩ := createIn_split later
        exact ⟨c :: before, d, after, d', rfl, by simp [shape], fits, served⟩

/-- What `Create` may do to the files: nothing, or start one. -/
theorem bump_files (c : SingleFileSlab) (fs : LocalFileSet) :
    (c.bump fs).2.pagecache = fs.pagecache ∧
    ((c.bump fs).2.fileSet.length = fs.fileSet.length ∧ (c.bump fs).2.disk = fs.disk ∨
      (c.bump fs).2.fileSet.length = fs.fileSet.length + 1 ∧
      (c.bump fs).2.disk = Function.update fs.disk (fs.fileSet.length + 1) .empty) := by
  unfold SingleFileSlab.bump
  split
  · exact ⟨rfl, Or.inr ⟨by simp [LocalFileSet.create], rfl⟩⟩
  · exact ⟨rfl, Or.inl ⟨rfl, rfl⟩⟩

/-- The bump index of a class hands out a slab it has not issued, and nothing else
changes. -/
theorem bump_spec {c : SingleFileSlab} {fs : LocalFileSet} (ok : c.Ok fs.fileSet.length)
    (narrow : (c.bump fs).2.fileSet.length < 2 ^ 16) :
    (c.bump fs).1.Ok (c.bump fs).2.fileSet.length ∧
    (c.bump fs).1.slabSize = c.slabSize ∧ (c.bump fs).1.freeSlab = c.freeSlab ∧
    (∀ f ∈ (c.bump fs).1.files, f ∈ c.files ∨ fs.fileSet.length < f) ∧
    (c.bump fs).1.Issued (c.bump fs).1.current ∧ ¬ c.Issued (c.bump fs).1.current ∧
    (∀ s, c.Issued s → (c.bump fs).1.Issued s) := by
  have sizeFits : c.slabSize % 2 ^ 16 = c.slabSize := Nat.mod_eq_of_lt (by have := ok.small; omega)
  unfold SingleFileSlab.bump at narrow ⊢
  split
  · -- a full file: the class starts a new one, whose number no class has seen
    rename_i full
    rw [if_pos full] at narrow
    simp only [LocalFileSet.create, List.length_append, List.length_singleton] at narrow
    have fileFits : (fs.fileSet.length + 1) % 2 ^ 16 = fs.fileSet.length + 1 := Nat.mod_eq_of_lt narrow
    have newFile : fs.fileSet.length + 1 ∉ c.files := fun inC =>
      absurd (ok.range _ inC).2 (by omega)
    have keeps : ∀ s, c.Issued s → SingleFileSlab.Issued { c with
        curFile := fs.fileSet.length + 1, curSlab := 0, files := c.files ++ [fs.fileSet.length + 1] } s := by
      intro s own
      refine ⟨own.size, List.mem_append_left _ own.file, own.index, fun same => ?_⟩
      have reached : s.file = fs.fileSet.length + 1 := same
      exact absurd (reached ▸ own.file) newFile
    simp only [LocalFileSet.create, List.length_append, List.length_singleton,
      SingleFileSlab.current, SlabT.pack, sizeFits, fileFits]
    refine ⟨⟨ok.divides, ok.room, ok.small, ok.perFile, Nat.zero_le _, Or.inr (by simp), ?_, ok.nodup,
      fun s inFree => keeps s (ok.free s inFree)⟩, by trivial, by trivial, ?_, ?_, ?_, keeps⟩
    · intro f member
      rcases List.mem_append.mp member with old | new
      · exact ⟨(ok.range f old).1, Nat.le_succ_of_le (ok.range f old).2⟩
      · simp only [List.mem_singleton] at new
        omega
    · intro f member
      rcases List.mem_append.mp member with old | new
      · exact Or.inl old
      · simp only [List.mem_singleton] at new
        exact Or.inr (by omega)
    · exact ⟨rfl, by simp, by simp, by simp⟩
    · exact fun own => newFile own.file
  · rename_i notFull
    have inFiles : c.curFile ∈ c.files := ok.current.resolve_left notFull
    have room : c.curSlab + 1 ≤ c.slabPerFile := by have := ok.bump; omega
    have fileFits : c.curFile % 2 ^ 16 = c.curFile := by
      rw [if_neg notFull] at narrow
      exact Nat.mod_eq_of_lt (lt_of_le_of_lt (ok.range _ inFiles).2 narrow)
    have indexFits : (c.curSlab + 1) % 2 ^ 32 = c.curSlab + 1 :=
      Nat.mod_eq_of_lt (by have := ok.perFile; omega)
    have keeps : ∀ s, c.Issued s → SingleFileSlab.Issued { c with curSlab := c.curSlab + 1 } s :=
      fun s own => ⟨own.size, own.file, own.index, fun same => Nat.le_succ_of_le (own.current same)⟩
    simp only [SingleFileSlab.current, SlabT.pack, sizeFits, fileFits, indexFits]
    refine ⟨⟨ok.divides, ok.room, ok.small, ok.perFile, room, Or.inr inFiles, ok.range, ok.nodup,
      fun s inFree => keeps s (ok.free s inFree)⟩, by trivial, by trivial, fun f member => Or.inl member,
      ⟨rfl, inFiles, room, fun _ => le_rfl⟩, ?_, keeps⟩
    intro own
    have past : c.curSlab + 1 ≤ c.curSlab := own.current rfl
    omega

/-- **`Create` hands out a slab nobody holds.** -/
theorem createIn_sound {size : Nat} {slabs slabs' : List SingleFileSlab} {fs fs' : LocalFileSet}
    {s : SlabT} (ok : AllocSound slabs fs.fileSet.length)
    (created : FileSlab.createIn size slabs fs = some (s, slabs', fs'))
    (narrow : fs'.fileSet.length < 2 ^ 16) :
    AllocSound slabs' fs'.fileSet.length ∧ Issued slabs' s ∧ size ≤ s.size ∧
      (Free slabs s ∨ ¬ Issued slabs s) ∧
      (∀ x, Free slabs' x ↔ Free slabs x ∧ x ≠ s) ∧ (∀ x, Issued slabs x → Issued slabs' x) := by
  obtain ⟨before, c, after, c', rfl, rfl, fits, served⟩ := createIn_split created
  have classOk := ok.each c (by simp)
  have others : ∀ d ∈ before ++ after, d ∈ before ++ c :: after ∧ d.Apart c := by
    intro d member
    have apart := ok.apart
    rw [List.pairwise_append, List.pairwise_cons] at apart
    rcases List.mem_append.mp member with inBefore | inAfter
    · exact ⟨List.mem_append_left _ inBefore, apart.2.2 d inBefore c (List.mem_cons_self ..)⟩
    · exact ⟨List.mem_append_right _ (List.mem_cons_of_mem _ inAfter),
        symm (apart.2.1.1 d inAfter)⟩
  have elsewhere : ∀ d ∈ before ++ after, ∀ x, d.Issued x → x.size ≠ c.slabSize := by
    intro d member x own same
    exact (others d member).2.1 (own.size.symm.trans same)
  rcases served with ⟨free, shape, rfl, rfl⟩ | ⟨shape, rfl, rfl, rfl⟩
  · have own : c.Issued s := classOk.free s (by rw [shape]; exact List.mem_cons_self ..)
    have nodup := classOk.nodup
    rw [shape, List.nodup_cons] at nodup
    have class' : SingleFileSlab.Ok { c with freeSlab := free } fs'.fileSet.length :=
      ⟨classOk.divides, classOk.room, classOk.small, classOk.perFile, classOk.bump, classOk.current,
        classOk.range, nodup.2, fun x inFree =>
          have old := classOk.free x (by rw [shape]; exact List.mem_cons_of_mem _ inFree)
          ⟨old.size, old.file, old.index, old.current⟩⟩
    refine ⟨ok.replace rfl le_rfl narrow (fun f => Or.inl) class',
      ⟨{ c with freeSlab := free }, by simp, ⟨own.size, own.file, own.index, own.current⟩⟩,
      by rw [own.size]; exact fits,
      Or.inl (show Free (before ++ c :: after) s from ⟨c, by simp, by simp [shape]⟩), ?_, ?_⟩
    · intro x
      simp only [Free, exists_mem_replace]
      constructor
      · rintro (inFree | ⟨d, member, inFree⟩)
        · refine ⟨Or.inl (by rw [shape]; exact List.mem_cons_of_mem _ inFree), ?_⟩
          rintro rfl
          exact nodup.1 inFree
        · refine ⟨Or.inr ⟨d, member, inFree⟩, ?_⟩
          rintro rfl
          exact elsewhere d member _ ((ok.each d (others d member).1).free _ inFree) own.size
      · rintro ⟨inFree | ⟨d, member, inFree⟩, differ⟩
        · rw [shape] at inFree
          exact Or.inl ((List.mem_cons.mp inFree).resolve_left differ)
        · exact Or.inr ⟨d, member, inFree⟩
    · intro x
      simp only [Issued, exists_mem_replace]
      exact Or.imp_left fun old => ⟨old.size, old.file, old.index, old.current⟩
  · obtain ⟨class', sameSize, sameFree, newFiles, issued, unissued, keeps⟩ := bump_spec classOk narrow
    have more : fs.fileSet.length ≤ (c.bump fs).2.fileSet.length := by
      rcases (bump_files c fs).2 with ⟨same, -⟩ | ⟨more, -⟩ <;> omega
    have noFree : ∀ x, x ∉ c.freeSlab := by simp [shape]
    have size' : (c.bump fs).1.current.size = c.slabSize := issued.size.trans sameSize
    refine ⟨ok.replace sameSize more narrow newFiles class', ⟨_, by simp, issued⟩,
      by rw [size']; exact fits, Or.inr ?_, ?_, ?_⟩
    · simp only [Issued, exists_mem_replace]
      rintro (own | ⟨d, member, own⟩)
      · exact unissued own
      · exact elsewhere d member _ own size'
    · intro x
      simp only [Free, exists_mem_replace, sameFree, noFree, false_or]
      constructor
      · rintro ⟨d, member, inFree⟩
        refine ⟨⟨d, member, inFree⟩, ?_⟩
        rintro rfl
        exact elsewhere d member _ ((ok.each d (others d member).1).free _ inFree) size'
      · exact And.left
    · intro x
      simp only [Issued, exists_mem_replace]
      exact Or.imp_left (keeps x)

/-- `Create` changes no class's sizes. -/
theorem createIn_perFile {size : Nat} {slabs slabs' : List SingleFileSlab} {fs fs' : LocalFileSet}
    {s : SlabT} (created : FileSlab.createIn size slabs fs = some (s, slabs', fs')) :
    slabs'.map SingleFileSlab.slabSize = slabs.map SingleFileSlab.slabSize ∧
      slabs'.map SingleFileSlab.slabPerFile = slabs.map SingleFileSlab.slabPerFile := by
  obtain ⟨before, c, after, c', rfl, rfl, -, served⟩ := createIn_split created
  have same : c'.slabSize = c.slabSize ∧ c'.slabPerFile = c.slabPerFile := by
    rcases served with ⟨free, -, rfl, -⟩ | ⟨-, rfl, -, -⟩
    · exact ⟨rfl, rfl⟩
    · unfold SingleFileSlab.bump
      split
      · exact ⟨rfl, rfl⟩
      · exact ⟨rfl, rfl⟩
  simp only [List.map_append, List.map_cons, same]
  trivial

theorem perFile_of_map {slabs slabs' : List SingleFileSlab}
    (same : slabs'.map SingleFileSlab.slabPerFile = slabs.map SingleFileSlab.slabPerFile)
    (perFile : ∀ c ∈ slabs, c.slabPerFile ≤ 2 ^ 16) : ∀ c ∈ slabs', c.slabPerFile ≤ 2 ^ 16 := by
  intro c member
  have old : c.slabPerFile ∈ slabs.map SingleFileSlab.slabPerFile := same ▸ List.mem_map_of_mem member
  obtain ⟨d, inOld, sameD⟩ := List.mem_map.mp old
  exact sameD ▸ perFile d inOld

theorem createIn_spec {size : Nat} {slabs slabs' : List SingleFileSlab} {fs fs' : LocalFileSet}
    {s : SlabT} (ok : AllocOk slabs fs.fileSet.length)
    (created : FileSlab.createIn size slabs fs = some (s, slabs', fs'))
    (narrow : fs'.fileSet.length < 2 ^ 16) :
    AllocOk slabs' fs'.fileSet.length ∧ Issued slabs' s ∧ size ≤ s.size ∧
      (Free slabs s ∨ ¬ Issued slabs s) ∧
      (∀ x, Free slabs' x ↔ Free slabs x ∧ x ≠ s) ∧ (∀ x, Issued slabs x → Issued slabs' x) := by
  obtain ⟨sound, rest⟩ := createIn_sound ok.toAllocSound created narrow
  exact ⟨⟨sound, perFile_of_map (createIn_perFile created).2 ok.perFile⟩, rest⟩

/-- What `Create` does to the file set. -/
theorem createIn_files {size : Nat} {slabs slabs' : List SingleFileSlab} {fs fs' : LocalFileSet}
    {s : SlabT} (created : FileSlab.createIn size slabs fs = some (s, slabs', fs')) :
    fs'.pagecache = fs.pagecache ∧
    (fs'.fileSet.length = fs.fileSet.length ∧ fs'.disk = fs.disk ∨
      fs'.fileSet.length = fs.fileSet.length + 1 ∧
      fs'.disk = Function.update fs.disk (fs.fileSet.length + 1) .empty) := by
  obtain ⟨before, c, after, c', -, -, -, served⟩ := createIn_split created
  rcases served with ⟨free, -, -, rfl⟩ | ⟨-, -, rfl, -⟩
  · exact ⟨rfl, Or.inl ⟨rfl, rfl⟩⟩
  · exact bump_files c fs

/-- A created file leaves the files as they were: it is empty already. -/
theorem createIn_disk {size : Nat} {slabs slabs' : List SingleFileSlab} {fs fs' : LocalFileSet}
    {s : SlabT} (blank : ∀ f, fs.fileSet.length < f → fs.disk f = .empty)
    (created : FileSlab.createIn size slabs fs = some (s, slabs', fs')) :
    fs'.disk = fs.disk ∧ fs.fileSet.length ≤ fs'.fileSet.length := by
  obtain ⟨-, ⟨sameCount, sameDisk⟩ | ⟨more, started⟩⟩ := createIn_files created
  · exact ⟨sameDisk, by omega⟩
  · refine ⟨?_, by omega⟩
    rw [started, Function.update_eq_self_iff]
    exact (blank _ (Nat.lt_succ_self _)).symm

/-! ## Delete -/

theorem freeIn_split {s : SlabT} : ∀ {slabs slabs' : List SingleFileSlab},
    FileSlab.freeIn s slabs = some slabs' →
      ∃ before c after, slabs = before ++ c :: after ∧ c.slabSize = s.size ∧
        slabs' = before ++ { c with freeSlab := c.freeSlab ++ [s] } :: after
  | [], _, freed => by simp [FileSlab.freeIn] at freed
  | c :: rest, slabs', freed => by
      unfold FileSlab.freeIn at freed
      split at freed
      · cases freed
        exact ⟨[], c, rest, rfl, ‹_›, rfl⟩
      · simp only [Option.map_eq_some_iff] at freed
        obtain ⟨later, freed, rfl⟩ := freed
        obtain ⟨before, d, after, rfl, size, rfl⟩ := freeIn_split freed
        exact ⟨c :: before, d, after, rfl, size, rfl⟩

/-- **`Delete` frees exactly its slab.** -/
theorem freeIn_sound {s : SlabT} {slabs slabs' : List SingleFileSlab} {files : Nat}
    (ok : AllocSound slabs files) (issued : Issued slabs s) (live : ¬ Free slabs s)
    (freed : FileSlab.freeIn s slabs = some slabs') :
    AllocSound slabs' files ∧ (∀ x, Free slabs' x ↔ Free slabs x ∨ x = s) ∧
      (∀ x, Issued slabs x ↔ Issued slabs' x) := by
  obtain ⟨before, c, after, rfl, size, rfl⟩ := freeIn_split freed
  have classOk := ok.each c (by simp)
  have own : c.Issued s := by
    obtain ⟨d, member, own⟩ := issued
    by_cases same : d = c
    · exact same ▸ own
    · have apart := ok.apart.forall member (by simp) same
      exact absurd (own.size.symm.trans size.symm) apart.1
  have notFree : s ∉ c.freeSlab := fun inFree => live ⟨c, by simp, inFree⟩
  have class' : SingleFileSlab.Ok { c with freeSlab := c.freeSlab ++ [s] } files := by
    refine ⟨classOk.divides, classOk.room, classOk.small, classOk.perFile, classOk.bump,
      classOk.current, classOk.range, ?_, ?_⟩
    · rw [List.nodup_append]
      refine ⟨classOk.nodup, by simp, ?_⟩
      intro x inFree y inSingle same
      simp only [List.mem_singleton] at inSingle
      exact notFree (inSingle ▸ same ▸ inFree)
    · intro x inFree
      have old : c.Issued x := by
        rcases List.mem_append.mp inFree with inOld | inNew
        · exact classOk.free x inOld
        · simp only [List.mem_singleton] at inNew
          exact inNew ▸ own
      exact ⟨old.size, old.file, old.index, old.current⟩
  refine ⟨ok.replace rfl le_rfl ok.narrow (fun f => Or.inl) class', ?_, ?_⟩
  · intro x
    simp only [Free, exists_mem_replace]
    have onList : x ∈ c.freeSlab ++ [s] ↔ x ∈ c.freeSlab ∨ x = s := by simp
    rw [onList]
    exact or_right_comm
  · intro x
    simp only [Issued, exists_mem_replace]
    exact or_congr_left ⟨fun old => ⟨old.size, old.file, old.index, old.current⟩,
      fun old => ⟨old.size, old.file, old.index, old.current⟩⟩

/-- `Delete` changes no class's sizes. -/
theorem freeIn_perFile {s : SlabT} {slabs slabs' : List SingleFileSlab}
    (freed : FileSlab.freeIn s slabs = some slabs') :
    slabs'.map SingleFileSlab.slabSize = slabs.map SingleFileSlab.slabSize ∧
      slabs'.map SingleFileSlab.slabPerFile = slabs.map SingleFileSlab.slabPerFile := by
  obtain ⟨before, c, after, rfl, -, rfl⟩ := freeIn_split freed
  simp only [List.map_append, List.map_cons]
  trivial

theorem freeIn_spec {s : SlabT} {slabs slabs' : List SingleFileSlab} {files : Nat}
    (ok : AllocOk slabs files) (issued : Issued slabs s) (live : ¬ Free slabs s)
    (freed : FileSlab.freeIn s slabs = some slabs') :
    AllocOk slabs' files ∧ (∀ x, Free slabs' x ↔ Free slabs x ∨ x = s) ∧
      (∀ x, Issued slabs x ↔ Issued slabs' x) := by
  obtain ⟨sound, rest⟩ := freeIn_sound ok.toAllocSound issued live freed
  exact ⟨⟨sound, perFile_of_map (freeIn_perFile freed).2 ok.perFile⟩, rest⟩

/-- A slab of an existing class can always be freed. -/
theorem freeIn_isSome {s : SlabT} : ∀ {slabs : List SingleFileSlab},
    (∃ c ∈ slabs, c.slabSize = s.size) → ∃ slabs', FileSlab.freeIn s slabs = some slabs'
  | [], ⟨c, member, _⟩ => by cases member
  | c :: rest, ⟨d, member, size⟩ => by
      unfold FileSlab.freeIn
      by_cases hit : c.slabSize = s.size
      · exact ⟨_, if_pos hit⟩
      · rcases List.mem_cons.mp member with rfl | member
        · exact absurd size hit
        · obtain ⟨later, freed⟩ := freeIn_isSome ⟨d, member, size⟩
          exact ⟨c :: later, by rw [if_neg hit, freed]; rfl⟩

end KTableFS.Kvengine
