/-
# Kvengine.SlabRuns -- runs of Create and Delete

`SlabUse` is a `FileSlab` with the slabs in use: those `Create` has returned and `Delete`
was not given since.  While fewer than `2 ^ 16` slab files exist and only slabs in use are
deleted:

* `slabs_parcelled` -- `Create` returns a slab for every item that a class holds, and every
  slab it returns is not in use, of the smallest class that holds the item, and stored as it
  is; slabs in use do not overlap and lie in one page each;
* `slab_arithmetic_exact` -- with the worker's configuration, what the machine computes of
  an issued slab's offset and page is what the numbers say, and `PageHash_` tells all pages
  of all slab files apart.
-/
import KTableFS.Theory.Run
import KTableFS.Kvengine.SlabAlloc
import KTableFS.Kvengine.Process

namespace KTableFS.Kvengine

open KTableFS.Theory

set_option autoImplicit false

/-! ## What `Create` returns -/

/-- `Create` serves an item from the first class that holds it. -/
theorem createIn_smallest {size : Nat} : ∀ {slabs slabs' : List SingleFileSlab} {fs fs' : LocalFileSet}
    {s : SlabT}, FileSlab.createIn size slabs fs = some (s, slabs', fs') →
      (∀ c ∈ slabs, c.slabSize < 2 ^ 16) → (∀ c ∈ slabs, ∀ x ∈ c.freeSlab, x.size = c.slabSize) →
      (slabs.map SingleFileSlab.slabSize).Pairwise (· < ·) →
      s.size ∈ slabs.map SingleFileSlab.slabSize ∧ size ≤ s.size ∧
        ∀ n ∈ slabs.map SingleFileSlab.slabSize, size ≤ n → s.size ≤ n
  | [], _, _, _, _, created, _, _, _ => by simp [FileSlab.createIn] at created
  | c :: rest, slabs', fs, fs', s, created, narrow, free, ascending => by
      rw [List.map_cons, List.pairwise_cons] at ascending
      unfold FileSlab.createIn at created
      split at created
      · next fits =>
          have ofClass : s.size = c.slabSize := by
            split at created
            · next res others shape =>
                cases created
                exact free c (List.mem_cons_self ..) s (by rw [shape]; exact List.mem_cons_self ..)
            · cases created
              have same : (c.bump fs).1.slabSize = c.slabSize := by
                unfold SingleFileSlab.bump
                split
                · rfl
                · rfl
              show (c.bump fs).1.slabSize % 2 ^ 16 = c.slabSize
              rw [same]
              exact Nat.mod_eq_of_lt (narrow c (List.mem_cons_self ..))
          rw [ofClass]
          refine ⟨List.mem_cons_self .., fits, fun n member _ => ?_⟩
          rcases List.mem_cons.mp member with rfl | later
          · exact le_rfl
          · exact (ascending.1 n later).le
      · next tooSmall =>
          simp only [Option.map_eq_some_iff, Prod.mk.injEq] at created
          obtain ⟨⟨s', slabs'', fs''⟩, later, rfl, -, -⟩ := created
          obtain ⟨inRest, fits, least⟩ := createIn_smallest later
            (fun d member => narrow d (List.mem_cons_of_mem _ member))
            (fun d member => free d (List.mem_cons_of_mem _ member)) ascending.2
          refine ⟨List.mem_cons_of_mem _ inRest, fits, fun n member enough => ?_⟩
          rcases List.mem_cons.mp member with rfl | inLater
          · exact absurd enough tooSmall
          · exact least n inLater enough

/-- The bit fields of a slab hold what `Create` assigns to them: a freed slab's own values, or
the size, file and index of a class. -/
def Stored (slabs slabs' : List SingleFileSlab) (s : SlabT) : Prop :=
  Free slabs s ∨ ∃ c ∈ slabs', s = ⟨c.slabSize, c.curFile, c.curSlab⟩

theorem bump_stored {c : SingleFileSlab} {fs : LocalFileSet} (ok : c.Ok fs.fileSet.length)
    (narrow : (c.bump fs).2.fileSet.length < 2 ^ 16) : (c.bump fs).1.current =
      ⟨(c.bump fs).1.slabSize, (c.bump fs).1.curFile, (c.bump fs).1.curSlab⟩ := by
  have sizeFits : c.slabSize % 2 ^ 16 = c.slabSize := Nat.mod_eq_of_lt (by have := ok.small; omega)
  unfold SingleFileSlab.bump at narrow ⊢
  split
  · next full =>
      rw [if_pos full] at narrow
      simp only [LocalFileSet.create, List.length_append, List.length_singleton] at narrow
      simp only [SingleFileSlab.current, SlabT.pack, LocalFileSet.create, sizeFits,
        Nat.mod_eq_of_lt narrow, Nat.zero_mod]
  · next notFull =>
      rw [if_neg notFull] at narrow
      have inFiles : c.curFile ∈ c.files := ok.current.resolve_left notFull
      have fileFits : c.curFile % 2 ^ 16 = c.curFile :=
        Nat.mod_eq_of_lt (lt_of_le_of_lt (ok.range _ inFiles).2 narrow)
      have indexFits : (c.curSlab + 1) % 2 ^ 32 = c.curSlab + 1 :=
        Nat.mod_eq_of_lt (by have := ok.perFile; have := ok.bump; omega)
      simp only [SingleFileSlab.current, SlabT.pack, sizeFits, fileFits, indexFits]

theorem createIn_stored {size : Nat} {slabs slabs' : List SingleFileSlab} {fs fs' : LocalFileSet}
    {s : SlabT} (ok : AllocSound slabs fs.fileSet.length)
    (created : FileSlab.createIn size slabs fs = some (s, slabs', fs'))
    (narrow : fs'.fileSet.length < 2 ^ 16) : Stored slabs slabs' s := by
  obtain ⟨before, c, after, c', rfl, rfl, -, ⟨free, shape, -, -⟩ | ⟨-, rfl, rfl, rfl⟩⟩ :=
    createIn_split created
  · exact Or.inl ⟨c, by simp, by simp [shape]⟩
  · exact Or.inr ⟨(c.bump fs).1, by simp, bump_stored (ok.each c (by simp)) narrow⟩

/-! ## Runs -/

/-- A `FileSlab`, and the slabs returned by `Create` and not deleted since. -/
structure SlabUse where
  fileSlab : FileSlab
  live : List SlabT

inductive SlabCall where
  | create (key value : Slice)
  | delete (slab : SlabT) (aio : Aio)

namespace SlabUse

def new (directory : String) (pages : Nat) (junk : Memory) (slabPerFile : Nat) : SlabUse where
  fileSlab := .new (.new directory (.new pages junk)) slabPerFile slabSizes
  live := []

/-- One call, with the slab it returned; a `Create` that throws changes nothing. -/
def next (s : SlabUse) : SlabCall → Option (SlabUse × Option SlabT)
  | .create key value =>
      match s.fileSlab.create key value with
      | none => some (s, none)
      | some (slab, fs) => some (⟨fs, slab :: s.live⟩, some slab)
  | .delete slab aio => (s.fileSlab.delete slab aio).map fun out => (⟨out.2, s.live.erase slab⟩, none)

abbrev files (s : SlabUse) : Nat := s.fileSlab.fileSet.fileSet.length

/-- A `Delete` is of a slab in use, and fewer than `2 ^ 16` slab files exist. -/
def Allowed (s : SlabUse) : SlabCall → Prop
  | .create key value => ∀ out ∈ s.next (.create key value), out.1.files < 2 ^ 16
  | .delete slab _ => slab ∈ s.live

instance (s : SlabUse) : (call : SlabCall) → Decidable (s.Allowed call)
  | .create key value => inferInstanceAs (Decidable (∀ out ∈ s.next (.create key value), _))
  | .delete slab _ => inferInstanceAs (Decidable (slab ∈ s.live))

/-- The slabs in use are apart, and none crosses a page boundary. -/
structure Parcelled (s : SlabUse) : Prop where
  apart : ∀ a ∈ s.live, ∀ b ∈ s.live, a ≠ b → a.file = b.file →
    a.size * a.index + a.size ≤ b.size * b.index ∨ b.size * b.index + b.size ≤ a.size * a.index
  inPage : ∀ a ∈ s.live, a.size * a.index % pageSize + a.size ≤ pageSize

/-- A slab `Create` returns is not in use, of the smallest class that holds the item, and
stored as it is. -/
structure Served (s s' : SlabUse) (size : Nat) (slab : SlabT) : Prop where
  notLive : slab ∉ s.live
  isClass : slab.size ∈ slabSizes
  holds : size ≤ slab.size
  smallest : ∀ n ∈ slabSizes, size ≤ n → slab.size ≤ n
  stored : Stored s.fileSlab.slabs s'.fileSlab.slabs slab

/-- A `Create` of an item that a class holds returns a slab. -/
def Serves (s : SlabUse) : SlabCall → Prop
  | .create key value =>
      ((∃ n ∈ slabSizes, itemSize key value ≤ n) →
        ∃ s' slab, s.next (.create key value) = some (s', some slab)) ∧
      ∀ s' slab, s.next (.create key value) = some (s', some slab) →
        s.Served s' (itemSize key value) slab
  | .delete _ _ => True

/-- The invariant: the slabs in use are issued and not free. -/
structure Tended (pages : Nat) (junk : Memory) (s : SlabUse) : Prop where
  sound : AllocSound s.fileSlab.slabs s.files
  sizes : s.fileSlab.slabs.map SingleFileSlab.slabSize = slabSizes
  cache : s.fileSlab.fileSet.pagecache = .new pages junk
  nodup : s.live.Nodup
  live : ∀ x ∈ s.live, Issued s.fileSlab.slabs x ∧ ¬ Free s.fileSlab.slabs x

variable {pages : Nat} {junk : Memory} {s : SlabUse}

theorem new_tended (directory : String) {slabPerFile : Nat} (narrow : slabPerFile < 2 ^ 32) :
    (SlabUse.new directory pages junk slabPerFile).Tended pages junk where
  sound := new_sound narrow
  sizes := rfl
  cache := rfl
  nodup := List.nodup_nil
  live _ inside := by cases inside

theorem Tended.parcelled (tended : s.Tended pages junk) : s.Parcelled where
  apart a inLive b inLive' differ same :=
    tended.sound.issued_apart (tended.live a inLive).1 (tended.live b inLive').1 differ same
  inPage a inLive := by
    obtain ⟨c, member, own⟩ := (tended.live a inLive).1
    rw [own.size]
    exact product_in_page a.index (tended.sound.each c member).divides

/-- What a `Create` that returns does. -/
theorem Tended.create (tended : s.Tended pages junk) {key value : Slice} {slab : SlabT} {fs : FileSlab}
    (created : s.fileSlab.create key value = some (slab, fs)) (narrow : fs.fileSet.fileSet.length < 2 ^ 16) :
    s.Served ⟨fs, slab :: s.live⟩ (itemSize key value) slab ∧
      (SlabUse.mk fs (slab :: s.live)).Tended pages junk := by
  simp only [FileSlab.create, Option.map_eq_some_iff, Prod.mk.injEq] at created
  obtain ⟨⟨slab, slabs, fileSet⟩, made, rfl, rfl⟩ := created
  obtain ⟨sound, issued, -, fresh, free, keeps⟩ := createIn_sound tended.sound made narrow
  have notLive : slab ∉ s.live := by
    intro inLive
    obtain ⟨old, busy⟩ := tended.live slab inLive
    rcases fresh with isFree | unissued
    · exact busy isFree
    · exact unissued old
  obtain ⟨isClass, holds, smallest⟩ := createIn_smallest made
    (fun c member => by have := (tended.sound.each c member).small; omega)
    (fun c member x inFree => ((tended.sound.each c member).free x inFree).size)
    (by rw [tended.sizes]; decide)
  rw [tended.sizes] at isClass smallest
  refine ⟨⟨notLive, isClass, holds, smallest, createIn_stored tended.sound made narrow⟩, sound,
    (createIn_perFile made).1.trans tended.sizes, (createIn_files made).1.trans tended.cache,
    List.nodup_cons.mpr ⟨notLive, tended.nodup⟩, fun x inLive => ?_⟩
  rcases List.mem_cons.mp inLive with rfl | old
  · exact ⟨issued, fun isFree => ((free x).mp isFree).2 rfl⟩
  · obtain ⟨known, busy⟩ := tended.live x old
    exact ⟨keeps x known, fun isFree => busy ((free x).mp isFree).1⟩

/-- `Delete` of a slab in use returns. -/
theorem Tended.delete (tended : s.Tended pages junk) {slab : SlabT} (inLive : slab ∈ s.live) (aio : Aio) :
    ∃ s', s.next (.delete slab aio) = some (s', none) ∧ s'.Tended pages junk := by
  obtain ⟨issued, busy⟩ := tended.live slab inLive
  obtain ⟨c, member, own⟩ := issued
  obtain ⟨slabs, freed⟩ := freeIn_isSome ⟨c, member, own.size.symm⟩
  obtain ⟨sound, free, keeps⟩ := freeIn_sound tended.sound ⟨c, member, own⟩ busy freed
  have looked : s.fileSlab.fileSet.pagecache.lookup (pageHash slab.file (slab.off / pageSize)) =
      some (none, s.fileSlab.fileSet.pagecache) := by
    rw [tended.cache]
    rfl
  have has : s.fileSlab.fileSet.HasFile slab.file := (tended.sound.each c member).range slab.file own.file
  have deleted : ∃ a, s.fileSlab.delete slab aio = some (a, ⟨s.fileSlab.fileSet, slabs⟩) := by
    rw [FileSlab.delete, freed]
    simp only [LocalFileSet.write, if_pos has, looked, Option.map_some]
    exact ⟨_, rfl⟩
  obtain ⟨a, deleted⟩ := deleted
  refine ⟨⟨⟨s.fileSlab.fileSet, slabs⟩, s.live.erase slab⟩, by rw [next, deleted]; rfl, sound,
    (freeIn_perFile freed).1.trans tended.sizes, tended.cache, tended.nodup.erase slab, fun x inRest => ?_⟩
  obtain ⟨differ, old⟩ := tended.nodup.mem_erase_iff.mp inRest
  obtain ⟨known, idle⟩ := tended.live x old
  refine ⟨(keeps x).mp known, fun isFree => ?_⟩
  rcases (free x).mp isFree with wasFree | same
  · exact idle wasFree
  · exact differ same

/-- **One call.** -/
theorem Tended.next (tended : s.Tended pages junk) {call : SlabCall} (allowed : s.Allowed call) :
    ∃ s' out, s.next call = some (s', out) ∧ s'.Tended pages junk := by
  cases call with
  | create key value =>
      cases created : s.fileSlab.create key value with
      | none => exact ⟨s, none, by rw [SlabUse.next, created], tended⟩
      | some out =>
          obtain ⟨slab, fs⟩ := out
          have taken : s.next (.create key value) = some (⟨fs, slab :: s.live⟩, some slab) := by
            rw [SlabUse.next, created]
          exact ⟨_, _, taken, (tended.create created (allowed _ taken)).2⟩
  | delete slab aio =>
      obtain ⟨s', taken, tended'⟩ := tended.delete allowed aio
      exact ⟨s', none, taken, tended'⟩

theorem Tended.serves (tended : s.Tended pages junk) {call : SlabCall} (allowed : s.Allowed call) :
    s.Serves call := by
  cases call with
  | delete slab aio => exact trivial
  | create key value =>
      constructor
      · rintro ⟨n, isClass, holds⟩
        obtain ⟨out, created⟩ := createIn_isSome holds s.fileSlab.fileSet (tended.sizes ▸ isClass)
        exact ⟨_, _, by rw [SlabUse.next, FileSlab.create, created, Option.map_some]⟩
      · intro s' slab taken
        have narrow := allowed _ taken
        cases created : s.fileSlab.create key value with
        | none =>
            rw [SlabUse.next, created] at taken
            cases taken
        | some out =>
            rw [SlabUse.next, created] at taken
            cases taken
            exact (tended.create created narrow).1

end SlabUse

/-- **Slabs in use are apart.**  For every run of `Create` and `Delete` on a new `FileSlab` in
which only slabs in use are deleted and fewer than `2 ^ 16` slab files exist: every call
returns, in every state reached the slabs in use do not overlap and lie in one page each, every
`Create` of an item that a class holds returns a slab, and every slab a `Create` returns is not in
use, of the smallest class that holds the item, and stored as it is. -/
theorem slabs_parcelled (directory : String) (pages : Nat) (junk : Memory) {slabPerFile : Nat}
    (narrow : slabPerFile < 2 ^ 32) {calls : List SlabCall}
    (allowed : Run.Along SlabUse.next SlabUse.Allowed (.new directory pages junk slabPerFile) calls) :
    (∃ s outs, Run.run SlabUse.next (.new directory pages junk slabPerFile) calls = some (s, outs)) ∧
      (∀ n s outs, Run.run SlabUse.next (.new directory pages junk slabPerFile) (calls.take n) =
        some (s, outs) → s.Parcelled) ∧
      Run.Along SlabUse.next SlabUse.Serves (.new directory pages junk slabPerFile) calls := by
  have start : (SlabUse.new directory pages junk slabPerFile).Tended pages junk :=
    SlabUse.new_tended directory narrow
  have steps : ∀ (s : SlabUse) (call : SlabCall), s.Tended pages junk → s.Allowed call →
      ∃ s' out, s.next call = some (s', out) ∧ s'.Tended pages junk := fun _ _ tended ok => tended.next ok
  have kept : ∀ (s : SlabUse) (call : SlabCall) (s' : SlabUse) (out : Option SlabT),
      s.Tended pages junk → s.Allowed call → s.next call = some (s', out) → s'.Tended pages junk := by
    intro s call s' out tended ok taken
    obtain ⟨s'', out', taken', tended'⟩ := tended.next ok
    rw [taken, Option.some.injEq, Prod.mk.injEq] at taken'
    exact taken'.1 ▸ tended'
  refine ⟨?_, fun n s outs ran => ?_, ?_⟩
  · obtain ⟨s, outs, ran, -⟩ := Run.total steps start allowed
    exact ⟨s, outs, ran⟩
  · exact (Run.invariant kept start (allowed.take n) ran).parcelled
  · have both := (Run.Along.congr_kept (fun s call tended =>
      ⟨fun ok => ⟨ok, SlabUse.Tended.serves tended ok⟩, And.left⟩) kept start).mp allowed
    exact (Run.along_and.mp both).2

/-- Two slabs per file: the third slab of a class opens a second file. -/
theorem slabs_parcelled_example : Run.Along SlabUse.next SlabUse.Serves (.new "/d" 2 (fun _ => 0) 1)
    [.create [1] [2], .create [3] [], .create [4] [5], .delete ⟨64, 1, 1⟩ (.new 0 ⟨0, [], []⟩),
      .create [6] [7]] :=
  (slabs_parcelled "/d" 2 (fun _ => 0) (by decide) (by decide +kernel)).2.2

/-! ## The machine's arithmetic -/

/-- The product `slab.size * slab.index` of the promoted bit fields. -/
def SlabT.offset32 (s : SlabT) : UInt32 := UInt32.ofNat s.size * UInt32.ofNat s.index

/-- `int page_index = off / PageCache::PAGE_SIZE`. -/
def SlabT.pageIndex32 (s : SlabT) : Int32 := Int32.ofNat (s.offset32.toNat / pageSize)

/-- `PageCache::PAGE_SIZE * page_index`. -/
def SlabT.pageOffset32 (s : SlabT) : Int32 := Int32.ofNat pageSize * s.pageIndex32

/-- `PageHash_`: `((uint64_t)file << 40U) + (uint64_t)page_index`. -/
def pageHash64 (file : UInt32) (page : Int32) : UInt64 :=
  (file.toUInt64 <<< 40) + page.toInt64.toUInt64

/-- Nothing wraps: the offset, the page and the page's offset are what the numbers say, and the
hash is that of the file and the page. -/
structure SlabT.Exact (s : SlabT) : Prop where
  file : (UInt32.ofNat s.file).toNat = s.file
  narrow : s.file < 2 ^ 16
  offset : s.offset32.toNat = s.size * s.index
  page : s.pageIndex32.toInt = ((s.size * s.index / pageSize : Nat) : Int)
  pageOffset : s.pageOffset32.toInt = pageSize * ((s.size * s.index / pageSize : Nat) : Int)
  hash : (pageHash64 (UInt32.ofNat s.file) s.pageIndex32).toNat = pageHash s.file (s.off / pageSize)

/-- `PageHash_` of a file number of 16 bits and of a page number that is not negative. -/
theorem pageHash64_toNat {file : UInt32} (narrow : file.toNat < 2 ^ 16) {page : Int32} (nonneg : 0 ≤ page.toInt) :
    (pageHash64 file page).toNat = file.toNat * 2 ^ 40 + page.toInt.toNat := by
  have wide : page.toInt64.toUInt64.toNat = page.toInt.toNat := by
    rw [Int64.toNat_toUInt64_of_le]
    · show page.toInt64.toInt.toNat = _
      rw [Int32.toInt_toInt64]
    · rw [Int64.le_iff_toInt_le, Int32.toInt_toInt64]
      exact nonneg
  have small : page.toInt < 2 ^ 31 := page.toInt_lt
  have shifted : (file.toUInt64 <<< 40).toNat = file.toNat * 2 ^ 40 := by
    rw [UInt64.toNat_shiftLeft, Nat.shiftLeft_eq]
    show file.toNat * 2 ^ 40 % 2 ^ 64 = _
    exact Nat.mod_eq_of_lt (by omega)
  rw [pageHash64, UInt64.toNat_add, wide, shifted]
  exact Nat.mod_eq_of_lt (by omega)

theorem Issued.exact {slabs : List SingleFileSlab} {files : Nat} (ok : AllocOk slabs files) {s : SlabT}
    (issued : Issued slabs s) : s.Exact := by
  have off := issued.off_eq ok
  obtain ⟨-, -, -, file⟩ := issued.bounds ok
  have narrow : s.file < 2 ^ 16 := file.trans_lt ok.narrow
  obtain ⟨c, member, own⟩ := issued
  have size : s.size ≤ 1024 := own.size ▸ (ok.each c member).small
  have index : s.index ≤ 2 ^ 16 := own.index.trans (ok.perFile c member)
  have product : s.size * s.index ≤ 1024 * 2 ^ 16 := Nat.mul_le_mul size index
  have fileFits : (UInt32.ofNat s.file).toNat = s.file := UInt32.toNat_ofNat_of_lt' (by
    show s.file < 2 ^ 32
    omega)
  have offset : s.offset32.toNat = s.size * s.index := by
    rw [SlabT.offset32, UInt32.toNat_mul, UInt32.toNat_ofNat_of_lt' (by show s.size < 2 ^ 32; omega),
      UInt32.toNat_ofNat_of_lt' (by show s.index < 2 ^ 32; omega)]
    exact Nat.mod_eq_of_lt (by omega)
  have page : s.pageIndex32.toInt = ((s.size * s.index / pageSize : Nat) : Int) := by
    rw [SlabT.pageIndex32, offset]
    exact Int32.toInt_ofNat_of_lt (by simp only [pageSize]; omega)
  refine ⟨fileFits, narrow, offset, page, ?_, ?_⟩
  · have whole : (Int32.ofNat pageSize).toInt = (pageSize : Int) := rfl
    rw [SlabT.pageOffset32, Int32.toInt_mul, page, whole]
    refine Int.bmod_eq_of_le_mul_two ?_ ?_
    · simp only [pageSize]
      omega
    · simp only [pageSize]
      omega
  · have wide : s.size * s.index / pageSize < 2 ^ 40 := by
      simp only [pageSize]
      omega
    rw [pageHash64_toNat (by omega) (by rw [page]; exact Int.natCast_nonneg _), page, fileFits,
      Int.toNat_natCast, off, pageHash, Nat.mod_eq_of_lt (by omega)]

namespace SlabUse

variable {s s' : SlabUse} {call : SlabCall} {out : Option SlabT}

theorem next_perFile (taken : s.next call = some (s', out)) :
    s'.fileSlab.slabs.map SingleFileSlab.slabPerFile = s.fileSlab.slabs.map SingleFileSlab.slabPerFile := by
  cases call with
  | create key value =>
      cases created : s.fileSlab.create key value with
      | none =>
          rw [next, created] at taken
          cases taken
          rfl
      | some made =>
          rw [next, created] at taken
          cases taken
          simp only [FileSlab.create, Option.map_eq_some_iff] at created
          obtain ⟨⟨slab, slabs, fileSet⟩, made, rfl⟩ := created
          exact (createIn_perFile made).2
  | delete slab aio =>
      simp only [next, FileSlab.delete, Option.map_eq_some_iff] at taken
      obtain ⟨⟨a, fs⟩, deleted, same⟩ := taken
      cases same
      split at deleted
      · cases deleted
      · next freed =>
          simp only [Option.map_eq_some_iff] at deleted
          obtain ⟨_, -, same⟩ := deleted
          cases same
          exact (freeIn_perFile freed).2

end SlabUse

/-- **The arithmetic on slab addresses is exact.**  In every run of `Create` and `Delete` with the
worker's configuration, while fewer than `2 ^ 16` slab files exist, nothing that is computed of the
address of a slab `Create` returns wraps; and different pages of slab files have different hashes. -/
theorem slab_arithmetic_exact (directory : String) (pages : Nat) (junk : Memory) {calls : List SlabCall}
    (allowed : Run.Along SlabUse.next SlabUse.Allowed (.new directory pages junk (2 ^ 16)) calls) :
    Run.Along SlabUse.next (fun s call => ∀ s' slab, s.next call = some (s', some slab) → slab.Exact)
        (.new directory pages junk (2 ^ 16)) calls ∧
      ∀ (file file' : UInt32) (page page' : Int32), file.toNat < 2 ^ 16 → file'.toNat < 2 ^ 16 →
        0 ≤ page.toInt → 0 ≤ page'.toInt → pageHash64 file page = pageHash64 file' page' →
        file = file' ∧ page = page' := by
  constructor
  · let Inv := fun s : SlabUse => s.Tended pages junk ∧ ∀ c ∈ s.fileSlab.slabs, c.slabPerFile ≤ 2 ^ 16
    have start : Inv (.new directory pages junk (2 ^ 16)) :=
      ⟨SlabUse.new_tended directory (by decide), new_allocOk.perFile⟩
    have kept : ∀ (s : SlabUse) (call : SlabCall) (s' : SlabUse) (out : Option SlabT),
        Inv s → s.Allowed call → s.next call = some (s', out) → Inv s' := by
      rintro s call s' out ⟨tended, perFile⟩ ok taken
      obtain ⟨s'', out', taken', tended'⟩ := tended.next ok
      rw [taken, Option.some.injEq, Prod.mk.injEq] at taken'
      exact ⟨taken'.1 ▸ tended', perFile_of_map (SlabUse.next_perFile taken) perFile⟩
    have exact' : ∀ (s : SlabUse) (call : SlabCall), Inv s → s.Allowed call →
        ∀ s' slab, s.next call = some (s', some slab) → slab.Exact := by
      intro s call inv ok s' slab taken
      obtain ⟨tended, perFile⟩ := kept s call s' (some slab) inv ok taken
      cases call with
      | create key value =>
          cases created : s.fileSlab.create key value with
          | none =>
              rw [SlabUse.next, created] at taken
              cases taken
          | some made =>
              rw [SlabUse.next, created] at taken
              cases taken
              exact (tended.live _ (List.mem_cons_self ..)).1.exact ⟨tended.sound, perFile⟩
      | delete freed aio =>
          simp only [SlabUse.next, Option.map_eq_some_iff] at taken
          obtain ⟨_, -, same⟩ := taken
          cases same
    have both := (Run.Along.congr_kept (fun s call inv =>
      ⟨fun ok => ⟨ok, exact' s call inv ok⟩, And.left⟩) kept start).mp allowed
    exact (Run.along_and.mp both).2
  · intro file file' page page' narrow narrow' nonneg nonneg' same
    have hashes := congrArg UInt64.toNat same
    rw [pageHash64_toNat narrow nonneg, pageHash64_toNat narrow' nonneg'] at hashes
    have small : page.toInt < 2 ^ 31 := page.toInt_lt
    have small' : page'.toInt < 2 ^ 31 := page'.toInt_lt
    exact ⟨UInt32.toNat_inj.mp (by omega), Int32.toInt_inj.mp (by omega)⟩

/-- The last class of item, in the second slab of its file. -/
theorem slab_arithmetic_exact_example : Run.Along SlabUse.next
    (fun s call => ∀ s' slab, s.next call = some (s', some slab) → slab.Exact)
    (.new "/d" 2 (fun _ => 0) (2 ^ 16)) [.create [1] (List.replicate 1000 2), .create [3] (List.replicate 600 4)] :=
  (slab_arithmetic_exact "/d" 2 (fun _ => 0) (by decide +kernel)).1

end KTableFS.Kvengine
